import ArkTs2abc.Ts2panda.Statement.LoopStatement

/-!
# Statements

`compileStatement` follows the tree. What a jump statement, a throw statement or a
return statement compiles depends on the context alone; every other statement hands
a context on to the statements below it.

## Main definitions

* `Stmt`, `Stmts`, `Clauses` — statements, as far as control flow goes.
* `transformTryCatchFinally` — try statements with both clauses.
* `compileStatement` — the code of a statement.
* `compileFunctionBody` — the code of a function.
-/

namespace ArkTs2abc.Ts2panda.Compiler

open Gen

mutual

/-- Statements over the expressions `E`. -/
inductive Stmt (E : Type) where
  /-- Everything whose code is that of expressions: declarations among others. -/
  | expression (e : E)
  /-- A block, with the functions that are hoisted to its start. -/
  | block (hoisted : List E) (statements : Stmts E)
  | ifThen (expression : Condition E) (thenStatement : Stmt E)
  | ifElse (expression : Condition E) (thenStatement elseStatement : Stmt E)
  | doWhile (needCreateLoopEnv : Bool) (statement : Stmt E) (expression : Condition E)
  | while (needCreateLoopEnv : Bool) (expression : Condition E) (statement : Stmt E)
  | for (header : ForHeader E) (statement : Stmt E)
  | forIn (needCreateLexEnv : Bool) (initializer expression : E) (statement : Stmt E)
  | forOf (needCreateLoopEnv : Bool) (initializer expression : E) (statement : Stmt E)
  | switch (expression : E) (clauses : Clauses E)
  | labeled (label : String) (statement : Stmt E)
  | continue (label : Option String)
  | break (label : Option String)
  /-- `check` is the check of `this` behind the finalizers, in a derived constructor. -/
  | return (expression check : Option E)
  | throw (expression : E)
  | tryCatch (tryBlock : Stmt E) (variableDeclaration : Option E) (statements : Stmts E)
  | tryFinally (tryBlock finallyBlock : Stmt E)

inductive Stmts (E : Type) where
  | nil
  | cons (stmt : Stmt E) (rest : Stmts E)

inductive Clauses (E : Type) where
  | nil
  | case (expression : E) (statements : Stmts E) (rest : Clauses E)
  | default (statements : Stmts E) (rest : Clauses E)

end

variable {E : Type}

/-- `transformTryCatchFinally`: a try statement with both clauses. -/
def transformTryCatchFinally (tryBlock : Stmt E) (variableDeclaration : Option E)
    (statements : Stmts E) (finallyBlock : Stmt E) : Stmt E :=
  .tryFinally (.block [] (.cons (.tryCatch tryBlock variableDeclaration statements) .nil))
    finallyBlock

/-- Whether the labelled statement needs an end label of its own. -/
def Stmt.isBlockOrIf : Stmt E → Bool
  | .block _ _ | .ifThen _ _ | .ifElse _ _ _ => true
  | _ => false

def compileIfThen (c : Context E) (expression : Condition E) (thenStatement : CompileStatement E) :
    Gen E Unit := do
  let ifEndLabel ← c.newLabel
  compileCondition c ifEndLabel expression
  thenStatement c
  c.label ifEndLabel

def compileIfElse (c : Context E) (expression : Condition E)
    (thenStatement elseStatement : CompileStatement E) : Gen E Unit := do
  let ifElseLabel ← c.newLabel
  let ifEndLabel ← c.newLabel
  compileCondition c ifElseLabel expression
  thenStatement c
  c.add (.branch ifEndLabel)
  c.label ifElseLabel
  elseStatement c
  c.label ifEndLabel

/-- Pops, and the jump of a break or continue statement. -/
def popAndBranch (c : Context E) (change : ControlFlowChange) (name : Option ℕ) (t : LabelTarget)
    (l : Label) : Gen E Unit := do
  c.popLoopEnv (if t.loopEnvLevel = 0 then 0 else t.popTimes (change = .continue))
  Gen.add c.ranges ⟨c.nest, .jump change name⟩ (.branch l)

/-- A continue statement, once its target is known; without a label there is nothing to jump to. -/
def continueTo (c : Context E) (name : Option ℕ) (t : LabelTarget) : Option Label → Gen E Unit
  | none => failure
  | some l => do
    compileFinallyBeforeCFC c t.tryStatement .continue (some l)
    popAndBranch c .continue name t l

def compileContinueStatement (c : Context E) (label : Option String) : Gen E Unit := do
  let (name, t) ← getLabelTarget c label
  continueTo c name t t.continueTargetLabel

def compileBreakStatement (c : Context E) (label : Option String) : Gen E Unit := do
  let (name, t) ← getLabelTarget c label
  compileFinallyBeforeCFC c t.tryStatement .break none
  popAndBranch c .break name t t.breakTargetLabel

def compileReturnStatement (c : Context E) (expression check : Option E) : Gen E Unit := do
  compileExpressions c expression.toList
  c.add .move
  compileFinallyBeforeCFC c none .break none
  c.add .move
  compileExpressions c check.toList
  c.add .return

def compileThrowStatement (c : Context E) (expression : E) : Gen E Unit := do
  c.add (.code expression)
  c.popLoopEnv (match c.tryStatements with
    | [] => 0
    | tryStatement :: _ => tryStatement.loopEnvLevel)
  Gen.add c.ranges ⟨c.nest, .throwStatement⟩ .throw

/-- A labelled block or if statement. -/
def compileLabeledBlock (c : Context E) (names : List String) (statement : CompileStatement E) :
    Gen E Unit := do
  let blockEndLabel ← c.newLabel
  let labelTarget := c.newLabelTarget .labeledStatement blockEndLabel none false
  updateName2LabelTarget labelTarget names
  let inner := (c.pushLabelTarget labelTarget).enter labelTarget
  statement inner
  inner.label blockEndLabel

/-- `statement` gets the labels it stands under. -/
def compileLabeledStatement (c : Context E) (label : String) (labels : List String)
    (isBlockOrIf : Bool) (statement : List String → CompileStatement E) : Gen E Unit := do
  (if isBlockOrIf then compileLabeledBlock c (label :: labels) (statement [])
    else statement (label :: labels) c)
  deleteName2LabelTarget label

/-- A try statement with a catch clause. -/
def compileTryCatch (c : Context E) (tryBlock : CompileStatement E) (variableDeclaration : Option E)
    (catchBlock : CompileStatement E) : Gen E Unit :=
  constructTry c
    { after := c
      endLabel := none
      finalizer := none
      compileTryBlock := fun _ block => tryBlock block
      compileFinallyBlockIfExisted := pure ()
      needCreateLoopEnv := false
      compileExceptionHandler := do
        compileExpressions c variableDeclaration.toList
        catchBlock c }

/-- A try statement with a finally block, which is also its exception handler. -/
def compileTryFinally (c : Context E) (tryBlock finallyBlock : CompileStatement E) : Gen E Unit :=
  constructTry c
    { after := c
      endLabel := none
      finalizer := some fun _ _ around => finallyBlock ⟨around, c.tryStatements⟩
      compileTryBlock := fun _ block => tryBlock block
      compileFinallyBlockIfExisted := finallyBlock c
      needCreateLoopEnv := false
      compileExceptionHandler := do
        c.add .move
        finallyBlock c
        c.add .move
        c.add .throw }

mutual

/-- The code of a statement under the labels `labels`, innermost first. -/
def compileStatement : Stmt E → List String → CompileStatement E
  | .expression e, _, c => c.add (.code e)
  | .block hoisted statements, _, c => do
    compileExpressions c hoisted
    compileStatements statements c
  | .ifThen expression thenStatement, _, c =>
    compileIfThen c expression (compileStatement thenStatement [])
  | .ifElse expression thenStatement elseStatement, _, c =>
    compileIfElse c expression (compileStatement thenStatement [])
      (compileStatement elseStatement [])
  | .doWhile need statement expression, labels, c =>
    compileDoStatement c labels need (compileStatement statement []) expression
  | .while need expression statement, labels, c =>
    compileWhileStatement c labels need expression (compileStatement statement [])
  | .for header statement, labels, c =>
    compileForStatement c labels header (compileStatement statement [])
  | .forIn need initializer expression statement, labels, c =>
    compileForInStatement c labels need initializer expression (compileStatement statement [])
  | .forOf need initializer expression statement, labels, c =>
    compileForOfStatement c labels need initializer expression (compileStatement statement [])
  | .switch expression clauses, labels, c =>
    compileSwitchStatement c labels expression (compileClauses clauses)
  | .labeled label statement, labels, c =>
    compileLabeledStatement c label labels statement.isBlockOrIf (compileStatement statement)
  | .continue label, _, c => compileContinueStatement c label
  | .break label, _, c => compileBreakStatement c label
  | .return expression check, _, c => compileReturnStatement c expression check
  | .throw expression, _, c => compileThrowStatement c expression
  | .tryCatch tryBlock variableDeclaration statements, _, c =>
    compileTryCatch c (compileStatement tryBlock []) variableDeclaration
      (compileStatements statements)
  | .tryFinally tryBlock finallyBlock, _, c =>
    compileTryFinally c (compileStatement tryBlock []) (compileStatement finallyBlock [])

def compileStatements : Stmts E → CompileStatement E
  | .nil, _ => pure ()
  | .cons stmt rest, c => do
    compileStatement stmt [] c
    compileStatements rest c

def compileClauses : Clauses E → List (Clause E)
  | .nil => []
  | .case expression statements rest =>
    ⟨some expression, compileStatements statements⟩ :: compileClauses rest
  | .default statements rest => ⟨none, compileStatements statements⟩ :: compileClauses rest

end

/-- The context at the start of a function. -/
def Context.empty : Context E where
  labelTargets := []
  currentTryStatementDepth := 0
  nest := []
  tryStatements := []

def PandaGen.empty : PandaGen E where
  insns := []
  nextLabel := 0
  catchMap := []
  name2LabelTarget := []
  live := 0

/-- The code of a function: its statements, and the return behind them. -/
def compileFunctionBody (statements : Stmts E) : Option (PandaGen E) :=
  ((do
    compileStatements statements Context.empty
    Context.empty.add .move
    Context.empty.add .return : Gen E Unit).run PandaGen.empty).map Prod.snd

end ArkTs2abc.Ts2panda.Compiler
