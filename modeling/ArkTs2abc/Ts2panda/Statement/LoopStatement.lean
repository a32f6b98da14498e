import ArkTs2abc.Ts2panda.Statement.TryStatement

/-!
# Loops and switch statements

Each function gets the code of the statements below it as computations of their
context, as the source gets the compiler. `labels` are the names that the statement
stands under, innermost first: `updateName2LabelTarget` goes through them from
`stmt.parent` outwards.

A loop has an environment when a closure captures a variable of it. The environment
is pushed behind the start label, and popped before the jump back to it and behind
the end label; a for-of loop pushes it within the try block around its body.

## Main definitions

* `compileCondition` — jumps of a condition.
* `compileDoStatement`, `compileWhileStatement`, `compileForStatement`,
  `compileForInStatement`, `compileForOfStatement` — loops.
* `compileSwitchStatement` — switch statements.
-/

namespace ArkTs2abc.Ts2panda.Compiler

open Gen

variable {E : Type}

/-- The code of a statement, at its context. -/
abbrev CompileStatement (E : Type) := Context E → Gen E Unit

/-- The conditions that `compileCondition` tells apart; a comparison is one expression. -/
inductive Condition (E : Type) where
  | and (left right : E)
  | or (left right : E)
  | other (e : E)
  deriving DecidableEq, Repr

def compileCondition (c : Context E) (ifFalseLabel : Label) : Condition E → Gen E Unit
  | .and left right => do
    c.add (.code left)
    c.add (.condition ifFalseLabel)
    c.add (.code right)
    c.add (.condition ifFalseLabel)
  | .or left right => do
    let endLabel ← c.newLabel
    c.add (.code left)
    c.add (.condition endLabel)
    c.add (.code right)
    c.add (.condition ifFalseLabel)
    c.label endLabel
  | .other e => do
    c.add (.code e)
    c.add (.condition ifFalseLabel)

def compileConditionIfExisted (c : Context E) (ifFalseLabel : Label) :
    Option (Condition E) → Gen E Unit
  | some condition => compileCondition c ifFalseLabel condition
  | none => pure ()

def compileExpressions (c : Context E) : List E → Gen E Unit
  | [] => pure ()
  | e :: es => do
    c.add (.code e)
    compileExpressions c es

/-- `createLexEnv`, if the loop needs an environment. -/
def createLoopEnv (c : Context E) (needCreateLoopEnv : Bool) : Gen E Unit :=
  if needCreateLoopEnv then c.add .createLexEnv else pure ()

def compileDoStatement (c : Context E) (labels : List String) (needCreateLoopEnv : Bool)
    (statement : CompileStatement E) (expression : Condition E) : Gen E Unit := do
  let loopStartLabel ← c.newLabel
  let loopEndLabel ← newLabel (c.envs + needCreateLoopEnv.toNat)
  let conditionLabel ← newLabel (c.envs + needCreateLoopEnv.toNat)
  let labelTarget :=
    c.newLabelTarget .doStatement loopEndLabel (some conditionLabel) needCreateLoopEnv
  updateName2LabelTarget labelTarget labels
  let loop := (c.pushLabelTarget labelTarget).enter labelTarget
  c.label loopStartLabel
  createLoopEnv c needCreateLoopEnv
  statement loop
  loop.label conditionLabel
  compileCondition loop loopEndLabel expression
  loop.popLoopEnvIfNeeded needCreateLoopEnv
  loop.add (.branch loopStartLabel)
  loop.label loopEndLabel
  loop.popLoopEnvIfNeeded needCreateLoopEnv

def compileWhileStatement (c : Context E) (labels : List String) (needCreateLoopEnv : Bool)
    (expression : Condition E) (statement : CompileStatement E) : Gen E Unit := do
  let loopStartLabel ← c.newLabel
  let loopEndLabel ← newLabel (c.envs + needCreateLoopEnv.toNat)
  let labelTarget :=
    c.newLabelTarget .whileStatement loopEndLabel (some loopStartLabel) needCreateLoopEnv
  updateName2LabelTarget labelTarget labels
  let loop := (c.pushLabelTarget labelTarget).enter labelTarget
  c.label loopStartLabel
  createLoopEnv c needCreateLoopEnv
  compileCondition loop loopEndLabel expression
  statement loop
  loop.popLoopEnvIfNeeded needCreateLoopEnv
  loop.add (.branch loopStartLabel)
  loop.label loopEndLabel
  loop.popLoopEnvIfNeeded needCreateLoopEnv

/-- The header of a for statement. -/
structure ForHeader (E : Type) where
  needCreateLoopEnv : Bool
  /-- Whether the initializer declares a variable that a closure captures. -/
  createEnvAtBegining : Bool
  /-- The declarations of the initializer, or its expression. -/
  initializer : List E
  condition : Option (Condition E)
  /-- The captured variables of the initializer, each with the code that loads it. -/
  loopVariables : List E
  incrementor : Option E

/-- The loop with its environment pushed before the initializer; each iteration hands the captured
variables on to the next one in an environment of its own. -/
def compileForAtBegining (c : Context E) (labels : List String) (header : ForHeader E)
    (statement : CompileStatement E) : Gen E Unit := do
  let loopStartLabel ← newLabel (c.envs + 1)
  let loopEndLabel ← newLabel (c.envs + 1)
  let incLabel ← newLabel (c.envs + 1)
  let labelTarget := c.newLabelTarget .forStatement loopEndLabel (some incLabel) true
  updateName2LabelTarget labelTarget labels
  let loop := (c.pushLabelTarget labelTarget).enter labelTarget
  c.add .createLexEnv
  compileExpressions loop header.initializer
  loop.label loopStartLabel
  compileConditionIfExisted loop loopEndLabel header.condition
  statement loop
  loop.label incLabel
  compileExpressions loop header.loopVariables
  loop.add .popLexicalEnv
  c.add .createLexEnv
  loop.add .move
  compileExpressions loop header.incrementor.toList
  loop.add (.branch loopStartLabel)
  loop.label loopEndLabel
  loop.add .popLexicalEnv

/-- The loop in fast mode. -/
def compileForFast (c : Context E) (labels : List String) (header : ForHeader E)
    (statement : CompileStatement E) : Gen E Unit := do
  let need := header.needCreateLoopEnv
  let loopStartLabel ← c.newLabel
  let loopEndLabel ← newLabel (c.envs + need.toNat)
  let incLabel ← newLabel (c.envs + need.toNat)
  let labelTarget := c.newLabelTarget .forStatement loopEndLabel (some incLabel) need
  updateName2LabelTarget labelTarget labels
  let loop := (c.pushLabelTarget labelTarget).enter labelTarget
  compileExpressions c header.initializer
  c.label loopStartLabel
  createLoopEnv c need
  compileConditionIfExisted loop loopEndLabel header.condition
  statement loop
  loop.label incLabel
  compileExpressions loop header.incrementor.toList
  loop.popLoopEnvIfNeeded need
  loop.add (.branch loopStartLabel)
  loop.label loopEndLabel
  loop.popLoopEnvIfNeeded need

def compileForStatement (c : Context E) (labels : List String) (header : ForHeader E)
    (statement : CompileStatement E) : Gen E Unit :=
  if header.createEnvAtBegining && header.needCreateLoopEnv then
    compileForAtBegining c labels header statement
  else compileForFast c labels header statement

/-- `initializer` is the code that assigns a property name to the initializer of the loop. -/
def compileForInStatement (c : Context E) (labels : List String) (needCreateLexEnv : Bool)
    (initializer expression : E) (statement : CompileStatement E) : Gen E Unit := do
  let loopStartLabel ← c.newLabel
  let loopEndLabel ← newLabel (c.envs + needCreateLexEnv.toNat)
  let labelTarget :=
    c.newLabelTarget .forInStatement loopEndLabel (some loopStartLabel) needCreateLexEnv
  updateName2LabelTarget labelTarget labels
  let loop := (c.pushLabelTarget labelTarget).enter labelTarget
  c.add (.code expression)
  c.add (.operation .getPropIterator)
  c.add .move
  c.label loopStartLabel
  createLoopEnv c needCreateLexEnv
  loop.add (.operation .getNextPropName)
  loop.add .move
  loop.add (.condition loopEndLabel)
  loop.add (.code initializer)
  statement loop
  loop.popLoopEnvIfNeeded needCreateLexEnv
  loop.add (.branch loopStartLabel)
  loop.label loopEndLabel
  loop.popLoopEnvIfNeeded needCreateLexEnv

/-- The call of the method `return` of an iterator, if there is one, up to the label behind it. -/
def iteratorClose (c : Context E) (noReturn : Label) : Gen E Unit := do
  c.add (.operation (.loadObjProperty "return"))
  c.add .move
  c.add (.condition noReturn)
  c.add (.operation .call)

/-- `TryBuilderWithForOf.compileTryBlock`. The try block begins outside of the loop's environment,
so the nest of its code is given apart. -/
def compileForOfTryBlock (labelTarget : LabelTarget) (nextLabel : Label) (around : List Frame)
    (initializer : E) (statement : CompileStatement E) (r : Range) (block : Context E) :
    Gen E Unit := do
  block.add .move
  block.label nextLabel
  createLoopEnv block labelTarget.hasLoopEnv
  let loop := { block with nest := .tryBlock r :: .target labelTarget :: around }
  loop.add (.operation .call)
  loop.add .move
  loop.add (.operation .throwIfNotObject)
  loop.add (.operation (.loadObjProperty "done"))
  loop.add (.condition labelTarget.breakTargetLabel)
  loop.add (.operation (.loadObjProperty "value"))
  loop.add .move
  loop.add (.code initializer)
  statement loop

/-- `TryBuilderWithForOf.compileExceptionHandler`. -/
def compileForOfHandler (c : Context E) : Gen E Unit := do
  let noReturn ← c.newLabel
  c.add .move
  c.add (.condition noReturn)
  iteratorClose c noReturn
  c.label noReturn
  c.add .move
  c.add .throw

/-- `TryBuilderWithForOf.compileFinalizer`. -/
def compileForOfFinalizer (outer : List (TryStatement E)) (nextLabel : Label) : Finalizer E :=
  fun cfc continueTargetLabel around =>
    let c : Context E := ⟨around, outer⟩
    if cfc = .break ∨ continueTargetLabel ≠ some nextLabel then do
      let noReturn ← c.newLabel
      iteratorClose c noReturn
      c.add .move
      c.add (.operation .throwIfNotObject)
      c.label noReturn
    else pure ()

/-- `initializer` is the code that assigns a value to the initializer of the loop. -/
def compileForOfStatement (c : Context E) (labels : List String) (needCreateLoopEnv : Bool)
    (initializer expression : E) (statement : CompileStatement E) : Gen E Unit := do
  let nextLabel ← c.newLabel
  let endLabel ← newLabel (c.envs + needCreateLoopEnv.toNat)
  c.add (.code expression)
  c.add (.operation .getIterator)
  c.add .move
  c.add (.operation (.loadObjProperty "next"))
  c.add .move
  let labelTarget :=
    c.newLabelTarget .forOfStatement endLabel (some nextLabel) needCreateLoopEnv
  let pushed := c.pushLabelTarget labelTarget
  updateName2LabelTarget labelTarget labels
  let loop := pushed.enter labelTarget
  constructTry pushed
    { after := loop
      endLabel := some nextLabel
      finalizer := some (compileForOfFinalizer pushed.tryStatements nextLabel)
      compileTryBlock := compileForOfTryBlock labelTarget nextLabel c.nest initializer statement
      compileFinallyBlockIfExisted := pure ()
      needCreateLoopEnv := needCreateLoopEnv
      compileExceptionHandler := compileForOfHandler loop }
  loop.label endLabel
  loop.popLoopEnvIfNeeded needCreateLoopEnv

/-- A clause of a switch statement; the default clause has no expression. -/
structure Clause (E : Type) where
  expression : Option E
  statements : CompileStatement E

/-- `JumpIfCase`, for a clause that is not the default one. -/
def jumpIfCase (c : Context E) (caseLabel : Label) : Option E → Gen E Unit
  | some expression => do
    c.add (.code expression)
    c.add (.condition caseLabel)
  | none => pure ()

def jumpIfCases (c : Context E) : List (Clause E × Label) → Gen E Unit
  | [] => pure ()
  | (clause, caseLabel) :: rest => do
    jumpIfCase c caseLabel clause.expression
    jumpIfCases c rest

def compileCaseStatements (c : Context E) : List (Clause E × Label) → Gen E Unit
  | [] => pure ()
  | (clause, caseLabel) :: rest => do
    c.label caseLabel
    clause.statements c
    compileCaseStatements c rest

/-- The default clauses' labels, with their indices. -/
def defaultLabels (clauses : List (Clause E × Label)) : List (ℕ × Label) :=
  (clauses.zipIdx.filter fun entry => entry.1.1.expression.isNone).map fun entry =>
    (entry.2, entry.1.2)

/-- Where control goes when no case matches. A default clause that comes first counts as none:
`defaultIndex` is zero then, too. -/
def defaultTarget (switchEndLabel : Label) (clauses : List (Clause E × Label)) : Label :=
  match (defaultLabels clauses).getLast? with
  | some (defaultIndex, caseLabel) => if 0 < defaultIndex then caseLabel else switchEndLabel
  | none => switchEndLabel

def checkDefaultNum (defaultCnt : ℕ) : Gen E Unit :=
  if 1 < defaultCnt then failure else pure ()

def compileSwitchStatement (c : Context E) (labels : List String) (expression : E)
    (clauses : List (Clause E)) : Gen E Unit := do
  let switchEndLabel ← c.newLabel
  let caseLabels ← newLabels c.envs clauses.length
  let labelTarget :=
    c.newLabelTarget .switchStatement switchEndLabel (getCloseContinueTarget c) false
  updateName2LabelTarget labelTarget labels
  let inner := (c.pushLabelTarget labelTarget).enter labelTarget
  inner.add (.code expression)
  inner.add .move
  jumpIfCases inner (clauses.zip caseLabels)
  checkDefaultNum (defaultLabels (clauses.zip caseLabels)).length
  inner.add (.branch (defaultTarget switchEndLabel (clauses.zip caseLabels)))
  compileCaseStatements inner (clauses.zip caseLabels)
  inner.label switchEndLabel

end ArkTs2abc.Ts2panda.Compiler
