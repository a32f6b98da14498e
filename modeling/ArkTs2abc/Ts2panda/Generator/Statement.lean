import ArkTs2abc.Ts2panda.Generator.Code

/-!
# Compiling the statements of a generator function

A try statement with a finally block and a for-of loop are left by running its finalizer, which is
compiled in place of each jump, return and return resumption that leaves it. The finalizer is
compiled as it stands outside of its try block.

## Main definitions

* `Statement` — statements; an expression with a yield is the sequence of its parts.
* `compileFinallyBeforeCFC` — the finalizers between a statement and where it leads.
* `compileStatement` — the code of a statement.
* `YieldAt` — the yields of a statement and what encloses them.
-/

namespace ArkTs2abc.Ts2panda.Generator

/-- Statements. The number of a loop or labelled statement is its name, that of an expression says
which one it is. -/
inductive Statement where
  | expression (e : ℕ)
  | yield (e : ℕ)
  | yieldStar (e : ℕ)
  | empty
  | block (first second : Statement)
  | ifElse (e : ℕ) (thenStatement elseStatement : Statement)
  | while (name e : ℕ) (statement : Statement)
  | forOf (name e : ℕ) (statement : Statement)
  | labeled (name : ℕ) (statement : Statement)
  | break (name : ℕ)
  | continue (name : ℕ)
  | return (e : ℕ)
  | throw (e : ℕ)
  | tryCatch (tryBlock catchBlock : Statement)
  | tryFinally (tryBlock finallyBlock : Statement)
  deriving DecidableEq, Repr

/-- A `TryStatement`, by its builder if it has one. -/
inductive TryStatement where
  | tryCatch
  | tryFinally (finalizer : Code)
  | forOf (name : ℕ)
  deriving DecidableEq, Repr

/-- Where a jump leads: `continueTo` is the loop of a continue statement. -/
inductive ControlFlowChange where
  | continueTo (name : ℕ)
  | break
  deriving DecidableEq, Repr

/-- `TryBuilderBase.compileFinalizer` -/
def TryStatement.compileFinalizer (cfc : ControlFlowChange) : TryStatement → Option Code
  | .tryCatch => none
  | .tryFinally finalizer => some finalizer
  | .forOf name => some (if cfc = .continueTo name then .skip else .iteratorClose name)

/-- The finalizers of these try statements, innermost first, of which `left` are left already. -/
def compileFinallyBeforeCFC (cfc : ControlFlowChange) : List TryStatement → ℕ → Code
  | [], _ => .skip
  | startTry :: outer, left =>
    match startTry.compileFinalizer cfc with
    | some finalizer =>
      .seq (.inlineFinally (left + 1) finalizer) (compileFinallyBeforeCFC cfc outer (left + 1))
    | none => compileFinallyBeforeCFC cfc outer (left + 1)

/-- What a statement is compiled in: the loops and labelled statements around, each with the number
of try statements around it, and the try statements. -/
structure Context where
  labelTargets : List (ℕ × ℕ)
  tries : List TryStatement

namespace Context

/-- The try statements that a jump to the target leaves. -/
def leaving (c : Context) (name : ℕ) : List TryStatement :=
  c.tries.take (c.tries.length - (c.labelTargets.lookup name).getD 0)

def pushLabelTarget (c : Context) (name : ℕ) : Context :=
  { c with labelTargets := (name, c.tries.length) :: c.labelTargets }

def pushTry (c : Context) (tryStatement : TryStatement) : Context :=
  { c with tries := tryStatement :: c.tries }

end Context

/-- `handleMode` for a return: the finalizers, and the return of `retVal`. -/
def compileReturnMode (tries : List TryStatement) : Code :=
  .seq (compileFinallyBeforeCFC .break tries 0) .returnRetVal

/-- The code of a for-of loop: the iterator, and the try range with its next calls. -/
def compileForOfStatement (name e : ℕ) (statement : Code) : Code :=
  .label
    (.seq (.operation e)
      (.tryRange
        (.loop (.seq (.operation e) (.condition e
          (.seq (.operation e) (.label statement (.continueTarget name)))
          (.branch (.breakTarget name)))))
        (.seq (.operation e) .throw)))
    (.breakTarget name)

def compileStatement : Statement → Context → Code
  | .expression e, _ => .operation e
  | .yield e, c => .seq (.operation e) (.suspend e (compileReturnMode c.tries))
  | .yieldStar e, c => .delegate e (compileFinallyBeforeCFC .break c.tries 0)
  | .empty, _ => .skip
  | .block first second, c => .seq (compileStatement first c) (compileStatement second c)
  | .ifElse e thenStatement elseStatement, c =>
    .condition e (compileStatement thenStatement c) (compileStatement elseStatement c)
  | .while name e statement, c =>
    .label
      (.loop (.condition e
        (.label (compileStatement statement (c.pushLabelTarget name)) (.continueTarget name))
        (.branch (.breakTarget name))))
      (.breakTarget name)
  | .forOf name e statement, c =>
    compileForOfStatement name e
      (compileStatement statement ((c.pushLabelTarget name).pushTry (.forOf name)))
  | .labeled name statement, c =>
    .label (compileStatement statement (c.pushLabelTarget name)) (.breakTarget name)
  | .break name, c =>
    .seq (compileFinallyBeforeCFC .break (c.leaving name) 0) (.branch (.breakTarget name))
  | .continue name, c =>
    .seq (compileFinallyBeforeCFC (.continueTo name) (c.leaving name) 0)
      (.branch (.continueTarget name))
  | .return e, c => .returnValue e (compileFinallyBeforeCFC .break c.tries 0)
  | .throw e, _ => .seq (.operation e) .throw
  | .tryCatch tryBlock catchBlock, c =>
    .tryRange (compileStatement tryBlock (c.pushTry .tryCatch)) (compileStatement catchBlock c)
  | .tryFinally tryBlock finallyBlock, c =>
    let finalizer := compileStatement finallyBlock c
    .seq
      (.tryRange (compileStatement tryBlock (c.pushTry (.tryFinally finalizer)))
        (.seq finalizer .throw))
      finalizer

/-- The code of the statements of a generator function. -/
def compileGenerator (statements : Statement) : Code := compileStatement statements ⟨[], []⟩

/-- A try statement or a for-of loop around a statement; a finally block with the label targets
around it. -/
inductive Enclosing where
  | tryCatch
  | tryFinally (finallyBlock : Statement) (labelTargets : List (ℕ × ℕ))
  | forOf (name : ℕ)
  deriving DecidableEq, Repr

/-- The try statements as the compiler has them. -/
def tryStatements : List Enclosing → List TryStatement
  | [] => []
  | .tryCatch :: nest => .tryCatch :: tryStatements nest
  | .tryFinally finallyBlock labelTargets :: nest =>
    .tryFinally (compileStatement finallyBlock ⟨labelTargets, tryStatements nest⟩) ::
      tryStatements nest
  | .forOf name :: nest => .forOf name :: tryStatements nest

/-- `YieldAt statement labelTargets nest e nest'`: a yield of `e` in the statement is enclosed by
`nest'`, when the statement is by `nest`. A finally block is not enclosed by its try block. -/
inductive YieldAt : Statement → List (ℕ × ℕ) → List Enclosing → ℕ → List Enclosing → Prop where
  | yield {e targets nest} : YieldAt (.yield e) targets nest e nest
  | first {first second targets nest e nest'} : YieldAt first targets nest e nest' →
      YieldAt (.block first second) targets nest e nest'
  | second {first second targets nest e nest'} : YieldAt second targets nest e nest' →
      YieldAt (.block first second) targets nest e nest'
  | thenStatement {c s s' targets nest e nest'} : YieldAt s targets nest e nest' →
      YieldAt (.ifElse c s s') targets nest e nest'
  | elseStatement {c s s' targets nest e nest'} : YieldAt s' targets nest e nest' →
      YieldAt (.ifElse c s s') targets nest e nest'
  | while {name c s targets nest e nest'} :
      YieldAt s ((name, nest.length) :: targets) nest e nest' →
      YieldAt (.while name c s) targets nest e nest'
  | forOf {name c s targets nest e nest'} :
      YieldAt s ((name, nest.length) :: targets) (.forOf name :: nest) e nest' →
      YieldAt (.forOf name c s) targets nest e nest'
  | labeled {name s targets nest e nest'} :
      YieldAt s ((name, nest.length) :: targets) nest e nest' →
      YieldAt (.labeled name s) targets nest e nest'
  | tryBlock {s s' targets nest e nest'} : YieldAt s targets (.tryCatch :: nest) e nest' →
      YieldAt (.tryCatch s s') targets nest e nest'
  | catchBlock {s s' targets nest e nest'} : YieldAt s' targets nest e nest' →
      YieldAt (.tryCatch s s') targets nest e nest'
  | finallyTryBlock {s s' targets nest e nest'} :
      YieldAt s targets (.tryFinally s' targets :: nest) e nest' →
      YieldAt (.tryFinally s s') targets nest e nest'
  | finallyBlock {s s' targets nest e nest'} : YieldAt s' targets nest e nest' →
      YieldAt (.tryFinally s s') targets nest e nest'

end ArkTs2abc.Ts2panda.Generator
