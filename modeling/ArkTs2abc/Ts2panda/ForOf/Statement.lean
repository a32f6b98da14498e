import ArkTs2abc.StructuredCode
import Mathlib.Logic.Function.Basic

/-!
# The code of for-of loops

A for-of loop is a try range around its calls of `next`, its binding and its statement. A register
says whether the iterator is done; the handler calls `return` when it is not. A jump or a return out
of the loop calls `return` in place, in code that the range is cut out around.

What user code does, the methods of the iterator among it, is an input of a run.

## Main definitions

* `Statement` — statements, by the targets that their jumps may have.
* `State`, `semantics` — what the operations do.
* `compileForOfStatement`, `compileStatement` — the code.
* `Nest` — what is around a statement.
-/

namespace ArkTs2abc.Ts2panda.ForOf

open StructuredCode

/-- The labels of the target with a number. -/
inductive Label where
  | breakTarget (t : ℕ)
  | continueTarget (t : ℕ)
  deriving DecidableEq, Repr

/-- Operations. Loops, try statements and expressions have numbers; `expression` is the code of
anything in a statement that is no statement itself. -/
inductive Operation where
  | expression (e : ℕ)
  /-- The expression of a throw statement, and `throw`. -/
  | throw (e : ℕ)
  | getIterator (loop : ℕ)
  | storeDone (loop : ℕ) (done : Bool)
  /-- `compileIteratorNext` -/
  | iteratorNext (loop : ℕ)
  | loadValue (loop : ℕ)
  /-- The reference of the initializer, and `setValue`. -/
  | setValue (loop : ℕ)
  | loadReturn (loop : ℕ)
  | callReturn (loop : ℕ)
  | throwIfNotObject (loop : ℕ)
  | storeException (statement : ℕ)
  | throwException (statement : ℕ)
  deriving DecidableEq, Repr

inductive Test where
  | expression (e : ℕ)
  /-- The property `done` of the result of `next`. -/
  | done (loop : ℕ)
  | doneReg (loop : ℕ)
  /-- What was loaded for `return` is not undefined. -/
  | hasReturn (loop : ℕ)
  /-- The mode that a generator was resumed with is that of a return. -/
  | returnMode (e : ℕ)
  deriving DecidableEq, Repr

abbrev Code := StructuredCode.Code Operation Test Label

/-! ## Running -/

/-- What the world decides in a run. -/
inductive Input (V : Type) where
  | completes
  | throws (v : V)
  | holds (b : Bool)
  deriving DecidableEq, Repr

/-- What can be seen of a run. -/
inductive Event where
  /-- An operation that the world has decided about. -/
  | operation (i : Operation)
  /-- A lookup of `return` has found a method. -/
  | found (loop : ℕ)
  deriving DecidableEq, Repr

structure State (V : Type) where
  inputs : List (Input V)
  trace : List Event
  doneReg : ℕ → Bool
  hasReturn : ℕ → Bool
  exceptionVreg : ℕ → V
  accumulator : V

variable {V : Type}

namespace State

def log (s : State V) (i : Operation) : State V := { s with trace := s.trace ++ [.operation i] }

/-- User code, which completes or throws. -/
def perform (s : State V) (i : Operation) : Option (Except V Unit × State V) :=
  match s.inputs with
  | .completes :: inputs => some (.ok (), { s.log i with inputs })
  | .throws v :: inputs => some (.error v, { s.log i with inputs })
  | _ => none

/-- A value that user code decides about. -/
def ask (s : State V) : Option (Except V Bool × State V) :=
  match s.inputs with
  | .holds b :: inputs => some (.ok b, { s with inputs })
  | .throws v :: inputs => some (.error v, { s with inputs })
  | _ => none

/-- How often `return` of an iterator was looked up. -/
def lookups (loop : ℕ) (s : State V) : ℕ := s.trace.count (.operation (.loadReturn loop))

/-- How often such a lookup has found a method, and how often this was called. -/
def methods (loop : ℕ) (s : State V) : ℕ := s.trace.count (.found loop)

def calls (loop : ℕ) (s : State V) : ℕ := s.trace.count (.operation (.callReturn loop))

/-- The end of a lookup of `return`. -/
def lookedUp (s : State V) (loop : ℕ) (b : Bool) : State V :=
  { s with
    trace := s.trace ++ if b then [.found loop] else []
    hasReturn := Function.update s.hasReturn loop b }

end State

def exec (i : Operation) (s : State V) : Option (Except V Unit × State V) :=
  match i with
  | .storeDone loop done => some (.ok (), { s with doneReg := Function.update s.doneReg loop done })
  | .storeException statement =>
    some (.ok (),
      { s with exceptionVreg := Function.update s.exceptionVreg statement s.accumulator })
  | .throwException statement => some (.error (s.exceptionVreg statement), s)
  | .throw e =>
    match s.inputs with
    | .throws v :: inputs => some (.error v, { s.log (.throw e) with inputs })
    | _ => none
  | .loadReturn loop =>
    match s.inputs with
    | .holds b :: inputs => some (.ok (), { (s.log i).lookedUp loop b with inputs })
    | .throws v :: inputs => some (.error v, { s.log i with inputs })
    | _ => none
  | i => s.perform i

def test (q : Test) (s : State V) : Option (Except V Bool × State V) :=
  match q with
  | .doneReg loop => some (.ok (s.doneReg loop), s)
  | .hasReturn loop => some (.ok (s.hasReturn loop), s)
  | .expression _ | .done _ | .returnMode _ => s.ask

def semantics (V : Type) : Semantics Operation Test V (State V) where
  exec := exec
  test := test
  catching e s := { s with accumulator := e }

/-! ## Statements -/

/-- Statements whose jumps may have these targets, outermost first; a target that is a loop is
`true`. A `while` statement stands for the loops without an iterator, a labelled statement for a
switch as well. -/
inductive Statement : List Bool → Type where
  | expression {ts} (e : ℕ) : Statement ts
  | yield {ts} (e : ℕ) : Statement ts
  | empty {ts} : Statement ts
  | block {ts} (first second : Statement ts) : Statement ts
  | ifElse {ts} (e : ℕ) (thenStatement elseStatement : Statement ts) : Statement ts
  | while {ts} (e : ℕ) (statement : Statement (ts ++ [true])) : Statement ts
  | forOf {ts} (name : ℕ) (statement : Statement (ts ++ [true])) : Statement ts
  | labeled {ts} (statement : Statement (ts ++ [false])) : Statement ts
  | break {ts} (t : ℕ) (isTarget : t < ts.length) : Statement ts
  | continue {ts} (t : ℕ) (isLoop : ts[t]? = some true) : Statement ts
  | return {ts} (e : ℕ) : Statement ts
  | throw {ts} (e : ℕ) : Statement ts
  | tryCatch {ts} (tryBlock catchBlock : Statement ts) : Statement ts
  | tryFinally {ts} (name : ℕ) (tryBlock finallyBlock : Statement ts) : Statement ts

/-- The for-of loops of a statement. -/
def Statement.loops {ts : List Bool} : Statement ts → List ℕ
  | .expression _ | .yield _ | .empty | .break .. | .continue .. | .return _ | .throw _ => []
  | .block s s' | .ifElse _ s s' | .tryCatch s s' | .tryFinally _ s s' => s.loops ++ s'.loops
  | .while _ s => s.loops
  | .labeled s => s.loops
  | .forOf name s => name :: s.loops

/-! ## Code -/

/-- A `TryStatement`, by its builder if it has one. -/
inductive TryStatement where
  | tryCatch
  | tryFinally (finalizer : Code)
  /-- A for-of loop with the number of its target. -/
  | forOf (name t : ℕ)

inductive ControlFlowChange where
  /-- To the next iteration of the loop that is this target. -/
  | continue (t : ℕ)
  | break
  deriving DecidableEq, Repr

/-- Call `return` of the iterator, if there is one, and do something with its result. -/
def closeIterator (loop : ℕ) (result : Code) : Code :=
  .seq (.op (.loadReturn loop))
    (.test (.hasReturn loop) (.seq (.op (.callReturn loop)) result) .skip)

/-- `compileFinalizer`, where the try statement has a builder. -/
def TryStatement.compileFinalizer (cfc : ControlFlowChange) : TryStatement → Option Code
  | .tryCatch => none
  | .tryFinally finalizer => some finalizer
  | .forOf name t =>
    some (if cfc = .continue t then .skip else closeIterator name (.op (.throwIfNotObject name)))

/-- `compileFinallyBeforeCFC` for these try statements, innermost first; `left` are left already. -/
def compileFinallyBeforeCFC (cfc : ControlFlowChange) : List TryStatement → ℕ → Code
  | [], _ => .skip
  | startTry :: outer, left =>
    match startTry.compileFinalizer cfc with
    | some finalizer =>
      .seq (.outside (left + 1) finalizer) (compileFinallyBeforeCFC cfc outer (left + 1))
    | none => compileFinallyBeforeCFC cfc outer (left + 1)

/-- What a statement is compiled in. -/
structure Context where
  /-- How many try statements are around a target. -/
  targets : ℕ → ℕ
  /-- The try statements around, innermost first. -/
  tries : List TryStatement

namespace Context

/-- The try statements that a jump to the target leaves. -/
def leaving (c : Context) (t : ℕ) : List TryStatement :=
  c.tries.take (c.tries.length - c.targets t)

def pushLabelTarget (c : Context) (t : ℕ) : Context :=
  { c with targets := Function.update c.targets t c.tries.length }

def pushTry (c : Context) (tryStatement : TryStatement) : Context :=
  { c with tries := tryStatement :: c.tries }

end Context

/-- `TryBuilderWithForOf.compileTryBlock` up to the statement, in the loop of the try range. -/
def compileIteration (name t : ℕ) (statement : Code) : Code :=
  .seq (.op (.iteratorNext name)) <| .test (.done name) (.branch (.breakTarget t)) <|
    .seq (.op (.loadValue name)) <| .seq (.op (.storeDone name false)) <|
      .seq (.op (.setValue name)) (.label statement (.continueTarget t))

/-- `TryBuilderWithForOf.compileExceptionHandler` -/
def compileExceptionHandler (name : ℕ) : Code :=
  .seq (.op (.storeException name)) <|
    .seq (.test (.doneReg name) .skip (closeIterator name .skip)) (.op (.throwException name))

/-- The try range of the loop with its handler. -/
def compileTry (name t : ℕ) (statement : Code) : Code :=
  .tryRange (.seq (.op (.storeDone name true)) (.loop (compileIteration name t statement)))
    (compileExceptionHandler name)

def compileForOfStatement (name t : ℕ) (statement : Code) : Code :=
  .seq (.op (.getIterator name)) <| .seq (.op (.storeDone name false)) <|
    .label (compileTry name t statement) (.breakTarget t)

def compileStatement {ts : List Bool} : Statement ts → Context → Code
  | .expression e, _ => .op (.expression e)
  | .yield e, c =>
    .seq (.op (.expression e))
      (.test (.returnMode e) (.seq (compileFinallyBeforeCFC .break c.tries 0) .return) .skip)
  | .empty, _ => .skip
  | .block first second, c => .seq (compileStatement first c) (compileStatement second c)
  | .ifElse e thenStatement elseStatement, c =>
    .test (.expression e) (compileStatement thenStatement c) (compileStatement elseStatement c)
  | .while e statement, c =>
    .label
      (.loop (.test (.expression e)
        (.label (compileStatement statement (c.pushLabelTarget ts.length))
          (.continueTarget ts.length))
        (.branch (.breakTarget ts.length))))
      (.breakTarget ts.length)
  | .forOf name statement, c =>
    compileForOfStatement name ts.length
      (compileStatement statement ((c.pushLabelTarget ts.length).pushTry (.forOf name ts.length)))
  | .labeled statement, c =>
    .label (compileStatement statement (c.pushLabelTarget ts.length)) (.breakTarget ts.length)
  | .break t _, c =>
    .seq (compileFinallyBeforeCFC .break (c.leaving t) 0) (.branch (.breakTarget t))
  | .continue t _, c =>
    .seq (compileFinallyBeforeCFC (.continue t) (c.leaving t) 0) (.branch (.continueTarget t))
  | .return e, c =>
    .seq (.op (.expression e)) (.seq (compileFinallyBeforeCFC .break c.tries 0) .return)
  | .throw e, _ => .op (.throw e)
  | .tryCatch tryBlock catchBlock, c =>
    .tryRange (compileStatement tryBlock (c.pushTry .tryCatch)) (compileStatement catchBlock c)
  | .tryFinally name tryBlock finallyBlock, c =>
    let finalizer := compileStatement finallyBlock c
    .seq
      (.tryRange (compileStatement tryBlock (c.pushTry (.tryFinally finalizer)))
        (.seq (.op (.storeException name)) (.seq finalizer (.op (.throwException name)))))
      finalizer

/-! ## What is around a statement -/

/-- The statements around a statement, as far as they are targets of jumps or try statements. A
catch clause and a finally block are not in their try statement. -/
inductive Nest : List Bool → Type where
  | function : Nest []
  | while {ts} (outer : Nest ts) : Nest (ts ++ [true])
  | forOf {ts} (name : ℕ) (outer : Nest ts) : Nest (ts ++ [true])
  | labeled {ts} (outer : Nest ts) : Nest (ts ++ [false])
  | tryCatch {ts} (outer : Nest ts) : Nest ts
  | tryFinally {ts} (finallyBlock : Statement ts) (outer : Nest ts) : Nest ts

namespace Nest

/-- What a statement there is compiled in. -/
def context {ts : List Bool} : Nest ts → Context
  | function => ⟨fun _ => 0, []⟩
  | @«while» ts outer => outer.context.pushLabelTarget ts.length
  | @forOf ts name outer =>
    (outer.context.pushLabelTarget ts.length).pushTry (.forOf name ts.length)
  | @labeled ts outer => outer.context.pushLabelTarget ts.length
  | tryCatch outer => outer.context.pushTry .tryCatch
  | tryFinally finallyBlock outer =>
    outer.context.pushTry (.tryFinally (compileStatement finallyBlock outer.context))

/-- The for-of loops around, and those in the finally blocks around. -/
def loops {ts : List Bool} : Nest ts → List ℕ
  | function => []
  | «while» outer | labeled outer | tryCatch outer => outer.loops
  | forOf name outer => name :: outer.loops
  | tryFinally finallyBlock outer => finallyBlock.loops ++ outer.loops

end Nest

end ArkTs2abc.Ts2panda.ForOf
