import ArkTs2abc.Es2panda.Compiler.Emission
import ArkTs2abc.StructuredCode

/-!
# The instructions of exits, and what they do

The instructions that leave statements: jumps, returns, the closing of iterators, suspension and
resumption. The structure of the code is kept. What user code does, and how a function is resumed,
is an input of a run. An `await` is resumed with a next or a throw, a `yield` in any mode.

Three instructions do nothing but leave a mark in the trace: a finalizer starts, an exit starts, an
exception enters a handler. The marks list iterators by their first register.

## Main definitions

* `Operation`, `Test`, `Code` — the code.
* `State`, `semantics` — what it does.
-/

namespace ArkTs2abc.Es2panda.Exits

open StructuredCode

inductive ResumeMode where
  | return | throw | next
  deriving DecidableEq, Repr

/-- The methods of an iterator. -/
inductive Method where
  | next | return
  deriving DecidableEq, Repr

/-- Values of the language. -/
inductive JsValue (V : Type) where
  | undefined
  | bool (b : Bool)
  | other (v : V)
  deriving DecidableEq, Repr

/-- What a register holds. -/
inductive Value (V : Type) where
  | js (v : JsValue V)
  | hole
  | mode (m : ResumeMode)
  | method (m : Method)
  deriving DecidableEq, Repr

/-- The labels behind a statement and at its next iteration, by how many contexts are around. -/
inductive Label where
  | breakTarget (depth : ℕ)
  | continueTarget (depth : ℕ)
  /-- What a jump gets whose walk has found no target. -/
  | missing
  deriving DecidableEq, Repr

/-- An iterator is known by its first register, which is for its method. -/
inductive Operation where
  | lda (r : ℕ)
  | sta (r : ℕ)
  | ldUndefined
  | ldHole
  | throw
  | rethrow
  | throwIfNotObject
  /-- User code. -/
  | expression (e : ℕ)
  | setValue (e : ℕ)
  | validateClassDirectReturn
  /-- `GetIterator` or `GetAsyncIterator`. -/
  | getIterator (type : IteratorType)
  /-- `LoadObjByName` of the property `next`. -/
  | ldNext
  /-- `LoadObjByName` of the property `value`. -/
  | ldValue
  /-- `GetMethod` of the method `return`. -/
  | getMethod (iterator : ℕ)
  /-- `CallThis` of the method in the register. -/
  | callThis (iterator : ℕ)
  | closeIterator (iterator : ℕ)
  /-- `AsyncFunctionAwait` and `SuspendGenerator`. -/
  | await
  /-- `GeneratorYield` and the suspension behind it. -/
  | yield
  | resumeGenerator
  | getResumeMode
  /-- What the builder emits in front of a return. -/
  | resolve
  /-- A finalizer starts, that of the try statement with so many contexts around. -/
  | startFinalizer (depth : ℕ)
  /-- An exit starts; the iterators for which it does not do as it should. -/
  | exits (improper : List ℕ)
  /-- A handler is entered; the iterators of the statements around. -/
  | caught (iterators : List ℕ)
  deriving DecidableEq, Repr

inductive Test where
  /-- A condition in the program. -/
  | expression (e : ℕ)
  /-- The property `done` of the result of `next`. -/
  | done
  /-- `IsUndefined` -/
  | isUndefined
  /-- `Condition` on a resume mode and a register. -/
  | mode (m : ResumeMode) (r : ℕ)
  deriving DecidableEq, Repr

abbrev Code := StructuredCode.Code Operation Test Label

/-! ## Running -/

/-- What the world decides in a run. -/
inductive Input (V : Type) where
  | returns (v : JsValue V)
  | throws (v : JsValue V)
  | holds (b : Bool)
  | resume (m : ResumeMode) (v : JsValue V)
  deriving DecidableEq, Repr

/-- What can be seen of a run. -/
inductive Event where
  /-- The method `return` of an iterator was looked up. -/
  | lookup (iterator : ℕ) (found : Bool)
  | called (iterator : ℕ) (m : Method)
  | awaited
  | yielded
  | startFinalizer (depth : ℕ)
  | exits (improper : List ℕ)
  | caught (iterators : List ℕ)
  deriving DecidableEq, Repr

structure State (V : Type) where
  inputs : List (Input V)
  trace : List Event
  accumulator : Value V
  registers : ℕ → Value V
  /-- What the function was last resumed with. -/
  resumed : ResumeMode × JsValue V

variable {V : Type}

namespace State

def log (s : State V) (events : List Event) : State V := { s with trace := s.trace ++ events }

def setAccumulator (s : State V) (v : Value V) : State V := { s with accumulator := v }

/-- User code, which leaves its value in the accumulator or throws. -/
def perform (s : State V) : Option (Except (JsValue V) Unit × State V) :=
  match s.inputs with
  | .returns v :: inputs => some (.ok (), { s with inputs, accumulator := .js v })
  | .throws v :: inputs => some (.error v, { s with inputs })
  | _ => none

/-- A question that the world answers. -/
def ask (s : State V) : Option (Except (JsValue V) Bool × State V) :=
  match s.inputs with
  | .holds b :: inputs => some (.ok b, { s with inputs, accumulator := .js (.bool b) })
  | .throws v :: inputs => some (.error v, { s with inputs })
  | _ => none

/-- The function is suspended and resumed. -/
def suspend (s : State V) (event : Event) : Option (Except (JsValue V) Unit × State V) :=
  match s.inputs with
  | .resume m v :: inputs => some (.ok (), { s.log [event] with inputs, resumed := (m, v) })
  | _ => none

/-- Looking up `return`. -/
def lookup (s : State V) (r : ℕ) : Option (Except (JsValue V) Bool × State V) :=
  match s.inputs with
  | .holds b :: inputs => some (.ok b, { s.log [.lookup r b] with inputs })
  | .throws v :: inputs => some (.error v, { s.log [.lookup r false] with inputs })
  | _ => none

/-- Calling what was loaded into the method register of an iterator; it may be no method. -/
def call (s : State V) (r : ℕ) : Option (Except (JsValue V) Unit × State V) :=
  match s.registers r, s.inputs with
  | .method m, _ => (s.log [.called r m]).perform
  | _, .throws v :: inputs => some (.error v, { s with inputs })
  | _, _ => none

/-- How closing an iterator ends when it has gone through, and when it has thrown. The hole in the
accumulator stands for a normal completion, anything else is an exception that goes on. -/
def closed (completion : Value V) (o : Except (JsValue V) Unit × State V) :
    Option (Except (JsValue V) Unit × State V) :=
  match completion with
  | .hole => some o
  | .js v => some (.error v, o.2)
  | _ => none

/-- The instruction `closeiterator`: look `return` up, call it, and look at what it has returned. -/
def closeIterator (s : State V) (r : ℕ) : Option (Except (JsValue V) Unit × State V) :=
  match s.lookup r with
  | some (.ok true, s') => ((s'.log [.called r .return]).perform).bind (closed s.accumulator)
  | some (.ok false, s') => closed s.accumulator (.ok (), s')
  | some (.error v, s') => closed s.accumulator (.error v, s')
  | none => none

end State

def exec (i : Operation) (s : State V) : Option (Except (JsValue V) Unit × State V) :=
  match i with
  | .lda r => some (.ok (), s.setAccumulator (s.registers r))
  | .sta r => some (.ok (), { s with registers := Function.update s.registers r s.accumulator })
  | .ldUndefined => some (.ok (), s.setAccumulator (.js .undefined))
  | .ldHole => some (.ok (), s.setAccumulator .hole)
  | .throw =>
    match s.accumulator with
    | .js v => some (.error v, s)
    | _ => none
  | .rethrow =>
    match s.accumulator with
    | .js v => some (.error v, s)
    | _ => some (.ok (), s)
  | .throwIfNotObject =>
    match s.inputs with
    | .holds true :: inputs => some (.ok (), { s with inputs })
    | .throws v :: inputs => some (.error v, { s with inputs })
    | _ => none
  | .expression _ | .setValue _ | .validateClassDirectReturn | .getIterator _ | .ldValue => s.perform
  | .ldNext => s.perform.map fun (o, s') => (o, s'.setAccumulator (.method .next))
  | .getMethod r =>
    (s.lookup r).map fun
      | (.ok b, s') => (.ok (), s'.setAccumulator (if b then .method .return else .js .undefined))
      | (.error v, s') => (.error v, s')
  | .callThis r => s.call r
  | .closeIterator r => s.closeIterator r
  | .await =>
    match s.inputs with
    | .resume .return _ :: _ => none
    | _ => s.suspend .awaited
  | .yield => s.suspend .yielded
  | .resumeGenerator => some (.ok (), s.setAccumulator (.js s.resumed.2))
  | .getResumeMode => some (.ok (), s.setAccumulator (.mode s.resumed.1))
  | .resolve => some (.ok (), s)
  | .startFinalizer depth => some (.ok (), s.log [.startFinalizer depth])
  | .exits improper => some (.ok (), s.log [.exits improper])
  | .caught iterators => some (.ok (), s.log [.caught iterators])

def Value.isUndefined : Value V → Bool
  | .js .undefined => true
  | _ => false

def Value.isMode (m : ResumeMode) : Value V → Bool
  | .mode m' => m' = m
  | _ => false

/-- A comparison, which leaves its result in the accumulator. -/
def State.answer (s : State V) (b : Bool) : Option (Except (JsValue V) Bool × State V) :=
  some (.ok b, s.setAccumulator (.js (.bool b)))

def test (q : Test) (s : State V) : Option (Except (JsValue V) Bool × State V) :=
  match q with
  | .expression _ | .done => s.ask
  | .isUndefined => s.answer s.accumulator.isUndefined
  | .mode m r => s.answer ((s.registers r).isMode m)

def semantics (V : Type) : Semantics Operation Test (JsValue V) (State V) where
  exec := exec
  test := test
  catching e s := s.setAccumulator (.js e)

@[simp] theorem semantics_exec : (semantics V).exec = exec := rfl

@[simp] theorem semantics_test : (semantics V).test = test := rfl

@[simp] theorem semantics_catching (e : JsValue V) (s : State V) :
    (semantics V).catching e s = s.setAccumulator (.js e) := rfl

end ArkTs2abc.Es2panda.Exits
