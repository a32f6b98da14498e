import ArkTs2abc.Es2panda.Exits.Code
import ArkTs2abc.Process

/-!
# The evaluation of array patterns

An array pattern takes values from an iterator. What user code does is up to a world, which answers
each action and may look at all that has been done before. An iterator is known by the place in the
trace where it was opened.

ECMAScript and the generated code differ in two rules, which are the parameters of the evaluation. The
generated code asks an iterator that is exhausted once more, and it refuses an iterator whose
property `next` is no object before it is asked.

## Main definitions

* `Target`, `Elements` — the patterns.
* `World`, `Action` — what user code is asked to do, and what it answers.
* `Rules.evaluate` — the evaluation of an array pattern.
-/

namespace ArkTs2abc.Es2panda.Destructuring

open StructuredCode Exits

mutual

/-- Object patterns are left to the world. -/
inductive Target where
  | identifier (name : ℕ)
  | member (object property : ℕ)
  | object (pattern : ℕ)
  | array (elements : Elements)

inductive Elements where
  | nil
  | hole (elements : Elements)
  | element (target : Target) (init : Option ℕ) (elements : Elements)
  | rest (target : Target)

end

/-- What user code can observe, or is. Iterators are places in the trace. -/
inductive Action (V : Type) where
  | getIterator (v : JsValue V)
  | getNext (iterator : ℕ)
  | next (method : JsValue V) (iterator : ℕ)
  | getDone (result : JsValue V)
  | getValue (result : JsValue V)
  | getReturn (iterator : ℕ)
  | callReturn (method : JsValue V) (iterator : ℕ)
  | evaluate (e : ℕ)
  | assign (name : ℕ) (v : JsValue V)
  | put (object property v : JsValue V)
  | destructure (pattern : ℕ) (v : JsValue V)
  deriving DecidableEq

structure World (V : Type) where
  /-- The answer to an action, after the actions in the trace. A method that is looked up and is not
  there is `undefined`. -/
  answer : List (Action V) → Action V → Except (JsValue V) (JsValue V)
  isObject : JsValue V → Bool
  toBoolean : JsValue V → Bool
  typeError : JsValue V
  /-- The array with these elements. -/
  array : List (JsValue V) → JsValue V

variable {V : Type}

/-- What an evaluation changes. -/
structure Store (V : Type) where
  trace : List (Action V)
  /-- The field [[Done]] of the iterator records. -/
  done : ℕ → Bool
  /-- One of the two rules has been applied in which ECMAScript and the generated code differ. -/
  differs : Bool

/-- The record of an iterator, but for the field [[Done]]. -/
structure IteratorRecord (V : Type) where
  iterator : ℕ
  next : JsValue V

/-- What a target is evaluated to before there is a value for it. -/
inductive Reference (V : Type) where
  | unresolved
  | member (object property : JsValue V)

structure Rules where
  /-- An iterator that is exhausted is not asked again. -/
  skips : Bool
  /-- An iterator whose `next` is no object is refused at once. -/
  refuses : Bool
  deriving DecidableEq

def ecma : Rules := ⟨true, false⟩

def generated : Rules := ⟨false, true⟩

abbrev Evaluation (V α : Type) := Process (Store V) (JsValue V) α

namespace Store

def setDone (d : Store V) (iterator : ℕ) (b : Bool) : Store V :=
  { d with done := Function.update d.done iterator b }

def log (d : Store V) (a : Action V) : Store V := { d with trace := d.trace ++ [a] }

def note (d : Store V) (b : Bool) : Store V := { d with differs := d.differs || b }

/-- Nothing has been opened, and the rules have not differed. -/
def start (trace : List (Action V)) : Store V := ⟨trace, fun _ => false, false⟩

section

variable (d : Store V)
include d

@[simp] theorem setDone_trace (i : ℕ) (b : Bool) : (d.setDone i b).trace = d.trace := rfl

@[simp] theorem setDone_done_self (i : ℕ) (b : Bool) : (d.setDone i b).done i = b :=
  Function.update_self ..

theorem setDone_done_of_ne {i j : ℕ} (b : Bool) (h : j ≠ i) :
    (d.setDone i b).done j = d.done j :=
  Function.update_of_ne h ..

@[simp] theorem log_trace (a : Action V) : (d.log a).trace = d.trace ++ [a] := rfl

@[simp] theorem log_done (a : Action V) : (d.log a).done = d.done := rfl

@[simp] theorem log_differs (a : Action V) : (d.log a).differs = d.differs := rfl

@[simp] theorem note_trace (b : Bool) : (d.note b).trace = d.trace := rfl

@[simp] theorem note_done (b : Bool) : (d.note b).done = d.done := rfl

@[simp] theorem note_differs (b : Bool) : (d.note b).differs = (d.differs || b) := rfl

@[simp] theorem note_false : d.note false = d := by
  simp [note]

end

end Store

section World

variable (w : World V)

def perform (a : Action V) : Evaluation V (JsValue V) := fun d =>
  match w.answer d.trace a with
  | .ok v => (.value v, d.log a)
  | .error e => (.thrown e, d.log a)

def requireObject (v : JsValue V) : Evaluation V Unit :=
  if w.isObject v then pure () else .throwing w.typeError

def Rules.checkNext (rules : Rules) (next : JsValue V) : Evaluation V Unit :=
  if rules.refuses then requireObject w next else pure ()

/-- GetIterator. -/
def Rules.getIterator (rules : Rules) (v : JsValue V) : Evaluation V (IteratorRecord V) := do
  let d ← .get
  let _ ← perform w (.getIterator v)
  let next ← perform w (.getNext d.trace.length)
  .modify (·.note !w.isObject next)
  rules.checkNext w next
  .modify (·.setDone d.trace.length false)
  pure ⟨d.trace.length, next⟩

/-- What is asked of an iterator in one step: nothing comes if it is exhausted. -/
def ask (r : IteratorRecord V) : Evaluation V (Option (JsValue V)) := do
  let result ← perform w (.next r.next r.iterator)
  requireObject w result
  let done ← perform w (.getDone result)
  .modify (·.setDone r.iterator (w.toBoolean done))
  if w.toBoolean done then pure none
  else
    let v ← perform w (.getValue result)
    pure (some v)

/-- IteratorStepValue: an exception sets [[Done]]. -/
def attempt (r : IteratorRecord V) : Evaluation V (Option (JsValue V)) :=
  (ask w r).handle fun e => do
    .modify (·.setDone r.iterator true)
    .throwing e

/-- A step, unless [[Done]] is set. -/
def Rules.step (rules : Rules) (r : IteratorRecord V) : Evaluation V (Option (JsValue V)) := do
  let d ← .get
  .modify (·.note (d.done r.iterator))
  if rules.skips && d.done r.iterator then pure none else attempt w r

/-- IteratorClose of a normal completion. -/
def close (r : IteratorRecord V) : Evaluation V Unit := do
  let method ← perform w (.getReturn r.iterator)
  match method with
  | .undefined => pure ()
  | method =>
    let result ← perform w (.callReturn method r.iterator)
    requireObject w result

/-- IteratorClose of an exception, which goes on whatever happens. -/
def closeAbrupt (r : IteratorRecord V) (e : JsValue V) : Evaluation V Unit := do
  (close w r).handle fun _ => pure ()
  .throwing e

def reference : Target → Evaluation V (Reference V)
  | .member object property => do
    let o ← perform w (.evaluate object)
    let k ← perform w (.evaluate property)
    pure (.member o k)
  | _ => pure .unresolved

/-- The default value takes the place of `undefined`. -/
def initialized (init : Option ℕ) (v : JsValue V) : Evaluation V (JsValue V) :=
  match init, v with
  | some e, .undefined => perform w (.evaluate e)
  | _, v => pure v

/-- The values that are left, behind those that are there. -/
def Rules.collect (rules : Rules) (r : IteratorRecord V) :
    ℕ → List (JsValue V) → Evaluation V (List (JsValue V))
  | 0, _ => .noFuel
  | fuel + 1, vs => do
    match ← rules.step w r with
    | none => pure vs
    | some v => rules.collect r fuel (vs ++ [v])

/-- The iterator is closed when an exception has come, unless it is exhausted. -/
def closeThrown (r : IteratorRecord V) (e : JsValue V) : Evaluation V Unit := do
  let d ← .get
  if d.done r.iterator then .throwing e else closeAbrupt w r e

/-- It is closed at the end of the pattern, unless it is exhausted. -/
def closeNormal (r : IteratorRecord V) : Evaluation V Unit := do
  let d ← .get
  if d.done r.iterator then pure () else close w r

def closing (r : IteratorRecord V) (elements : Evaluation V Unit) : Evaluation V Unit := do
  elements.handle (closeThrown w r)
  closeNormal w r

mutual

/-- The value goes to a target. -/
def Rules.assign (rules : Rules) (fuel : ℕ) : Target → Reference V → JsValue V → Evaluation V Unit
  | .identifier name, _, v => do let _ ← perform w (.assign name v)
  | .member _ _, .member o k, v => do let _ ← perform w (.put o k v)
  | .member _ _, .unresolved, _ => pure ()
  | .object pattern, _, v => do let _ ← perform w (.destructure pattern v)
  | .array elements, _, v => do
    let r ← rules.getIterator w v
    closing w r (rules.assignElements fuel r elements)

def Rules.assignElements (rules : Rules) (fuel : ℕ) (r : IteratorRecord V) :
    Elements → Evaluation V Unit
  | .nil => pure ()
  | .hole elements => do
    let _ ← rules.step w r
    rules.assignElements fuel r elements
  | .element target init elements => do
    let lref ← reference w target
    let v ← rules.step w r
    let v ← initialized w init (v.getD .undefined)
    rules.assign fuel target lref v
    rules.assignElements fuel r elements
  | .rest target => do
    let lref ← reference w target
    let vs ← rules.collect w r fuel []
    rules.assign fuel target lref (w.array vs)

end

/-- The evaluation of an array pattern on a value. -/
def Rules.evaluate (rules : Rules) (fuel : ℕ) (elements : Elements) (v : JsValue V) :
    Evaluation V Unit := do
  let r ← rules.getIterator w v
  closing w r (rules.assignElements w fuel r elements)

end World

end ArkTs2abc.Es2panda.Destructuring
