import ArkTs2abc.Process
import Mathlib.Data.Int.Notation

/-!
# Values and conversions

The values of ECMAScript and the conversions between them. Objects are converted by user code, which answers
an event by all that has happened so far; what happens to primitives is a parameter where it takes numbers.

## Main definitions

* `JsValue`, `Primitive` — values.
* `Event`, `World` — what user code is asked to do, and its answers.
* `toPrimitive`, `toNumeric`, `addition` — as in ECMAScript.

## Main results

* `perform_bind_ok`, `perform_bind_error` — what follows an event.
* `Grows.bind_prefix` — what has happened stays in front of what happens then.
-/

namespace Conversions

open StructuredCode

/-- The units of a string. -/
abbrev Units := List UInt16

/-- Numbers are given by their bits, symbols and objects by what they are. -/
inductive Primitive where
  | undefined
  | null
  | boolean (b : Bool)
  | number (bits : BitVec 64)
  | bigint (i : ℤ)
  | string (units : Units)
  | symbol (id : ℕ)
  deriving DecidableEq, Repr

inductive JsValue where
  | primitive (p : Primitive)
  | object (id : ℕ)
  deriving DecidableEq, Repr

inductive Hint where
  | default
  | number
  | string
  deriving DecidableEq, Repr

/-- What user code is asked to do: parts `P` of a program are evaluated, objects are converted, and
references `R` are read and written. -/
inductive Event (P R : Type) where
  | evaluate (part : P)
  | toPrimitive (hint : Hint) (object : ℕ)
  | getValue (reference : R)
  | putValue (reference : R) (value : JsValue)
  deriving DecidableEq, Repr

/-- What the language does to primitives. -/
structure Language where
  /-- The text of a primitive that is neither a string nor a symbol. -/
  text : Primitive → Units
  /-- The number that a primitive is converted to, if it is no symbol and no big integer. -/
  number : Primitive → BitVec 64
  increment : BitVec 64 → BitVec 64
  decrement : BitVec 64 → BitVec 64
  /-- The sum of two primitives that are no strings. -/
  sum : Primitive → Primitive → Except JsValue Primitive
  typeError : JsValue
  referenceError : JsValue

/-- The answers of user code, by all that has happened; the last event is the one to be answered. -/
structure World (P R : Type) where
  answer : List (Event P R) → Except JsValue JsValue
  primitive : List (Event P R) → Except JsValue Primitive

variable {P R : Type}

/-- An evaluation is a process on what has happened. -/
abbrev Evaluation (P R α : Type) := Process (List (Event P R)) JsValue α

/-- Something pure that may throw. -/
def completion {α : Type} : Except JsValue α → Evaluation P R α
  | .ok a => pure a
  | .error e => Process.throwing e

/-- An event and its answer. -/
def perform {α : Type} (answer : List (Event P R) → Except JsValue α) (e : Event P R) : Evaluation P R α :=
  fun h => completion (answer (h ++ [e])) (h ++ [e])

def World.act (w : World P R) (e : Event P R) : Evaluation P R JsValue := perform w.answer e

/-! ## Conversions -/

def World.toPrimitive (w : World P R) (hint : Hint) : JsValue → Evaluation P R Primitive
  | .primitive p => pure p
  | .object id => perform w.primitive (.toPrimitive hint id)

namespace Language

variable (l : Language)

/-- `ToString` of a primitive. -/
def stringOf : Primitive → Except JsValue Units
  | .string units => .ok units
  | .symbol _ => .error l.typeError
  | p => .ok (l.text p)

theorem stringOf_cases (p : Primitive) :
    (∃ id, p = .symbol id) ∨ (∀ id, p ≠ .symbol id) ∧ ∃ s, l.stringOf p = .ok s := by
  cases p with
  | symbol id => exact .inl ⟨id, rfl⟩
  | undefined | null | boolean b | number bits | bigint i | string units =>
    exact .inr ⟨by simp, _, rfl⟩

/-- `ToNumeric` of a primitive. -/
def numericOf : Primitive → Except JsValue Primitive
  | .number bits => .ok (.number bits)
  | .bigint i => .ok (.bigint i)
  | .symbol _ => .error l.typeError
  | p => .ok (.number (l.number p))

/-- `ToPropertyKey` of a primitive: a symbol is a key, anything else its text. -/
def propertyKeyOf : Primitive → Primitive
  | .string units => .string units
  | .symbol id => .symbol id
  | p => .string (l.text p)

variable (w : World P R)

def toNumeric (v : JsValue) : Evaluation P R Primitive := do
  let p ← w.toPrimitive .number v
  completion (l.numericOf p)

def toPropertyKey (v : JsValue) : Evaluation P R Primitive := do
  let p ← w.toPrimitive .string v
  pure (l.propertyKeyOf p)

/-- The sum of two primitives. -/
def sumOf : Primitive → Primitive → Except JsValue Primitive
  | .string a, q => (l.stringOf q).map fun b => .string (a ++ b)
  | p, .string b => (l.stringOf p).map fun a => .string (a ++ b)
  | p, q => l.sum p q

/-- The addition operator. -/
def addition (lhs rhs : JsValue) : Evaluation P R JsValue := do
  let p ← w.toPrimitive .default lhs
  let q ← w.toPrimitive .default rhs
  let sum ← completion (l.sumOf p q)
  pure (.primitive sum)

end Language

/-! ## Runs -/

@[simp] theorem completion_ok {α : Type} (a : α) (h : List (Event P R)) :
    (completion (.ok a) : Evaluation P R α) h = (.value a, h) := rfl

@[simp] theorem completion_error {α : Type} (e : JsValue) (h : List (Event P R)) :
    (completion (.error e) : Evaluation P R α) h = (.thrown e, h) := rfl

theorem perform_bind_ok {α β : Type} {answer : List (Event P R) → Except JsValue α} {e : Event P R}
    {h : List (Event P R)} {a : α} (ha : answer (h ++ [e]) = .ok a) (f : α → Evaluation P R β) :
    (perform answer e >>= f) h = f a (h ++ [e]) := by
  refine Process.bind_value ?_ f
  rw [perform, ha, completion_ok]

theorem perform_bind_error {α β : Type} {answer : List (Event P R) → Except JsValue α} {e : Event P R}
    {h : List (Event P R)} {x : JsValue} (hx : answer (h ++ [e]) = .error x)
    (f : α → Evaluation P R β) : (perform answer e >>= f) h = (.thrown x, h ++ [e]) := by
  refine Process.bind_thrown ?_ f
  rw [perform, hx, completion_error]

/-! ## What has happened -/

/-- What has happened stays. -/
def Grows {α : Type} (m : Evaluation P R α) : Prop := ∀ h, h <+: (m h).2

namespace Grows

variable {α β : Type}

theorem pure (a : α) : Grows (Pure.pure a : Evaluation P R α) := fun h => List.prefix_refl h

theorem throwing (e : JsValue) : Grows (Process.throwing e : Evaluation P R α) := fun h => List.prefix_refl h

theorem completion (r : Except JsValue α) : Grows (completion r : Evaluation P R α) := by
  cases r with
  | ok a => exact pure a
  | error e => exact throwing e

theorem perform (answer : List (Event P R) → Except JsValue α) (e : Event P R) : Grows (perform answer e) :=
  fun h => (List.prefix_append h [e]).trans (completion (answer (h ++ [e])) (h ++ [e]))

theorem bind {m : Evaluation P R α} {f : α → Evaluation P R β} (hm : Grows m) (hf : ∀ a, Grows (f a)) :
    Grows (m >>= f) := fun h => Process.bind_induction (hm h) fun a h' hh' => hh'.trans (hf a h')

theorem toPrimitive (w : World P R) (hint : Hint) (v : JsValue) : Grows (w.toPrimitive hint v) := by
  cases v with
  | primitive p => exact pure p
  | object id => exact perform w.primitive _

theorem toNumeric (l : Language) (w : World P R) (v : JsValue) : Grows (l.toNumeric w v) :=
  (toPrimitive w .number v).bind fun _ => completion _

theorem toPropertyKey (l : Language) (w : World P R) (v : JsValue) : Grows (l.toPropertyKey w v) :=
  (toPrimitive w .string v).bind fun _ => pure _

theorem bind_prefix {m : Evaluation P R α} {f : α → Evaluation P R β} {h h' : List (Event P R)}
    (hm : (m h).2 = h') (hf : ∀ a, Grows (f a)) : h' <+: ((m >>= f) h).2 :=
  Process.bind_induction (hm ▸ List.prefix_refl h') fun a h'' hh'' => hh''.trans (hf a h'')

end Grows

theorem ne_of_prefix {h l l' : List (Event P R)} {e e' : Event P R} (hl : h ++ [e] <+: l)
    (hl' : h ++ [e'] <+: l') (he : e ≠ e') : l ≠ l' := by
  rintro rfl
  have hprefix := List.prefix_of_prefix_length_le hl hl' (by simp)
  have heq := hprefix.eq_of_length (by simp)
  simp [he] at heq

end Conversions
