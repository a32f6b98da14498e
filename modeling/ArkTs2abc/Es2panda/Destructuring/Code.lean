import ArkTs2abc.Es2panda.Destructuring.Evaluation

/-!
# The code of array patterns

The code for an array pattern and what its instructions do. The first register of an iterator is for
its method `next`; the iterator, the result of `next`, the flag `done` and the last value, or the
exception, follow. The structure of the code is kept.

## Main definitions

* `genArray` — the code of an array pattern.
* `State`, `semantics` — what it does.
-/

namespace ArkTs2abc.Es2panda.Destructuring

open StructuredCode Exits

inductive Operation where
  | lda (r : ℕ)
  | sta (r : ℕ)
  | ldUndefined
  | ldHole
  | ldBool (b : Bool)
  | ldInt (n : ℕ)
  /-- The accumulator is added to a register. -/
  | add (r : ℕ)
  | throw
  | throwIfNotObject
  | toBoolean
  | getIterator
  /-- `LoadObjByName` of the properties `next`, `done` and `value`. -/
  | ldNext (r : ℕ)
  | ldDone (r : ℕ)
  | ldValue (r : ℕ)
  /-- `CallThis` of the method in the register, on the next register. -/
  | callThis (r : ℕ)
  | closeIterator (r : ℕ)
  | evaluate (e : ℕ)
  | storeVar (name : ℕ)
  | storeObj (object property : ℕ)
  /-- The code of an object pattern. -/
  | genObject (pattern r : ℕ)
  | createEmptyArray
  | storeObjByValue (object property : ℕ)
  deriving DecidableEq, Repr

inductive Test where
  | isTrue
  | isUndefined
  deriving DecidableEq, Repr

/-- The labels are those behind the loops of rest elements. -/
abbrev Code := StructuredCode.Code Operation Test Unit

/-! ## Compiling -/

/-- Operations in front of other code. -/
def emit (is : List Operation) (rest : Code) : Code := is.foldr (fun i code => .seq (.op i) code) rest

section Iterator

variable (b : ℕ)

/-- The registers of the iterator at `b`. -/
def methodReg : ℕ := b
def iteratorReg : ℕ := b + 1
def nextResult : ℕ := b + 2
def doneReg : ℕ := b + 3
def resultReg : ℕ := b + 4

/-- The constructors of `Iterator` and `DestructuringIterator`. -/
def destructuringIterator : List Operation :=
  [.getIterator, .sta (iteratorReg b), .ldNext (iteratorReg b), .sta (methodReg b), .throwIfNotObject,
    .ldBool false, .sta (doneReg b), .ldUndefined, .sta (resultReg b)]

def next : List Operation := [.callThis (methodReg b), .throwIfNotObject, .sta (nextResult b)]

def complete : List Operation := [.ldDone (nextResult b), .toBoolean]

def value : List Operation := [.ldValue (nextResult b)]

def step (onIterDone : Code) : Code :=
  .tryRange
    (emit (next b ++ complete b ++ [.sta (doneReg b)])
      (.test .isTrue
        (emit [.ldBool true, .sta (doneReg b), .ldUndefined] onIterDone)
        (emit (value b ++ [.sta (resultReg b)]) .skip)))
    (emit [.sta (resultReg b), .ldBool true, .sta (doneReg b), .lda (resultReg b), .throw] .skip)

def closeCode (abruptCompletion : Bool) : List Operation :=
  (if abruptCompletion then [] else [.ldHole]) ++ [.closeIterator (iteratorReg b)]

end Iterator

/-- `OnIterDone` of `DestructuringIterator`. -/
def onIterDone : Code := .op .ldUndefined

/-- `OnIterDone` of `DestructuringRestIterator`. -/
def onRestDone : Code := .branch ()

/-- `LReference::CreateLRef`: the object and the property go to registers. -/
def createLRef (r : ℕ) : Target → Code
  | .member object property => emit [.evaluate object, .sta r, .evaluate property, .sta (r + 1)] .skip
  | _ => .skip

/-- The value in the accumulator, or the default value. -/
def initializer (b : ℕ) : Option ℕ → Code
  | none => .skip
  | some e => .test .isUndefined (.op (.evaluate e)) (.op (.lda (resultReg b)))

/-- The loop of `GenRestElement`, with the array at `r` and the index behind it. -/
def restLoop (b r : ℕ) : Code :=
  .label (.loop (.seq (step b onRestDone)
    (emit [.storeObjByValue r (r + 1), .ldInt 1, .add (r + 1), .sta (r + 1)] .skip))) ()

/-- The handler of `GenArray`. -/
def catchCode (b : ℕ) : Code :=
  emit [.sta (resultReg b), .lda (doneReg b)]
    (.seq (.test .isTrue .skip (emit (.lda (resultReg b) :: closeCode b true) .skip))
      (emit [.lda (resultReg b), .throw] .skip))

/-- What is emitted around the elements of `GenArray`. -/
def genArrayAround (b : ℕ) (array : Elements) (elements : Code) : Code :=
  emit (destructuringIterator b)
    (match array with
    | .nil => emit (closeCode b false) .skip
    | _ => .seq (.tryRange elements (catchCode b))
      (emit [.lda (doneReg b)] (.test .isTrue .skip (emit (closeCode b false) .skip))))

mutual

/-- `LReference::SetValue` and `Destructuring::Compile`; the registers from `r` on are free, or hold
the reference. -/
def setValue (r : ℕ) : Target → Code
  | .identifier name => .op (.storeVar name)
  | .member _ _ => .op (.storeObj r (r + 1))
  | .object pattern => emit [.sta r, .genObject pattern r, .lda r] .skip
  | .array elements =>
    emit [.sta r]
      (.seq (genArrayAround (r + 1) elements (genElements (r + 1) elements)) (.op (.lda r)))

/-- The loop of `GenArray` over the elements. -/
def genElements (b : ℕ) : Elements → Code
  | .nil => .skip
  | .hole elements => .seq (step b onIterDone) (genElements b elements)
  | .element target init elements =>
    .seq (createLRef (b + 5) target)
      (.seq (step b onIterDone)
        (.seq (initializer b init) (.seq (setValue (b + 5) target) (genElements b elements))))
  | .rest target =>
    .seq (createLRef (b + 7) target)
      (emit [.createEmptyArray, .sta (b + 5), .ldInt 0, .sta (b + 6)]
        (.seq (restLoop b (b + 5)) (.seq (.op (.lda (b + 5))) (setValue (b + 7) target))))

end

def genArray (b : ℕ) (array : Elements) : Code := genArrayAround b array (genElements b array)

/-! ## Running -/

/-- What a register holds. -/
inductive Value (V : Type) where
  | js (v : JsValue V)
  | hole
  | iterator (i : ℕ)
  | array (elements : List (JsValue V))
  | int (n : ℕ)
  deriving DecidableEq

structure State (V : Type) where
  trace : List (Action V)
  accumulator : Value V
  registers : ℕ → Value V

variable {V : Type} (w : World V)

def Value.toJs : Value V → Option (JsValue V)
  | js v => some v
  | array elements => some (w.array elements)
  | _ => none

namespace State

def setAccumulator (s : State V) (v : Value V) : State V := { s with accumulator := v }

def setRegister (s : State V) (r : ℕ) (v : Value V) : State V :=
  { s with registers := Function.update s.registers r v }

def log (s : State V) (a : Action V) : State V := { s with trace := s.trace ++ [a] }

/-- The outcome of an instruction. -/
abbrev Outcome (V : Type) := Option (Except (JsValue V) Unit × State V)

/-- User code, which leaves its value in the accumulator or throws. -/
def perform (s : State V) (a : Action V) : Outcome V :=
  match w.answer s.trace a with
  | .ok v => some (.ok (), (s.log a).setAccumulator (.js v))
  | .error e => some (.error e, s.log a)

def requireObject (s : State V) : Outcome V :=
  match s.accumulator with
  | .js v => if w.isObject v then some (.ok (), s) else some (.error w.typeError, s)
  | _ => none

/-- What follows after an instruction that does not throw. -/
def andThen (o : Outcome V) (f : State V → Outcome V) : Outcome V :=
  match o with
  | some (.ok (), s) => f s
  | o => o

/-- Look `return` up, call it, and look at what it has returned. -/
def callReturn (s : State V) (i : ℕ) : Outcome V :=
  andThen (s.perform w (.getReturn i)) fun s =>
    match s.accumulator with
    | .js .undefined => some (.ok (), s)
    | .js method => andThen (s.perform w (.callReturn method i)) (requireObject w)
    | _ => none

/-- The instruction `closeiterator`. The hole in the accumulator stands for a normal completion,
anything else is an exception that goes on. -/
def closeIterator (s : State V) (i : ℕ) : Outcome V :=
  match s.accumulator with
  | .hole => s.callReturn w i
  | .js e => (s.callReturn w i).map fun o => (.error e, o.2)
  | _ => none

end State

def exec (i : Operation) (s : State V) : State.Outcome V :=
  match i with
  | .lda r => some (.ok (), s.setAccumulator (s.registers r))
  | .sta r => some (.ok (), s.setRegister r s.accumulator)
  | .ldUndefined => some (.ok (), s.setAccumulator (.js .undefined))
  | .ldHole => some (.ok (), s.setAccumulator .hole)
  | .ldBool b => some (.ok (), s.setAccumulator (.js (.bool b)))
  | .ldInt n => some (.ok (), s.setAccumulator (.int n))
  | .add r =>
    match s.registers r, s.accumulator with
    | .int m, .int n => some (.ok (), s.setAccumulator (.int (m + n)))
    | _, _ => none
  | .throw =>
    match s.accumulator with
    | .js v => some (.error v, s)
    | _ => none
  | .throwIfNotObject => s.requireObject w
  | .toBoolean =>
    match s.accumulator with
    | .js v => some (.ok (), s.setAccumulator (.js (.bool (w.toBoolean v))))
    | _ => none
  | .getIterator =>
    match s.accumulator.toJs w with
    | some v => State.andThen (s.perform w (.getIterator v)) fun s' =>
        some (.ok (), s'.setAccumulator (.iterator s.trace.length))
    | none => none
  | .ldNext r =>
    match s.registers r with
    | .iterator i => s.perform w (.getNext i)
    | _ => none
  | .ldDone r =>
    match s.registers r with
    | .js v => s.perform w (.getDone v)
    | _ => none
  | .ldValue r =>
    match s.registers r with
    | .js v => s.perform w (.getValue v)
    | _ => none
  | .callThis r =>
    match s.registers r, s.registers (r + 1) with
    | .js method, .iterator i => s.perform w (.next method i)
    | _, _ => none
  | .closeIterator r =>
    match s.registers r with
    | .iterator i => s.closeIterator w i
    | _ => none
  | .evaluate e => s.perform w (.evaluate e)
  | .storeVar name =>
    match s.accumulator.toJs w with
    | some v => s.perform w (.assign name v)
    | none => none
  | .storeObj object property =>
    match s.registers object, s.registers property, s.accumulator.toJs w with
    | .js o, .js k, some v => s.perform w (.put o k v)
    | _, _, _ => none
  | .genObject pattern r =>
    match (s.registers r).toJs w with
    | some v => s.perform w (.destructure pattern v)
    | none => none
  | .createEmptyArray => some (.ok (), s.setAccumulator (.array []))
  | .storeObjByValue object property =>
    match s.registers object, s.registers property, s.accumulator with
    | .array elements, .int n, .js v =>
      if n = elements.length then some (.ok (), s.setRegister object (.array (elements ++ [v]))) else none
    | _, _, _ => none

def Value.isTrue : Value V → Bool
  | .js (.bool b) => b
  | _ => false

def Value.isUndefined : Value V → Bool
  | .js .undefined => true
  | _ => false

def test (q : Test) (s : State V) : Option (Except (JsValue V) Bool × State V) :=
  match q with
  | .isTrue => some (.ok s.accumulator.isTrue, s)
  | .isUndefined => some (.ok s.accumulator.isUndefined, s)

def semantics : Semantics Operation Test (JsValue V) (State V) where
  exec := exec w
  test := test
  catching e s := s.setAccumulator (.js e)

end ArkTs2abc.Es2panda.Destructuring
