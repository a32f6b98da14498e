import Mathlib.Data.List.Basic
import Mathlib.Data.List.Infix
import Mathlib.Data.List.TakeWhile
import Mathlib.Data.Nat.Notation

/-!
# Array literals

`CreateArray` collects the constants at the beginning into a literal buffer. Up to the first spread
element the others are stored by their index, and from there on by an index that is kept in a
register. No code is emitted for a hole in front of the first spread; behind a spread, the register
gets the length of the array.

Subexpressions are opaque. That they leave the registers of the literal alone is the discipline of
`RegScope`.

## Main definitions

* `createArray` — the emitted code.
* `ArraySem.arrayLiteral` — ECMAScript's evaluation.
* `ArraySem.pieces` — what the elements evaluate to.

## Main results

* `ArraySem.run_createArray_iff` — the two agree unless a spread without values is behind a hole.
-/

namespace ArkTs2abc.Es2panda

/-- An array: for each index below its length a value or a hole. -/
abbrev JsArray (V : Type) := List (Option V)

namespace JsArray

variable {V : Type}

def defineOwn (a : JsArray V) (i : ℕ) (v : V) : JsArray V :=
  if i < a.length then a.set i (some v) else a ++ List.replicate (i - a.length) none ++ [some v]

def defineAll (a : JsArray V) : ℕ → List V → JsArray V
  | _, [] => a
  | i, v :: vs => (a.defineOwn i v).defineAll (i + 1) vs

def setLength (a : JsArray V) (n : ℕ) : JsArray V :=
  if n ≤ a.length then a.take n else a ++ List.replicate (n - a.length) none

end JsArray

/-- The elements of an array literal. -/
inductive Element (E V : Type) where
  /-- `IsConstantExpr`: a number, a string, a boolean or `null`. -/
  | constant (v : V)
  | expression (e : E)
  | omitted
  | spread (argument : E)

namespace Element

variable {E V : Type}

def isOmittedExpression : Element E V → Bool
  | omitted => true
  | _ => false

def isSpreadElement : Element E V → Bool
  | spread _ => true
  | _ => false

/-- The constants at the beginning. -/
def constants : List (Element E V) → List V
  | constant v :: es => v :: constants es
  | _ => []

end Element

/-- The register of the array, and the one of the index. -/
inductive ArrayReg where
  | obj | idx
  deriving DecidableEq, Repr

inductive ArrayInsn (E V : Type) where
  | createEmptyArray
  | createArrayWithBuffer (buf : List V)
  | loadAccumulatorInt (n : ℕ)
  | loadAccumulator (r : ArrayReg)
  | storeAccumulator (r : ArrayReg)
  /-- What a subexpression is compiled to. -/
  | compile (e : E)
  /-- What a constant is compiled to. -/
  | constant (v : V)
  | stOwnByIndex (i : ℕ)
  | stOwnByValue
  | storeArraySpread
  | loadLength
  | storeLength
  | inc

section Emission

variable {E V : Type}

open ArrayInsn

/-- `elem->Compile(this)` for an element that is there. -/
def compileElement : Element E V → List (ArrayInsn E V)
  | .constant v => [constant v]
  | .expression e => [compile e]
  | _ => []

/-- The loop up to the first spread element. -/
def staticLoop : ℕ → List (Element E V) → List (ArrayInsn E V)
  | _, [] => []
  | i, .omitted :: es => staticLoop (i + 1) es
  | i, elem :: es => compileElement elem ++ stOwnByIndex i :: staticLoop (i + 1) es

/-- The loop from there on. -/
def spreadLoop : List (Element E V) → List (ArrayInsn E V)
  | [] => []
  | .spread argument :: es =>
    [compile argument, storeArraySpread, loadLength, storeAccumulator .idx] ++ spreadLoop es
  | .omitted :: es => [inc, storeAccumulator .idx] ++ spreadLoop es
  | elem :: es =>
    compileElement elem ++ [stOwnByValue, inc, storeAccumulator .idx] ++ spreadLoop es

/-- `CreateArray`. -/
def createArray (elements : List (Element E V)) : List (ArrayInsn E V) :=
  let buf := Element.constants elements
  let rest := elements.drop buf.length
  let beforeSpread := rest.takeWhile (!·.isSpreadElement)
  let fromSpread := rest.dropWhile (!·.isSpreadElement)
  let i := buf.length + beforeSpread.length
  let hasSpread := !fromSpread.isEmpty
  (if buf.isEmpty then createEmptyArray else createArrayWithBuffer buf) :: storeAccumulator .obj ::
    if rest.isEmpty then []
    else
      staticLoop buf.length beforeSpread ++
      (if hasSpread then [loadAccumulatorInt i, storeAccumulator .idx] else []) ++
      spreadLoop fromSpread ++
      -- an omitted element at the end
      (if elements.getLast?.any (·.isOmittedExpression) then
        (if hasSpread then [] else [loadAccumulatorInt i]) ++ [storeLength]
      else []) ++
      [loadAccumulator .obj]

end Emission

/-- What is in the accumulator or in a register: a value of the program, the array, or a number. -/
inductive ArrayVal (V : Type) where
  | value (v : V)
  | array
  | int (n : ℕ)
  | unset

/-- Why the code stops: an exception, or an instruction that makes no sense there. -/
inductive ArrayStop (ε : Type) where
  | thrown (e : ε)
  | stuck

/-- The registers, what is in the array, and the state of the program. -/
structure ArrayMachine (V σ : Type) where
  acc : ArrayVal V := .unset
  regs : ArrayReg → ArrayVal V := fun _ => .unset
  array : JsArray V := []
  state : σ

/-- The meaning of the subexpressions: their evaluation, and the iteration over a value. -/
structure ArraySem (E V ε σ : Type) where
  eval : E → σ → Except ε (V × σ)
  iterate : V → σ → Except ε (List V × σ)

/-- What an element evaluates to. -/
inductive Piece (V : Type) where
  | value (v : V)
  | hole
  | spread (vs : List V)
  deriving DecidableEq, Repr

namespace ArraySem

variable {E V ε σ : Type} (sem : ArraySem E V ε σ)

/-- An exception of the program stops the code. -/
def thrown {α : Type} : Except ε α → Except (ArrayStop ε) α
  | .ok a => .ok a
  | .error e => .error (.thrown e)

/-- `ecma.starrayspread` stores the values from the index on and yields the next one. -/
def exec (m : ArrayMachine V σ) : ArrayInsn E V → Except (ArrayStop ε) (ArrayMachine V σ)
  | .createEmptyArray => pure { m with acc := .array, array := [] }
  | .createArrayWithBuffer buf => pure { m with acc := .array, array := buf.map some }
  | .loadAccumulatorInt n => pure { m with acc := .int n }
  | .loadAccumulator r => pure { m with acc := m.regs r }
  | .storeAccumulator r =>
    pure { m with regs := fun r' => if r' = r then m.acc else m.regs r' }
  | .compile e => do
    let (v, state) ← thrown (sem.eval e m.state)
    pure { m with acc := .value v, state }
  | .constant v => pure { m with acc := .value v }
  | .stOwnByIndex i => match m.regs .obj, m.acc with
    | .array, .value v => pure { m with array := m.array.defineOwn i v }
    | _, _ => .error .stuck
  | .stOwnByValue => match m.regs .obj, m.regs .idx, m.acc with
    | .array, .int i, .value v => pure { m with array := m.array.defineOwn i v }
    | _, _, _ => .error .stuck
  | .storeArraySpread => match m.regs .obj, m.regs .idx, m.acc with
    | .array, .int i, .value v => do
      let (vs, state) ← thrown (sem.iterate v m.state)
      pure { m with acc := .int (i + vs.length), array := m.array.defineAll i vs, state }
    | _, _, _ => .error .stuck
  | .loadLength => match m.regs .obj with
    | .array => pure { m with acc := .int m.array.length }
    | _ => .error .stuck
  | .storeLength => match m.regs .obj, m.acc with
    | .array, .int n => pure { m with array := m.array.setLength n }
    | _, _ => .error .stuck
  | .inc => match m.regs .idx with
    | .int n => pure { m with acc := .int (n + 1) }
    | _ => .error .stuck

def run (code : List (ArrayInsn E V)) (m : ArrayMachine V σ) :
    Except (ArrayStop ε) (ArrayMachine V σ) :=
  code.foldlM sem.exec m

/-- The array that the accumulator refers to in the end. -/
def result (m : ArrayMachine V σ) : Except (ArrayStop ε) (JsArray V × σ) :=
  match m.acc with
  | .array => .ok (m.array, m.state)
  | _ => .error .stuck

/-- ECMAScript's ArrayAccumulation, from an index on. -/
def arrayAccumulation : List (Element E V) → JsArray V → ℕ → σ → Except ε (JsArray V × σ)
  | [], array, _, s => pure (array, s)
  | .omitted :: es, array, nextIndex, s =>
    arrayAccumulation es (array.setLength (nextIndex + 1)) (nextIndex + 1) s
  | .constant v :: es, array, nextIndex, s =>
    arrayAccumulation es (array.defineOwn nextIndex v) (nextIndex + 1) s
  | .expression e :: es, array, nextIndex, s => do
    let (v, s) ← sem.eval e s
    arrayAccumulation es (array.defineOwn nextIndex v) (nextIndex + 1) s
  | .spread argument :: es, array, nextIndex, s => do
    let (v, s) ← sem.eval argument s
    let (vs, s) ← sem.iterate v s
    arrayAccumulation es (array.defineAll nextIndex vs) (nextIndex + vs.length) s

def arrayLiteral (elements : List (Element E V)) (s : σ) : Except ε (JsArray V × σ) :=
  sem.arrayAccumulation elements [] 0 s

/-- What one element evaluates to. -/
def piece : Element E V → σ → Except ε (Piece V × σ)
  | .omitted, s => pure (.hole, s)
  | .constant v, s => pure (.value v, s)
  | .expression e, s => do
    let (v, s) ← sem.eval e s
    pure (.value v, s)
  | .spread argument, s => do
    let (v, s) ← sem.eval argument s
    let (vs, s) ← sem.iterate v s
    pure (.spread vs, s)

/-- What the elements evaluate to, from left to right. -/
def pieces : List (Element E V) → σ → Except ε (List (Piece V) × σ)
  | [], s => pure ([], s)
  | elem :: es, s => do
    let (p, s) ← sem.piece elem s
    let (ps, s) ← pieces es s
    pure (p :: ps, s)

end ArraySem

/-! ### What is done with the pieces -/

namespace Piece

variable {V : Type}

/-- The array and the next index, after ECMAScript. -/
def accumulate (x : JsArray V × ℕ) : Piece V → JsArray V × ℕ
  | value v => (x.1.defineOwn x.2 v, x.2 + 1)
  | hole => (x.1.setLength (x.2 + 1), x.2 + 1)
  | spread vs => (x.1.defineAll x.2 vs, x.2 + vs.length)

/-- The array and the index register, by the code. -/
def store (x : JsArray V × ℕ) : Piece V → JsArray V × ℕ
  | value v => (x.1.defineOwn x.2 v, x.2 + 1)
  | hole => (x.1, x.2 + 1)
  | spread vs => (x.1.defineAll x.2 vs, (x.1.defineAll x.2 vs).length)

def isHole : Piece V → Bool
  | hole => true
  | _ => false

/-- The array in the end, by the code. -/
def storeAll (ps : List (Piece V)) : JsArray V :=
  let (array, n) := ps.foldl store ([], 0)
  if ps.getLast?.any isHole then array.setLength n else array

end Piece

namespace ArraySem

variable {E V ε σ : Type} (sem : ArraySem E V ε σ)

theorem arrayAccumulation_eq (es : List (Element E V)) (array : JsArray V) (n : ℕ) (s : σ) :
    sem.arrayAccumulation es array n s =
      (fun x => ((x.1.foldl Piece.accumulate (array, n)).1, x.2)) <$> sem.pieces es s := by
  induction es generalizing array n s with
  | nil => rfl
  | cons elem es ih =>
    cases elem <;> simp [arrayAccumulation, pieces, piece, ih, Piece.accumulate]

theorem pieces_append (es es' : List (Element E V)) (s : σ) :
    sem.pieces (es ++ es') s =
      sem.pieces es s >>= fun x => (fun y => (x.1 ++ y.1, y.2)) <$> sem.pieces es' x.2 := by
  induction es generalizing s with
  | nil => simp [pieces]
  | cons elem es ih => simp [pieces, ih]

theorem exists_of_bind {α β : Type} {x : Except ε α} {f : α → Except ε β} {b : β}
    (h : x >>= f = .ok b) : ∃ a, x = .ok a ∧ f a = .ok b := by
  cases x with
  | error err => cases h
  | ok a => exact ⟨a, rfl, h⟩

variable {es : List (Element E V)}

theorem map_isHole {x : List (Piece V) × σ} {s : σ} (h : sem.pieces es s = .ok x) :
    x.1.map Piece.isHole = es.map Element.isOmittedExpression := by
  induction es generalizing s x with
  | nil =>
    cases h
    rfl
  | cons elem es ih =>
    obtain ⟨⟨p, s₁⟩, hp, h⟩ := exists_of_bind h
    obtain ⟨⟨ps, s₂⟩, hps, h⟩ := exists_of_bind h
    cases h
    have hhole : p.isHole = elem.isOmittedExpression := by
      cases elem with
      | omitted | constant v =>
        cases hp
        rfl
      | expression e =>
        obtain ⟨y, -, hp⟩ := exists_of_bind hp
        cases hp
        rfl
      | spread argument =>
        obtain ⟨y, -, hp⟩ := exists_of_bind hp
        obtain ⟨z, -, hp⟩ := exists_of_bind hp
        cases hp
        rfl
    rw [List.map_cons, List.map_cons, hhole, ih hps]

/-! ### Running the code -/

@[simp] theorem thrown_pure {α : Type} (a : α) : thrown (pure a : Except ε α) = pure a := rfl

@[simp] theorem thrown_bind {α β : Type} (x : Except ε α) (f : α → Except ε β) :
    thrown (x >>= f) = thrown x >>= fun a => thrown (f a) := by
  cases x <;> rfl

@[simp] theorem thrown_map {α β : Type} (x : Except ε α) (f : α → β) :
    thrown (f <$> x) = f <$> thrown x := by
  cases x <;> rfl

theorem run_cons (i : ArrayInsn E V) (code : List (ArrayInsn E V)) (m : ArrayMachine V σ) :
    sem.run (i :: code) m = sem.exec m i >>= sem.run code := by
  rw [run, List.foldlM_cons]
  rfl

theorem run_append (code code' : List (ArrayInsn E V)) (m : ArrayMachine V σ) :
    sem.run (code ++ code') m = sem.run code m >>= sem.run code' := by
  rw [run, List.foldlM_append]
  rfl

/-- Code that does not read the accumulator before it is set. -/
def IgnoresAcc (code : List (ArrayInsn E V)) : Prop :=
  ∀ (acc acc' : ArrayVal V) (regs : ArrayReg → ArrayVal V) (array : JsArray V) (state : σ),
    sem.run code ⟨acc, regs, array, state⟩ = sem.run code ⟨acc', regs, array, state⟩

variable {sem}

/-- Up to the first spread element. -/
theorem run_staticLoop {code : List (ArrayInsn E V)} (hcode : sem.IgnoresAcc code)
    (hes : ∀ elem ∈ es, elem.isSpreadElement = false) (i : ℕ) (m : ArrayMachine V σ)
    (hobj : m.regs .obj = .array) :
    sem.run (staticLoop i es ++ code) m = thrown (sem.pieces es m.state) >>= fun x =>
      sem.run code
        { m with array := (x.1.foldl Piece.store (m.array, i)).1, state := x.2 } := by
  induction es generalizing i m with
  | nil => rfl
  | cons elem es ih =>
    obtain ⟨helem, hrest⟩ := List.forall_mem_cons.mp hes
    cases elem with
    | omitted =>
      rw [staticLoop, ih hrest _ _ hobj]
      simp [pieces, piece, Piece.store]
    | constant v =>
      rw [staticLoop, compileElement]
      · simp only [List.cons_append, List.nil_append, run_cons, exec, pure_bind, hobj]
        rw [ih hrest (i + 1) { m with acc := .value v, array := m.array.defineOwn i v } hobj]
        simp only [pieces, piece, pure_bind, thrown_bind, thrown_pure, bind_assoc, List.foldl_cons,
          Piece.store]
        exact bind_congr fun x => hcode _ _ _ _ _
      · exact nofun
    | expression e =>
      rw [staticLoop, compileElement]
      · simp only [List.cons_append, List.nil_append, run_cons, exec, pieces, piece, thrown_bind,
          bind_assoc, pure_bind, thrown_pure, hobj]
        apply bind_congr
        intro y
        rw [ih hrest (i + 1)
          { m with acc := .value y.1, array := m.array.defineOwn i y.1, state := y.2 } hobj]
        exact bind_congr fun x => hcode _ _ _ _ _
      · exact nofun
    | spread argument => cases helem

/-- The machine in the loop behind the first spread element: the accumulator is the index. -/
def atIndex (x : JsArray V × ℕ) (s : σ) : ArrayMachine V σ where
  acc := .int x.2
  regs := fun
    | .obj => .array
    | .idx => .int x.2
  array := x.1
  state := s

theorem exec_storeAccumulator_idx (array : JsArray V) (i n : ℕ) (s : σ) :
    sem.exec { atIndex (array, i) s with acc := .int n } (.storeAccumulator .idx) =
      pure (atIndex (array, n) s) := by
  refine congrArg pure (congrArg (ArrayMachine.mk _ · _ _) ?_)
  funext r
  cases r <;> rfl

theorem run_inc (array : JsArray V) (n : ℕ) (s : σ) (acc : ArrayVal V)
    (code : List (ArrayInsn E V)) :
    sem.run (.inc :: .storeAccumulator .idx :: code) { atIndex (array, n) s with acc } =
      sem.run code (atIndex (array, n + 1) s) := by
  rw [run_cons]
  change sem.run (.storeAccumulator .idx :: code)
    { atIndex (array, n) s with acc := .int (n + 1) } = _
  rw [run_cons, exec_storeAccumulator_idx, pure_bind]

/-- From the first spread element on. -/
theorem run_spreadLoop (es : List (Element E V)) (x : JsArray V × ℕ) (s : σ) :
    sem.run (spreadLoop es) (atIndex x s) =
      (fun y => atIndex (y.1.foldl Piece.store x) y.2) <$> thrown (sem.pieces es s) := by
  induction es generalizing x s with
  | nil => rfl
  | cons elem es ih =>
    obtain ⟨array, n⟩ := x
    cases elem with
    | omitted =>
      change sem.run (.inc :: .storeAccumulator .idx :: spreadLoop es)
        { atIndex (array, n) s with acc := .int n } = _
      rw [run_inc, ih]
      simp [pieces, piece, Piece.store]
    | constant v =>
      change sem.run (.inc :: .storeAccumulator .idx :: spreadLoop es)
        { atIndex (array.defineOwn n v, n) s with acc := .value v } = _
      rw [run_inc, ih]
      simp [pieces, piece, Piece.store]
    | expression e =>
      have hcode : spreadLoop (.expression e :: es) = .compile e :: .stOwnByValue :: .inc ::
          .storeAccumulator .idx :: spreadLoop es := rfl
      rw [hcode, run_cons, exec]
      simp only [bind_assoc, pure_bind, pieces, piece, thrown_bind, thrown_pure, map_bind]
      apply bind_congr
      intro y
      change sem.run (.inc :: .storeAccumulator .idx :: spreadLoop es)
        { atIndex (array.defineOwn n y.1, n) y.2 with acc := .value y.1 } = _
      rw [run_inc, ih]
      simp [Piece.store]
    | spread argument =>
      have hcode : spreadLoop (.spread argument :: es) = .compile argument :: .storeArraySpread ::
          .loadLength :: .storeAccumulator .idx :: spreadLoop es := rfl
      rw [hcode, run_cons, exec]
      simp only [bind_assoc, pure_bind, pieces, piece, thrown_bind, thrown_pure, map_bind]
      apply bind_congr
      intro y
      rw [run_cons]
      change (thrown (sem.iterate y.1 y.2) >>= _) >>= _ = _
      rw [bind_assoc]
      apply bind_congr
      intro z
      change sem.run (.storeAccumulator .idx :: spreadLoop es)
        { atIndex (array.defineAll n z.1, n) z.2 with acc := .int (array.defineAll n z.1).length } = _
      rw [run_cons, exec_storeAccumulator_idx, pure_bind, ih]
      simp [Piece.store]

/-! ### The whole literal -/

theorem constants_append (es : List (Element E V)) :
    (Element.constants es).map .constant ++ es.drop (Element.constants es).length = es := by
  induction es with
  | nil => rfl
  | cons elem es ih =>
    cases elem with
    | constant v => exact congrArg (Element.constant v :: ·) ih
    | _ => rfl

theorem pieces_constants (vs : List V) (s : σ) :
    sem.pieces (vs.map .constant) s = pure (vs.map .value, s) := by
  induction vs with
  | nil => rfl
  | cons v vs ih => simp [pieces, piece, ih]

theorem foldl_store_values (vs : List V) (array : JsArray V) :
    (vs.map Piece.value).foldl Piece.store (array, array.length) =
      (array ++ vs.map some, array.length + vs.length) := by
  induction vs generalizing array with
  | nil => simp
  | cons v vs ih =>
    have hstore : Piece.store (array, array.length) (.value v) =
        (array ++ [some v], (array ++ [some v]).length) := by
      simp [Piece.store, JsArray.defineOwn]
    rw [List.map_cons, List.foldl_cons, hstore, ih]
    refine Prod.ext (by simp) ?_
    simp only [List.length_append, List.length_cons, List.length_nil]
    omega

theorem foldl_store_snd {y : List (Piece V) × σ} {s : σ}
    (hes : ∀ elem ∈ es, elem.isSpreadElement = false) (h : sem.pieces es s = .ok y)
    (x : JsArray V × ℕ) : (y.1.foldl Piece.store x).2 = x.2 + es.length := by
  induction es generalizing s y x with
  | nil =>
    cases h
    rfl
  | cons elem es ih =>
    obtain ⟨helem, hrest⟩ := List.forall_mem_cons.mp hes
    obtain ⟨⟨p, s₁⟩, hp, h⟩ := exists_of_bind h
    obtain ⟨⟨ps, s₂⟩, hps, h⟩ := exists_of_bind h
    cases h
    have hstep : (Piece.store x p).2 = x.2 + 1 := by
      cases elem with
      | omitted | constant v =>
        cases hp
        rfl
      | expression e =>
        obtain ⟨z, -, hp⟩ := exists_of_bind hp
        cases hp
        rfl
      | spread argument => cases helem
    rw [List.foldl_cons, ih hrest hps, hstep, List.length_cons]
    omega

theorem getLast_isHole {x : List (Piece V) × σ} {s : σ} (h : sem.pieces es s = .ok x) :
    x.1.getLast?.any Piece.isHole = es.getLast?.any Element.isOmittedExpression := by
  have hmap := congrArg (·.getLast?.any id) (map_isHole sem h)
  simpa [List.getLast?_map, Option.any_map] using hmap

theorem run_end (omitted : Bool) (x : JsArray V × ℕ) (s : σ) :
    (sem.run ((if omitted then [ArrayInsn.storeLength] else []) ++ [ArrayInsn.loadAccumulator .obj]) (atIndex x s) >>=
      result) = pure (if omitted then x.1.setLength x.2 else x.1, s) := by
  cases omitted <;> rfl

theorem run_fromSpread {omitted : Bool} {i : ℕ} {m : ArrayMachine V σ} (hobj : m.regs .obj = .array) :
    (sem.run ([ArrayInsn.loadAccumulatorInt i, .storeAccumulator .idx] ++ (spreadLoop es ++
        ((if omitted then [ArrayInsn.storeLength] else []) ++ [ArrayInsn.loadAccumulator .obj]))) m >>= result) =
      thrown (sem.pieces es m.state) >>= fun y =>
        pure (if omitted then (y.1.foldl Piece.store (m.array, i)).1.setLength
          (y.1.foldl Piece.store (m.array, i)).2 else (y.1.foldl Piece.store (m.array, i)).1, y.2) := by
  have hstart : sem.run [.loadAccumulatorInt i, .storeAccumulator .idx] m =
      pure (atIndex (m.array, i) m.state) := by
    refine congrArg Except.ok (congrArg (ArrayMachine.mk _ · _ _) ?_)
    funext r
    cases r with
    | obj => exact hobj
    | idx => rfl
  rw [run_append, hstart, pure_bind, run_append, run_spreadLoop, bind_map_left, bind_assoc]
  apply bind_congr
  intro y
  exact run_end omitted _ _

theorem storeAll_eq (ps : List (Piece V)) : Piece.storeAll ps =
    if ps.getLast?.any Piece.isHole
    then (ps.foldl Piece.store ([], 0)).1.setLength (ps.foldl Piece.store ([], 0)).2
    else (ps.foldl Piece.store ([], 0)).1 := rfl

theorem run_start (buf : List V) (code : List (ArrayInsn E V)) (s : σ) :
    sem.run ((if buf.isEmpty then .createEmptyArray else .createArrayWithBuffer buf) ::
        .storeAccumulator .obj :: code) { state := s } =
      sem.run code ⟨.array, fun r => if r = .obj then .array else .unset, buf.map some, s⟩ := by
  rw [run_cons]
  cases buf <;> rfl

theorem storeAll_values (vs : List V) : Piece.storeAll (vs.map Piece.value) = vs.map some := by
  have hfold : (vs.map Piece.value).foldl Piece.store ([], 0) = (vs.map some, vs.length) := by
    simpa using foldl_store_values vs []
  have hlast : (vs.map Piece.value).getLast?.any Piece.isHole = false := by
    rw [List.getLast?_map, Option.any_map]
    cases vs.getLast? <;> rfl
  rw [storeAll_eq, hlast, hfold]
  rfl

/-- From the first element that is no constant, after as many constants as are in the array. -/
theorem run_rest {rest : List (Element E V)} {buf : List V} {omitted : Bool}
    {m : ArrayMachine V σ} (hobj : m.regs .obj = .array) :
    (sem.run (staticLoop buf.length (rest.takeWhile (!·.isSpreadElement)) ++
        ((if (!(rest.dropWhile (!·.isSpreadElement)).isEmpty) = true
          then [ArrayInsn.loadAccumulatorInt (buf.length + (rest.takeWhile (!·.isSpreadElement)).length),
            .storeAccumulator .idx] else []) ++
        (spreadLoop (rest.dropWhile (!·.isSpreadElement)) ++
        ((if omitted then
          (if (!(rest.dropWhile (!·.isSpreadElement)).isEmpty) = true then []
          else [.loadAccumulatorInt (buf.length + (rest.takeWhile (!·.isSpreadElement)).length)]) ++
            [.storeLength] else []) ++ [ArrayInsn.loadAccumulator .obj])))) m >>= result) =
      thrown (sem.pieces rest m.state) >>= fun y =>
        pure (if omitted then (y.1.foldl Piece.store (m.array, buf.length)).1.setLength
          (y.1.foldl Piece.store (m.array, buf.length)).2
          else (y.1.foldl Piece.store (m.array, buf.length)).1, y.2) := by
  have hrest : rest.takeWhile (!·.isSpreadElement) ++ rest.dropWhile (!·.isSpreadElement) = rest :=
    List.takeWhile_append_dropWhile
  have hstatic : ∀ elem ∈ rest.takeWhile (!·.isSpreadElement), elem.isSpreadElement = false := by
    intro elem helem
    simpa using List.mem_takeWhile_imp helem
  generalize rest.takeWhile (!·.isSpreadElement) = es at hrest hstatic ⊢
  generalize rest.dropWhile (!·.isSpreadElement) = es' at hrest ⊢
  subst hrest
  rw [run_staticLoop ?_ hstatic _ _ hobj, pieces_append, thrown_bind, bind_assoc, bind_assoc]
  · cases hes : sem.pieces es m.state with
    | error err => rfl
    | ok x =>
      have hindex := foldl_store_snd hstatic hes (m.array, buf.length)
      change (sem.run _ _ >>= result) = thrown (_ <$> sem.pieces es' x.2) >>= _
      rw [thrown_map, bind_map_left]
      simp only [List.foldl_append]
      generalize x.1.foldl Piece.store (m.array, buf.length) = z at hindex ⊢
      obtain ⟨array, n⟩ := z
      simp only at hindex
      subst hindex
      cases es' with
      | nil =>
        change _ = Except.ok _
        cases omitted with
        | true => simp [run, exec, result, hobj, spreadLoop]
        | false => simp [run, exec, result, hobj, spreadLoop]
      | cons elem es' =>
        have hspread : (!(elem :: es').isEmpty) = true := rfl
        rw [if_pos hspread, if_pos hspread, List.nil_append]
        exact run_fromSpread hobj
  · intro acc acc' regs array state
    cases es' <;> cases omitted <;> rfl

/-- What the code does with the pieces. -/
theorem run_createArray (elements : List (Element E V)) (s : σ) :
    (sem.run (createArray elements) { state := s } >>= result) =
      (fun x => (Piece.storeAll x.1, x.2)) <$> thrown (sem.pieces elements s) := by
  have hsplit := constants_append elements
  have hlast {x : List (Piece V) × σ} (h : sem.pieces elements s = .ok x) := getLast_isHole h
  rw [createArray, run_start]
  generalize Element.constants elements = buf at hsplit ⊢
  generalize elements.drop buf.length = rest at hsplit ⊢
  have hpieces : sem.pieces elements s =
      (fun y => (buf.map Piece.value ++ y.1, y.2)) <$> sem.pieces rest s := by
    rw [← hsplit, pieces_append, pieces_constants]
    rfl
  have hbuf : (buf.map Piece.value).foldl Piece.store ([], 0) = (buf.map some, buf.length) := by
    simpa using foldl_store_values buf []
  cases hrest : rest with
  | nil =>
    rw [hpieces, hrest]
    change Except.ok (buf.map some, s) = Except.ok (Piece.storeAll (buf.map Piece.value ++ []), s)
    rw [List.append_nil, storeAll_values]
  | cons elem es =>
    rw [if_neg (by exact Bool.false_ne_true), ← hrest, List.append_assoc, List.append_assoc,
      List.append_assoc, run_rest rfl]
    cases hy : sem.pieces rest s with
    | error err =>
      rw [hpieces, hy]
      rfl
    | ok y =>
      rw [hy] at hpieces
      rw [hpieces, ← hlast hpieces]
      change Except.ok _ = Except.ok (Piece.storeAll (buf.map Piece.value ++ y.1), y.2)
      rw [storeAll_eq, List.foldl_append, hbuf]

end ArraySem

/-! ### Holes in front of spreads -/

namespace JsArray

variable {V : Type} {a : JsArray V}

theorem defineOwn_of_le {i : ℕ} (h : a.length ≤ i) (v : V) :
    a.defineOwn i v = a ++ List.replicate (i - a.length) none ++ [some v] :=
  if_neg (Nat.not_lt_of_le h)

theorem setLength_of_le {n : ℕ} (h : a.length ≤ n) :
    a.setLength n = a ++ List.replicate (n - a.length) none := by
  unfold setLength
  split
  · next hle =>
    have heq : a.length = n := Nat.le_antisymm h hle
    simp [← heq]
  · rfl

theorem defineAll_length {vs : List V} :
    a.defineAll a.length vs = a ++ vs.map some := by
  induction vs generalizing a with
  | nil => simp [defineAll]
  | cons v vs ih =>
    have hlength : a.length + 1 = (a ++ [some v]).length := by simp
    rw [defineAll, defineOwn_of_le (Nat.le_refl _), Nat.sub_self, List.replicate_zero,
      List.append_nil, hlength]
    rw [ih]
    simp

theorem defineAll_cons {i : ℕ} (h : a.length ≤ i) (v : V) (vs : List V) :
    a.defineAll i (v :: vs) =
      a ++ List.replicate (i - a.length) none ++ (v :: vs).map some := by
  have hlength : i + 1 = (a ++ List.replicate (i - a.length) none ++ [some v]).length := by
    simp only [List.length_append, List.length_replicate, List.length_cons, List.length_nil]
    omega
  rw [defineAll, defineOwn_of_le h, hlength, defineAll_length]
  simp

theorem length_defineOwn {i : ℕ} (h : a.length ≤ i) (v : V) :
    (a.defineOwn i v).length = i + 1 := by
  rw [defineOwn_of_le h]
  simp only [List.length_append, List.length_replicate, List.length_cons, List.length_nil]
  omega

theorem length_setLength {n : ℕ} (h : a.length ≤ n) :
    (a.setLength n).length = n := by
  rw [setLength_of_le h, List.length_append, List.length_replicate]
  omega

theorem length_defineAll_cons {i : ℕ} (h : a.length ≤ i) (v : V) (vs : List V) :
    (a.defineAll i (v :: vs)).length = i + (v :: vs).length := by
  rw [defineAll_cons h]
  simp only [List.length_append, List.length_replicate, List.length_map]
  omega

end JsArray

namespace Piece

variable {V : Type} {x y : JsArray V × ℕ}

/-- ECMAScript's array has the holes that have been left out, and the indices are the same. -/
structure Agree (x y : JsArray V × ℕ) : Prop where
  le : x.1.length ≤ x.2
  array_eq : y.1 = x.1 ++ List.replicate (x.2 - x.1.length) none
  index_eq : y.2 = x.2

/-- The index register has fallen behind. -/
structure Behind (x y : JsArray V × ℕ) : Prop where
  le : x.1.length ≤ x.2
  lt : x.2 < y.2
  length_eq : y.1.length = y.2

theorem Agree.length_eq (h : Agree x y) : y.1.length = y.2 := by
  have := h.le
  rw [h.array_eq, h.index_eq, List.length_append, List.length_replicate]
  omega

theorem Agree.eq_of_length (h : Agree x y) (hlength : x.1.length = x.2) : y = x := by
  refine Prod.ext ?_ h.index_eq
  rw [h.array_eq, hlength, Nat.sub_self, List.replicate_zero, List.append_nil]

theorem Agree.refl {x : JsArray V × ℕ} (h : x.1.length = x.2) : Agree x x where
  le := Nat.le_of_eq h
  array_eq := by rw [h, Nat.sub_self, List.replicate_zero, List.append_nil]
  index_eq := rfl

theorem Agree.defineOwn (h : Agree x y) (v : V) :
    y.1.defineOwn y.2 v = x.1.defineOwn x.2 v := by
  rw [JsArray.defineOwn_of_le h.le, JsArray.defineOwn_of_le (Nat.le_of_eq h.length_eq),
    h.length_eq, Nat.sub_self, List.replicate_zero, List.append_nil, h.array_eq]

theorem Agree.step (h : Agree x y) (p : Piece V) (hp : p = spread [] → x.1.length = x.2) :
    Agree (store x p) (accumulate y p) := by
  have hle := h.le
  cases p with
  | value v =>
    have hstep : accumulate y (value v) = store x (value v) :=
      Prod.ext (h.defineOwn v) (congrArg (· + 1) h.index_eq)
    rw [hstep]
    exact .refl (JsArray.length_defineOwn hle v)
  | hole =>
    refine ⟨Nat.le_succ_of_le hle, ?_, congrArg (· + 1) h.index_eq⟩
    have hlength := h.length_eq
    change y.1.setLength (y.2 + 1) = x.1 ++ List.replicate (x.2 + 1 - x.1.length) none
    rw [JsArray.setLength_of_le (by omega), hlength, Nat.add_sub_cancel_left, h.array_eq,
      List.append_assoc, List.replicate_append_replicate, Nat.sub_add_comm hle]
  | spread vs =>
    cases vs with
    | nil =>
      have hlength := hp rfl
      have hstep : accumulate y (spread []) = store x (spread []) := by
        rw [h.eq_of_length hlength]
        exact Prod.ext rfl hlength.symm
      rw [hstep]
      exact .refl rfl
    | cons v vs =>
      have hstep : accumulate y (spread (v :: vs)) = store x (spread (v :: vs)) := by
        refine Prod.ext ?_ ?_
        · change y.1.defineAll y.2 (v :: vs) = x.1.defineAll x.2 (v :: vs)
          rw [JsArray.defineAll_cons hle, JsArray.defineAll_cons (Nat.le_of_eq h.length_eq),
            h.length_eq, Nat.sub_self, List.replicate_zero, List.append_nil, h.array_eq]
        · change y.2 + (v :: vs).length = (x.1.defineAll x.2 (v :: vs)).length
          rw [JsArray.length_defineAll_cons hle, h.index_eq]
      rw [hstep]
      exact .refl rfl

theorem Agree.behind (h : Agree x y) (hlt : x.1.length < x.2) :
    Behind (store x (spread [])) (accumulate y (spread [])) where
  le := Nat.le_refl _
  lt := by
    change x.1.length < y.2 + 0
    rw [h.index_eq]
    exact hlt
  length_eq := h.length_eq

theorem Behind.step (h : Behind x y) (p : Piece V) : Behind (store x p) (accumulate y p) := by
  have hle := h.le
  have hlt := h.lt
  have hlength := h.length_eq
  cases p with
  | value v =>
    refine ⟨Nat.le_of_eq (JsArray.length_defineOwn hle v), Nat.add_lt_add_right hlt 1, ?_⟩
    exact JsArray.length_defineOwn (Nat.le_of_eq hlength) v
  | hole =>
    refine ⟨Nat.le_succ_of_le hle, Nat.add_lt_add_right hlt 1, ?_⟩
    exact JsArray.length_setLength (by omega)
  | spread vs =>
    cases vs with
    | nil => exact ⟨Nat.le_refl _, Nat.lt_of_le_of_lt hle hlt, hlength⟩
    | cons v vs =>
      refine ⟨Nat.le_refl _, ?_, ?_⟩
      · change (x.1.defineAll x.2 (v :: vs)).length < y.2 + (v :: vs).length
        rw [JsArray.length_defineAll_cons hle]
        exact Nat.add_lt_add_right hlt _
      · exact JsArray.length_defineAll_cons (Nat.le_of_eq hlength) v vs

theorem Behind.foldl (h : Behind x y) (ps : List (Piece V)) :
    Behind (ps.foldl store x) (ps.foldl accumulate y) := by
  induction ps generalizing x y with
  | nil => exact h
  | cons p ps ih => exact ih (h.step p)

theorem length_store_lt_iff (h : x.1.length ≤ x.2) (p : Piece V) :
    (store x p).1.length < (store x p).2 ↔ p.isHole := by
  cases p with
  | value v => simp [store, isHole, JsArray.length_defineOwn h]
  | hole => simp [store, isHole, Nat.lt_succ_of_le h]
  | spread vs => simp [store, isHole]

theorem Agree.foldl (h : Agree x y) {ps : List (Piece V)} (hps : ¬ [hole, spread []] <:+: ps)
    (hhead : x.1.length < x.2 → ps.head? ≠ some (spread [])) :
    Agree (ps.foldl store x) (ps.foldl accumulate y) := by
  induction ps generalizing x y with
  | nil => exact h
  | cons p ps ih =>
    apply ih
    · apply h.step
      intro hp
      have hle := h.le
      have hlt : ¬ x.1.length < x.2 := fun hlt => hhead hlt (congrArg some hp)
      omega
    · intro hpair
      exact hps (hpair.trans (List.suffix_cons p ps).isInfix)
    · intro hlt hspread
      have hp : p = hole := by
        have hhole := (length_store_lt_iff h.le p).mp hlt
        cases p with
        | hole => rfl
        | value v | spread vs => cases hhole
      obtain ⟨ps', rfl⟩ := List.head?_eq_some_iff.mp hspread
      exact hps ⟨[], ps', by rw [hp]; rfl⟩

theorem agree_or_behind (h : Agree x y) (ps : List (Piece V)) :
    Agree (ps.foldl store x) (ps.foldl accumulate y) ∨
      Behind (ps.foldl store x) (ps.foldl accumulate y) := by
  induction ps generalizing x y with
  | nil => exact .inl h
  | cons p ps ih =>
    by_cases hp : p = spread [] → x.1.length = x.2
    · exact ih (h.step p hp)
    · obtain ⟨rfl, hne⟩ := Classical.not_imp.mp hp
      exact .inr ((h.behind (Nat.lt_of_le_of_ne h.le hne)).foldl ps)

theorem Agree.behind_of_infix (h : Agree x y) {ps : List (Piece V)}
    (hps : [hole, spread []] <:+: ps) :
    Behind (ps.foldl store x) (ps.foldl accumulate y) := by
  obtain ⟨before, after, rfl⟩ := hps
  simp only [List.foldl_append, List.foldl_cons, List.foldl_nil]
  apply Behind.foldl
  rcases agree_or_behind h before with hagree | hbehind
  · exact (hagree.step hole nofun).behind (Nat.lt_succ_of_le hagree.le)
  · exact (hbehind.step hole).step (spread [])

theorem agree_nil : Agree (V := V) ([], 0) ([], 0) := .refl rfl

theorem foldl_store_le (ps : List (Piece V)) :
    (ps.foldl store ([], 0)).1.length ≤ (ps.foldl store ([], 0)).2 :=
  (agree_or_behind agree_nil ps).elim Agree.le Behind.le

theorem foldl_store_lt_iff (ps : List (Piece V)) :
    (ps.foldl store ([], 0)).1.length < (ps.foldl store ([], 0)).2 ↔ ps.getLast?.any isHole := by
  induction ps using List.reverseRecOn with
  | nil => simp
  | append_singleton ps p =>
    rw [List.foldl_append, List.foldl_cons, List.foldl_nil,
      length_store_lt_iff (foldl_store_le ps), List.getLast?_concat]
    rfl

theorem storeAll_eq_iff (ps : List (Piece V)) :
    storeAll ps = (ps.foldl accumulate ([], 0)).1 ↔ ¬ [hole, spread []] <:+: ps := by
  have hle := foldl_store_le ps
  have hlast := foldl_store_lt_iff ps
  rw [ArraySem.storeAll_eq]
  constructor
  · intro heq hpair
    have hbehind := agree_nil.behind_of_infix hpair
    have hlt := hbehind.lt
    rw [← hbehind.length_eq, ← heq] at hlt
    split at hlt
    · rw [JsArray.length_setLength hle] at hlt
      exact Nat.lt_irrefl _ hlt
    · omega
  · intro hpair
    have hagree := agree_nil.foldl hpair fun hlt => absurd hlt (Nat.lt_irrefl 0)
    split
    · rw [JsArray.setLength_of_le hle, hagree.array_eq]
    · next hnone =>
      have hlt := mt hlast.mp hnone
      rw [hagree.eq_of_length (by omega)]

end Piece

namespace ArraySem

variable {E V ε σ : Type} (sem : ArraySem E V ε σ)

/-- For all element lists and all meanings of their subexpressions: the code builds the array of
ECMAScript, in the same state or with the same exception, exactly if no spread that turns out to have
no values is directly behind a hole. -/
theorem run_createArray_iff (elements : List (Element E V)) (s : σ) :
    (sem.run (createArray elements) { state := s } >>= result) =
        thrown (sem.arrayLiteral elements s) ↔
      ∀ ps s', sem.pieces elements s = .ok (ps, s') → ¬ [.hole, .spread []] <:+: ps := by
  rw [run_createArray, arrayLiteral, arrayAccumulation_eq, thrown_map]
  cases hx : sem.pieces elements s with
  | error err => exact iff_of_true rfl nofun
  | ok x =>
    constructor
    · intro heq ps s' hps
      cases hps
      have harray := congrArg Prod.fst (Except.ok.inj heq)
      exact (Piece.storeAll_eq_iff ps).mp harray
    · intro hps
      have harray := (Piece.storeAll_eq_iff x.1).mpr (hps x.1 x.2 rfl)
      exact congrArg Except.ok (Prod.ext harray rfl)

/-- Subexpressions that are their values, where a value is the list of what it iterates over. -/
def literal : ArraySem (List ℕ) (List ℕ) Empty Unit where
  eval e s := .ok (e, s)
  iterate v s := .ok (v.map ([·]), s)

/-- `[, ...[]]` is built without its hole. -/
theorem run_createArray_hole_spread :
    (literal.run (createArray [.omitted, .spread []]) { state := () } >>= result) ≠
      thrown (literal.arrayLiteral [.omitted, .spread []] ()) := by
  intro h
  have hlength := congrArg (fun x => match x with
    | .ok (array, _) => some array.length
    | .error _ => none) h
  exact absurd hlength (by decide)

end ArraySem

end ArkTs2abc.Es2panda
