import ArkTs2abc.Es2panda.Compiler.CreateArray

/-!
# Array literals in ts2panda

`createArrayFromElements` collects the constants at the beginning into a literal buffer. Up to the
first spread element the others are stored by their position, and from there on by an index that is
kept in a register. A hole emits code at the end of the list only, so behind a spread it does not move
the index on.

## Main definitions

* `compileElements` — the loop over the elements, with the flags it keeps.
* `createArrayFromElements` — the emitted code.
* `Piece.NoneLost` — the holes are in front of the spreads, and something comes behind them.

## Main results

* `run_createArrayFromElements_iff` — the array is that of ECMAScript if and only if no hole is lost.
-/

namespace ArkTs2abc.Ts2panda

open Es2panda

variable {E V : Type}

section Emission

open ArrayInsn

/-- The variables of the loop. -/
structure ArrayLoop (V : Type) where
  literalBuffer : List V := []
  arrayCreated : Bool := false
  hasSpread : Bool := false

def emitCreateArrayWithBuffer (literalBuffer : List V) : List (ArrayInsn E V) :=
  if literalBuffer.isEmpty then [createEmptyArray] else [createArrayWithBuffer literalBuffer]

def storeElementIfSpreadExisted : List (ArrayInsn E V) :=
  [stOwnByValue, inc, storeAccumulator .idx]

def storeSpreadElement (argument : E) : List (ArrayInsn E V) :=
  [compile argument, storeArraySpread, storeAccumulator .idx]

namespace ArrayLoop

/-- The array is made when the first element comes that is no constant. -/
def create (loop : ArrayLoop V) : List (ArrayInsn E V) :=
  if loop.arrayCreated then []
  else emitCreateArrayWithBuffer loop.literalBuffer ++ [storeAccumulator .obj]

def created (loop : ArrayLoop V) : ArrayLoop V := { loop with arrayCreated := true }

/-- The value in the accumulator is the element `i`. -/
def storeElement (loop : ArrayLoop V) (i : ℕ) : List (ArrayInsn E V) :=
  if loop.hasSpread then storeElementIfSpreadExisted else [stOwnByIndex i]

end ArrayLoop

/-- The loop from the element `i` on. -/
def compileElements (length : ℕ) : ℕ → ArrayLoop V → List (Element E V) → List (ArrayInsn E V)
  | _, _, [] => []
  | i, loop, .constant v :: elements =>
    if ¬ loop.arrayCreated then
      let literalBuffer := loop.literalBuffer ++ [v]
      if i + 1 = length then
        emitCreateArrayWithBuffer literalBuffer ++ [storeAccumulator .obj] ++
          compileElements length (i + 1) { loop with literalBuffer, arrayCreated := true } elements
      else
        compileElements length (i + 1) { loop with literalBuffer } elements
    else
      [constant v] ++ loop.storeElement i ++ compileElements length (i + 1) loop elements
  | i, loop, .spread argument :: elements =>
    loop.create ++
      (if loop.hasSpread then [] else [loadAccumulatorInt i, storeAccumulator .idx]) ++
      storeSpreadElement argument ++
      compileElements length (i + 1) { loop.created with hasSpread := true } elements
  | i, loop, .omitted :: elements =>
    loop.create ++
      (if i + 1 = length then
        (if loop.hasSpread then [loadAccumulator .idx] else [loadAccumulatorInt length]) ++
          [storeLength]
      else []) ++
      compileElements length (i + 1) loop.created elements
  | i, loop, .expression e :: elements =>
    loop.create ++ [compile e] ++ loop.storeElement i ++
      compileElements length (i + 1) loop.created elements

def createArrayFromElements (elements : List (Element E V)) : List (ArrayInsn E V) :=
  if elements.isEmpty then [createEmptyArray, storeAccumulator .obj]
  else compileElements elements.length 0 {} elements ++ [loadAccumulator .obj]

end Emission

end ArkTs2abc.Ts2panda

namespace ArkTs2abc.Es2panda

variable {V : Type}

namespace Piece

/-- What the code does with the pieces. Behind a spread a hole does not count. -/
def storeInTurn (hasSpread : Bool) : JsArray V × ℕ → List (Piece V) → JsArray V
  | x, [] => x.1
  | x, value v :: ps => storeInTurn hasSpread (x.1.defineOwn x.2 v, x.2 + 1) ps
  | x, spread vs :: ps => storeInTurn true (x.1.defineAll x.2 vs, x.2 + vs.length) ps
  | x, hole :: ps =>
    let n := if hasSpread then x.2 else x.2 + 1
    if ps.isEmpty then x.1.setLength n else storeInTurn hasSpread (x.1, n) ps

def isSpread : Piece V → Bool
  | spread _ => true
  | _ => false

/-- The values of the pieces one after the other, without the holes. -/
def values : List (Piece V) → List V
  | [] => []
  | value v :: ps => v :: values ps
  | spread vs :: ps => vs ++ values ps
  | hole :: ps => values ps

/-- No hole is lost: there is none behind a spread, and if one is directly in front of the first
spread, then some value comes from there on. -/
def NoneLost (ps : List (Piece V)) : Prop :=
  hole ∉ ps.dropWhile (!·.isSpread) ∧
    ((ps.takeWhile (!·.isSpread)).getLast? = some hole → ps.dropWhile (!·.isSpread) ≠ [] →
      values (ps.dropWhile (!·.isSpread)) ≠ [])

end Piece

end ArkTs2abc.Es2panda

namespace ArkTs2abc.Ts2panda

open Es2panda ArraySem

variable {E V ε σ : Type} (sem : ArraySem E V ε σ)

/-- The array that `arrayObj` holds. -/
def arrayObj (m : ArrayMachine V σ) : Except (ArrayStop ε) (JsArray V × σ) :=
  match m.regs .obj with
  | .array => .ok (m.array, m.state)
  | _ => .error .stuck

variable {sem}

theorem pieces_ne_nil {elem : Element E V} {es : List (Element E V)} {s : σ}
    {x : List (Piece V) × σ} (h : sem.pieces (elem :: es) s = .ok x) : x.1.isEmpty = false := by
  obtain ⟨p, -, h⟩ := exists_of_bind h
  obtain ⟨ps, -, h⟩ := exists_of_bind h
  cases h
  rfl

theorem pieces_hole {elem : Element E V} {es : List (Element E V)} (s : σ) (hasSpread : Bool)
    (x : JsArray V × ℕ) :
    ((fun y => (Piece.storeInTurn hasSpread x y.1, y.2)) <$>
        thrown (sem.pieces (.omitted :: elem :: es) s)) =
      (fun y => (Piece.storeInTurn hasSpread (x.1, if hasSpread then x.2 else x.2 + 1) y.1, y.2)) <$>
        thrown (sem.pieces (elem :: es) s) := by
  have hcons : sem.pieces (.omitted :: elem :: es) s =
      (fun y => (Piece.hole :: y.1, y.2)) <$> sem.pieces (elem :: es) s := rfl
  rw [hcons]
  cases h : sem.pieces (elem :: es) s with
  | error err => rfl
  | ok y =>
    refine congrArg Except.ok (Prod.ext ?_ rfl)
    change (if y.1.isEmpty then _ else _) = _
    rw [if_neg (by simp [pieces_ne_nil h])]

attribute [simp] Piece.storeInTurn compileElements

theorem compileElements_hole {length i : ℕ} (buf : List V) (hasSpread : Bool) (elem : Element E V)
    (es : List (Element E V)) (hi : i + 1 + (elem :: es).length = length) :
    compileElements length i ⟨buf, true, hasSpread⟩ (.omitted :: elem :: es) =
      compileElements length (i + 1) ⟨buf, true, hasSpread⟩ (elem :: es) := by
  have hmore : i + 1 ≠ length := by
    rw [← hi, List.length_cons]
    omega
  simp [ArrayLoop.create, ArrayLoop.created, hmore]

theorem run_spread {code : List (ArrayInsn E V)} {es : List (Element E V)}
    (hcode : ∀ (x : JsArray V × ℕ) (s : σ) (acc : ArrayVal V),
      (sem.run code { atIndex x s with acc } >>= arrayObj) =
        (fun y => (Piece.storeInTurn true x y.1, y.2)) <$> thrown (sem.pieces es s))
    (argument : E) (hasSpread : Bool) (x : JsArray V × ℕ) (s : σ) (acc : ArrayVal V) :
    (sem.run (.compile argument :: .storeArraySpread :: .storeAccumulator .idx :: code)
        { atIndex x s with acc } >>= arrayObj) =
      (fun y => (Piece.storeInTurn hasSpread x y.1, y.2)) <$>
        thrown (sem.pieces (.spread argument :: es) s) := by
  rw [run_cons, ArraySem.exec]
  simp only [bind_assoc, pure_bind, pieces, piece, thrown_bind, thrown_pure, map_bind]
  apply bind_congr
  intro y
  rw [run_cons]
  change ((thrown (sem.iterate y.1 y.2) >>= _) >>= _) >>= arrayObj = _
  rw [bind_assoc, bind_assoc]
  apply bind_congr
  intro z
  change (sem.run (.storeAccumulator .idx :: code) { atIndex (x.1.defineAll x.2 z.1, x.2) z.2 with
    acc := .int (x.2 + z.1.length) } >>= arrayObj) = _
  rw [run_cons, exec_storeAccumulator_idx, pure_bind]
  refine (hcode _ z.2 _).trans ?_
  simp

/-- Behind the first spread. -/
theorem run_behindSpread (length : ℕ) (es : List (Element E V)) (i : ℕ) (hi : i + es.length = length)
    (loop : ArrayLoop V) (hcreated : loop.arrayCreated = true) (hspread : loop.hasSpread = true)
    (x : JsArray V × ℕ) (s : σ) (acc : ArrayVal V) :
    (sem.run (compileElements length i loop es ++ [ArrayInsn.loadAccumulator .obj])
        { atIndex x s with acc } >>= arrayObj) =
      (fun y => (Piece.storeInTurn true x y.1, y.2)) <$> thrown (sem.pieces es s) := by
  induction es generalizing i loop x s acc with
  | nil => rfl
  | cons elem es ih =>
    obtain ⟨buf, created, hasSpread⟩ := loop
    obtain rfl : created = true := hcreated
    obtain rfl : hasSpread = true := hspread
    have hi' : i + 1 + es.length = length := by
      rw [← hi, List.length_cons]
      omega
    obtain ⟨array, n⟩ := x
    cases elem with
    | constant v =>
      change (sem.run (.inc :: .storeAccumulator .idx :: (compileElements length (i + 1) ⟨buf, true, true⟩
        es ++ [ArrayInsn.loadAccumulator .obj])) { atIndex (array.defineOwn n v, n) s with acc := .value v } >>=
        arrayObj) = _
      rw [run_inc]
      refine (ih (i + 1) hi' ⟨buf, true, true⟩ rfl rfl _ s _).trans ?_
      simp [pieces, piece]
    | expression e =>
      have hcode : compileElements length i ⟨buf, true, true⟩ (.expression e :: es) =
          .compile e :: .stOwnByValue :: .inc :: .storeAccumulator .idx ::
            compileElements length (i + 1) ⟨buf, true, true⟩ es := rfl
      rw [hcode, List.cons_append, run_cons, ArraySem.exec]
      simp only [bind_assoc, pure_bind, pieces, piece, thrown_bind, thrown_pure, map_bind]
      apply bind_congr
      intro y
      change (sem.run (.inc :: .storeAccumulator .idx :: (compileElements length (i + 1)
        ⟨buf, true, true⟩ es ++ [ArrayInsn.loadAccumulator .obj]))
        { atIndex (array.defineOwn n y.1, n) y.2 with acc := .value y.1 } >>= arrayObj) = _
      rw [run_inc]
      refine (ih (i + 1) hi' ⟨buf, true, true⟩ rfl rfl _ y.2 _).trans ?_
      simp
    | spread argument =>
      exact run_spread (ih (i + 1) hi' ⟨buf, true, true⟩ rfl rfl) argument true (array, n) s acc
    | omitted =>
      cases es with
      | nil =>
        have hlast : i + 1 = length := hi'
        have hcode : compileElements length i ⟨buf, true, true⟩ [.omitted] =
            ([.loadAccumulator .idx, .storeLength] : List (ArrayInsn E V)) := by
          simp [ArrayLoop.create, hlast]
        rw [hcode]
        rfl
      | cons elem es =>
        rw [compileElements_hole buf true elem es hi', pieces_hole]
        exact ih (i + 1) hi' ⟨buf, true, true⟩ rfl rfl (array, n) s acc

theorem run_firstSpread (length : ℕ) (argument : E) (es : List (Element E V)) (i : ℕ)
    (hi : i + 1 + es.length = length) (buf : List V) (m : ArrayMachine V σ)
    (hobj : m.regs .obj = .array) :
    (sem.run (compileElements length i ⟨buf, true, false⟩ (.spread argument :: es) ++
        [ArrayInsn.loadAccumulator .obj]) m >>= arrayObj) =
      (fun y => (Piece.storeInTurn false (m.array, i) y.1, y.2)) <$>
        thrown (sem.pieces (.spread argument :: es) m.state) := by
  have hcode : compileElements length i ⟨buf, true, false⟩ (.spread argument :: es) =
      [ArrayInsn.loadAccumulatorInt i, .storeAccumulator .idx] ++ (.compile argument :: .storeArraySpread ::
        .storeAccumulator .idx :: compileElements length (i + 1) ⟨buf, true, true⟩ es) := rfl
  have hstart : sem.run [.loadAccumulatorInt i, .storeAccumulator .idx] m =
      pure (atIndex (m.array, i) m.state) := by
    refine congrArg Except.ok (congrArg (ArrayMachine.mk _ · _ _) ?_)
    funext r
    cases r with
    | obj => exact hobj
    | idx => rfl
  rw [hcode, List.append_assoc, run_append, hstart, pure_bind]
  exact run_spread (run_behindSpread length es (i + 1) hi ⟨buf, true, true⟩ rfl rfl) argument false
    (m.array, i) m.state _

/-- In front of the first spread, with the array made. -/
theorem run_created (length : ℕ) (es : List (Element E V)) (i : ℕ) (hi : i + es.length = length)
    (buf : List V) (m : ArrayMachine V σ) (hobj : m.regs .obj = .array) :
    (sem.run (compileElements length i ⟨buf, true, false⟩ es ++ [ArrayInsn.loadAccumulator .obj]) m >>=
        arrayObj) =
      (fun y => (Piece.storeInTurn false (m.array, i) y.1, y.2)) <$>
        thrown (sem.pieces es m.state) := by
  induction es generalizing i m with
  | nil =>
    change arrayObj m = Except.ok (m.array, m.state)
    simp [arrayObj, hobj]
  | cons elem es ih =>
    have hi' : i + 1 + es.length = length := by
      rw [← hi, List.length_cons]
      omega
    cases elem with
    | constant v =>
      have hcode : compileElements length i ⟨buf, true, false⟩ (.constant v :: es) =
          .constant v :: .stOwnByIndex i :: compileElements length (i + 1) ⟨buf, true, false⟩ es := rfl
      rw [hcode]
      simp only [List.cons_append, run_cons, ArraySem.exec, pure_bind, hobj]
      refine (ih (i + 1) hi' { m with acc := .value v, array := m.array.defineOwn i v } hobj).trans ?_
      simp [pieces, piece]
    | expression e =>
      have hcode : compileElements length i ⟨buf, true, false⟩ (.expression e :: es) =
          .compile e :: .stOwnByIndex i :: compileElements length (i + 1) ⟨buf, true, false⟩ es := rfl
      rw [hcode]
      simp only [List.cons_append, run_cons, ArraySem.exec, bind_assoc, pure_bind, pieces, piece, thrown_bind,
        thrown_pure, map_bind, hobj]
      apply bind_congr
      intro y
      refine (ih (i + 1) hi'
        { m with acc := .value y.1, array := m.array.defineOwn i y.1, state := y.2 } hobj).trans ?_
      simp
    | spread argument => exact run_firstSpread length argument es i hi' buf m hobj
    | omitted =>
      cases es with
      | nil =>
        have hlast : i + 1 = length := hi'
        have hcode : compileElements length i ⟨buf, true, false⟩ [.omitted] =
            ([.loadAccumulatorInt length, .storeLength] : List (ArrayInsn E V)) := by
          simp [ArrayLoop.create, hlast]
        rw [hcode]
        simp [ArraySem.exec, hobj, run, arrayObj, pieces, piece, hlast, pure, Except.pure, bind,
          Except.bind, thrown, Functor.map, Except.map]
      | cons elem es =>
        rw [compileElements_hole buf false elem es hi', pieces_hole]
        exact ih (i + 1) hi' m hobj

theorem run_emitCreate (buf : List V) (code : List (ArrayInsn E V)) (s : σ) :
    sem.run (emitCreateArrayWithBuffer buf ++ [ArrayInsn.storeAccumulator .obj] ++ code) { state := s } =
      sem.run code ⟨.array, fun r => if r = .obj then .array else .unset, buf.map some, s⟩ := by
  cases buf <;> rfl

theorem compileElements_create (length i : ℕ) (buf : List V) {elem : Element E V}
    (helem : ∀ v, elem ≠ .constant v) (es : List (Element E V)) :
    compileElements length i ⟨buf, false, false⟩ (elem :: es) =
      emitCreateArrayWithBuffer buf ++ [ArrayInsn.storeAccumulator .obj] ++
        compileElements length i ⟨buf, true, false⟩ (elem :: es) := by
  cases elem with
  | constant v => exact absurd rfl (helem v)
  | _ => simp [ArrayLoop.create, ArrayLoop.created, ArrayLoop.storeElement]

/-- The loop from the beginning, the constants being collected. -/
theorem run_collecting (length : ℕ) (es : List (Element E V)) (hes : es ≠ []) (buf : List V)
    (hi : buf.length + es.length = length) (s : σ) :
    (sem.run (compileElements length buf.length ⟨buf, false, false⟩ es ++ [ArrayInsn.loadAccumulator .obj])
        { state := s } >>= arrayObj) =
      (fun y => (Piece.storeInTurn false (buf.map some, buf.length) y.1, y.2)) <$>
        thrown (sem.pieces es s) := by
  induction es generalizing buf with
  | nil => exact absurd rfl hes
  | cons elem es ih =>
    have hi' : buf.length + 1 + es.length = length := by
      rw [← hi, List.length_cons]
      omega
    by_cases helem : ∀ v, elem ≠ .constant v
    · rw [compileElements_create _ _ _ helem, List.append_assoc, run_emitCreate]
      exact run_created length (elem :: es) buf.length hi buf _ rfl
    · obtain ⟨v, hv⟩ := not_forall_not.1 helem
      subst hv
      have hdefine : JsArray.defineOwn (buf.map some) buf.length v = (buf ++ [v]).map some := by
        simp [JsArray.defineOwn]
      have hlength : buf.length + 1 = (buf ++ [v]).length := by simp
      cases es with
      | nil =>
        have hlast : buf.length + 1 = length := hi'
        have hcode : compileElements length buf.length ⟨buf, false, false⟩ [.constant v] =
            emitCreateArrayWithBuffer (buf ++ [v]) ++ [ArrayInsn.storeAccumulator .obj] ++
              ([] : List (ArrayInsn E V)) := by
          simp [hlast]
        rw [hcode, List.append_assoc, run_emitCreate]
        change Except.ok ((buf ++ [v]).map some, s) =
          Except.ok (JsArray.defineOwn (buf.map some) buf.length v, s)
        rw [hdefine]
      | cons elem es =>
        have hmore : buf.length + 1 ≠ length := by
          rw [← hi', List.length_cons]
          omega
        have hcode : compileElements length buf.length ⟨buf, false, false⟩
            (.constant v :: elem :: es) =
            compileElements length (buf ++ [v]).length ⟨buf ++ [v], false, false⟩ (elem :: es) := by
          simp [hmore]
        have hpieces : sem.pieces (.constant v :: elem :: es) s =
            (fun y => (Piece.value v :: y.1, y.2)) <$> sem.pieces (elem :: es) s := rfl
        rw [hcode, ih (by simp) (buf ++ [v]) (by rw [← hlength]; exact hi'), hpieces, thrown_map,
          Functor.map_map, ← hdefine, ← hlength]
        rfl

theorem run_createArrayFromElements (elements : List (Element E V)) (s : σ) :
    (sem.run (createArrayFromElements elements) { state := s } >>= arrayObj) =
      (fun y => (Piece.storeInTurn false ([], 0) y.1, y.2)) <$> thrown (sem.pieces elements s) := by
  cases elements with
  | nil => rfl
  | cons elem es => exact run_collecting (elem :: es).length (elem :: es) (by simp) [] (by simp) s

end ArkTs2abc.Ts2panda

/-! ### Holes and spreads -/

namespace ArkTs2abc.Es2panda

variable {V : Type}

namespace JsArray

theorem defineAll_append (a : JsArray V) (i : ℕ) (vs ws : List V) :
    a.defineAll i (vs ++ ws) = (a.defineAll i vs).defineAll (i + vs.length) ws := by
  induction vs generalizing a i with
  | nil => rfl
  | cons v vs ih =>
    rw [List.cons_append, defineAll, defineAll, ih, List.length_cons, Nat.add_assoc,
      Nat.add_comm 1 vs.length]

theorem length_defineAll_le {a : JsArray V} {i : ℕ} (h : a.length ≤ i) (vs : List V) :
    (a.defineAll i vs).length ≤ i + vs.length := by
  cases vs with
  | nil => exact h
  | cons v vs => exact Nat.le_of_eq (length_defineAll_cons h v vs)

end JsArray

namespace Piece

/-- Behind a spread the values are stored one after the other, and a hole at the end sets the length. -/
theorem storeInTurn_true (x : JsArray V × ℕ) (ps : List (Piece V)) :
    storeInTurn true x ps =
      if ps.getLast?.any isHole then
        (x.1.defineAll x.2 (values ps)).setLength (x.2 + (values ps).length)
      else x.1.defineAll x.2 (values ps) := by
  induction ps generalizing x with
  | nil => rfl
  | cons p ps ih =>
    cases p with
    | value v =>
      have hlast : ((value v :: ps).getLast?.any isHole) = ps.getLast?.any isHole := by
        cases ps with
        | nil => rfl
        | cons q qs => rw [List.getLast?_cons_cons]
      have hindex : x.2 + (values (value v :: ps)).length = x.2 + 1 + (values ps).length := by
        simp only [values, List.length_cons]
        omega
      rw [hlast, hindex]
      exact ih _
    | spread vs =>
      have hlast : ((spread vs :: ps).getLast?.any isHole) = ps.getLast?.any isHole := by
        cases ps with
        | nil => rfl
        | cons q qs => rw [List.getLast?_cons_cons]
      have hindex : x.2 + (values (spread vs :: ps)).length =
          x.2 + vs.length + (values ps).length := by
        simp only [values, List.length_append]
        omega
      rw [hlast, hindex, values, JsArray.defineAll_append]
      exact ih _
    | hole =>
      cases ps with
      | nil => rfl
      | cons q qs =>
        rw [List.getLast?_cons_cons]
        exact ih x

theorem length_storeInTurn_true_le {x : JsArray V × ℕ} (h : x.1.length ≤ x.2)
    (ps : List (Piece V)) : (storeInTurn true x ps).length ≤ x.2 + (values ps).length := by
  have hle := JsArray.length_defineAll_le h (values ps)
  rw [storeInTurn_true]
  split
  · rw [JsArray.length_setLength hle]
  · exact hle

theorem storeInTurn_append {pre : List (Piece V)} (hpre : ∀ p ∈ pre, p.isSpread = false)
    (x : JsArray V × ℕ) (p : Piece V) (ps : List (Piece V)) :
    storeInTurn false x (pre ++ p :: ps) = storeInTurn false (pre.foldl store x) (p :: ps) := by
  induction pre generalizing x with
  | nil => rfl
  | cons q pre ih =>
    obtain ⟨hq, hrest⟩ := List.forall_mem_cons.1 hpre
    cases q with
    | value v => exact ih hrest _
    | hole =>
      have hstep : storeInTurn false x (hole :: (pre ++ p :: ps)) =
          storeInTurn false (x.1, x.2 + 1) (pre ++ p :: ps) :=
        if_neg (by simp)
      rw [List.cons_append, hstep]
      exact ih hrest _
    | spread vs => cases hq

theorem storeInTurn_eq {ps : List (Piece V)} (hps : ∀ p ∈ ps, p.isSpread = false)
    (x : JsArray V × ℕ) :
    storeInTurn false x ps =
      if ps.getLast?.any isHole then (ps.foldl store x).1.setLength (ps.foldl store x).2
      else (ps.foldl store x).1 := by
  induction ps using List.reverseRecOn with
  | nil => rfl
  | append_singleton ps p ih =>
    obtain ⟨hfront, hlast⟩ := List.forall_mem_append.1 hps
    rw [storeInTurn_append hfront, List.foldl_append, List.getLast?_concat]
    have hp := hlast p (List.mem_singleton_self p)
    cases p with
    | value v => rfl
    | hole => rfl
    | spread vs => cases hp

theorem foldl_accumulate_of_no_hole {ps : List (Piece V)} (hps : hole ∉ ps) (y : JsArray V × ℕ) :
    (ps.foldl accumulate y).1 = y.1.defineAll y.2 (values ps) := by
  induction ps generalizing y with
  | nil => rfl
  | cons p ps ih =>
    obtain ⟨hp, hps⟩ := not_or.1 (mt List.mem_cons.2 hps)
    rw [List.foldl_cons, ih hps]
    cases p with
    | value v => rfl
    | hole => exact absurd rfl hp
    | spread vs => exact (JsArray.defineAll_append _ _ _ _).symm

theorem length_foldl_accumulate {y : JsArray V × ℕ} (hy : y.1.length = y.2) (ps : List (Piece V)) :
    (ps.foldl accumulate y).1.length = y.2 + (values ps).length + ps.countP isHole := by
  induction ps generalizing y with
  | nil => exact hy
  | cons p ps ih =>
    rw [List.foldl_cons]
    cases p with
    | value v =>
      have hstep := JsArray.length_defineOwn (Nat.le_of_eq hy) v
      rw [ih hstep, List.countP_cons_of_neg (by simp [isHole])]
      simp only [values, accumulate, List.length_cons]
      omega
    | hole =>
      have hstep : (y.1.setLength (y.2 + 1)).length = y.2 + 1 := JsArray.length_setLength (by omega)
      rw [ih hstep, List.countP_cons_of_pos (by simp [isHole])]
      simp only [values, accumulate]
      omega
    | spread vs =>
      have hstep : (y.1.defineAll y.2 vs).length = y.2 + vs.length := by
        cases vs with
        | nil => exact hy
        | cons v vs => exact JsArray.length_defineAll_cons (Nat.le_of_eq hy) v vs
      rw [ih hstep, List.countP_cons_of_neg (by simp [isHole])]
      simp only [values, accumulate, List.length_append]
      omega

theorem isHole_iff {p : Piece V} : p.isHole = true ↔ p = hole := by
  cases p <;> simp [isHole]

/-- From the first spread on, the arrays are the same if and only if there are no more holes and, where
the array in front has left some out, a value comes. -/
theorem storeInTurn_true_iff {x y : JsArray V × ℕ} (h : Agree x y) (ps : List (Piece V)) :
    storeInTurn true x ps = (ps.foldl accumulate y).1 ↔
      hole ∉ ps ∧ (x.1.length < x.2 → values ps ≠ []) := by
  constructor
  · intro heq
    have hlength := congrArg List.length heq
    have hcode := length_storeInTurn_true_le h.le ps
    have hecma := length_foldl_accumulate h.length_eq ps
    have hindex := h.index_eq
    have hcount : ps.countP isHole = 0 := by omega
    have hnone : hole ∉ ps := fun hmem =>
      List.countP_eq_zero.1 hcount hole hmem rfl
    refine ⟨hnone, fun hlt hvalues => ?_⟩
    have hlast : ps.getLast?.any isHole = false := by
      rw [Bool.eq_false_iff]
      intro hany
      obtain ⟨p, hp, hhole⟩ := (Option.any_eq_true _ _).1 hany
      obtain rfl := isHole_iff.1 hhole
      exact hnone (List.mem_of_getLast? hp)
    rw [storeInTurn_true, hlast, hvalues] at hlength
    change x.1.length = _ at hlength
    rw [hecma, hvalues, List.length_nil] at hlength
    omega
  · rintro ⟨hnone, hsome⟩
    have hlast : ps.getLast?.any isHole = false := by
      rw [Bool.eq_false_iff]
      intro hany
      obtain ⟨p, hp, hhole⟩ := (Option.any_eq_true _ _).1 hany
      obtain rfl := isHole_iff.1 hhole
      exact hnone (List.mem_of_getLast? hp)
    rw [storeInTurn_true, hlast, foldl_accumulate_of_no_hole hnone]
    change x.1.defineAll x.2 (values ps) = _
    by_cases hlt : x.1.length < x.2
    · obtain ⟨v, vs, hvalues⟩ := List.exists_cons_of_ne_nil (hsome hlt)
      rw [hvalues, JsArray.defineAll_cons h.le, JsArray.defineAll_cons (Nat.le_of_eq h.length_eq),
        h.length_eq, Nat.sub_self, List.replicate_zero, List.append_nil, h.array_eq]
    · have hle := h.le
      rw [h.eq_of_length (by omega)]

/-- The array of the code is that of ECMAScript if and only if no hole is lost. -/
theorem storeInTurn_eq_iff (ps : List (Piece V)) :
    storeInTurn false ([], 0) ps = (ps.foldl accumulate ([], 0)).1 ↔ NoneLost ps := by
  unfold NoneLost
  have hsplit : ps.takeWhile (!·.isSpread) ++ ps.dropWhile (!·.isSpread) = ps :=
    List.takeWhile_append_dropWhile
  have hpre : ∀ p ∈ ps.takeWhile (!·.isSpread), p.isSpread = false := by
    intro p hp
    simpa using List.mem_takeWhile_imp hp
  have hpost : ∀ p qs, ps.dropWhile (!·.isSpread) = p :: qs → p.isSpread = true := by
    intro p qs heq
    have hne : ps.dropWhile (!·.isSpread) ≠ [] := by simp [heq]
    have hhead := List.head_dropWhile_not (fun p : Piece V => !p.isSpread) hne
    simpa [heq] using hhead
  generalize ps.takeWhile (!·.isSpread) = pre at hsplit hpre ⊢
  generalize ps.dropWhile (!·.isSpread) = post at hsplit hpost ⊢
  subst hsplit
  have hpair : ¬ [hole, spread []] <:+: pre := by
    intro hinfix
    have hspread := hpre (spread []) (List.IsInfix.subset hinfix (by simp))
    cases hspread
  cases post with
  | nil =>
    rw [List.append_nil, storeInTurn_eq hpre]
    refine iff_of_true ((storeAll_eq_iff pre).2 hpair) ?_
    simp
  | cons p qs =>
    have hp := hpost p qs rfl
    have hagree := agree_nil.foldl hpair fun hlt => absurd hlt (Nat.lt_irrefl 0)
    have hlt := foldl_store_lt_iff pre
    have hhole : pre.getLast?.any isHole = true ↔ pre.getLast? = some hole := by
      constructor
      · intro hany
        obtain ⟨q, hq, hq'⟩ := (Option.any_eq_true _ _).1 hany
        rw [hq, isHole_iff.1 hq']
      · intro hlast
        rw [hlast]
        rfl
    have hfirst : storeInTurn false ([], 0) (pre ++ p :: qs) =
        storeInTurn true (pre.foldl store ([], 0)) (p :: qs) := by
      rw [storeInTurn_append hpre]
      cases p with
      | spread vs => rfl
      | value v | hole => cases hp
    rw [hfirst, List.foldl_append, storeInTurn_true_iff hagree, hlt, hhole]
    simp

end Piece

end ArkTs2abc.Es2panda

namespace ArkTs2abc.Ts2panda

open Es2panda ArraySem

variable {E V ε σ : Type} (sem : ArraySem E V ε σ)

/-- For all element lists and all meanings of their subexpressions: the code leaves ECMAScript's array
in `arrayObj`, with the same effects or the same exception, if and only if no hole is lost. -/
theorem run_createArrayFromElements_iff (elements : List (Element E V)) (s : σ) :
    (sem.run (createArrayFromElements elements) { state := s } >>= arrayObj) =
        thrown (sem.arrayLiteral elements s) ↔
      ∀ ps s', sem.pieces elements s = .ok (ps, s') → Piece.NoneLost ps := by
  rw [run_createArrayFromElements, arrayLiteral, arrayAccumulation_eq, thrown_map]
  cases hx : sem.pieces elements s with
  | error err =>
    refine iff_of_true rfl ?_
    intro ps s' h
    cases h
  | ok x =>
    constructor
    · intro heq ps s' hps
      cases hps
      have harray := congrArg Prod.fst (Except.ok.inj heq)
      exact (Piece.storeInTurn_eq_iff ps).1 harray
    · intro hps
      have harray := (Piece.storeInTurn_eq_iff x.1).2 (hps x.1 x.2 rfl)
      exact congrArg Except.ok (Prod.ext harray rfl)

/-- `[...[0], , 1]` is built without its hole. -/
theorem run_createArrayFromElements_spread_hole :
    (literal.run (createArrayFromElements [.spread [0], .omitted, .constant [1]]) { state := () } >>=
        arrayObj) ≠
      thrown (literal.arrayLiteral [.spread [0], .omitted, .constant [1]] ()) := by
  intro h
  have hlength := congrArg (fun x => match x with
    | .ok (array, _) => some array.length
    | .error _ => none) h
  exact absurd hlength (by decide)

end ArkTs2abc.Ts2panda
