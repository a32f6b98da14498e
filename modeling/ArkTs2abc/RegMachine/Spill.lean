import Mathlib.Data.List.Induction
import Mathlib.Logic.Function.Basic
import Mathlib.Algebra.Ring.Nat

/-!
# Spilled instructions on a register machine

An instruction reads the accumulator and its source operands, in operand order,
and either throws or gives a new accumulator and one value for each destination.
To execute it with other registers, each replaced operand is given a slot: the
register it is replaced by is saved, the operand is moved in if it is read, and
after the instruction it is moved out if it was written and the register is
restored.

## Main definitions

* `RegFile`, `exec` — the machine.
* `Slot`, `Replaced` — replaced operands.
* `Apart` — the registers of the slots do not get in each other's way.

## Main results

* `exec_spilled` — the sequence does what the instruction does.
* `throwKeeps_of_idle`, `idle_of_throwKeeps` — when the registers are kept although the instruction
  throws in the middle of the sequence.
-/

namespace RegMachine

structure Operand (R : Type) where
  reg : R
  isSrc : Bool
  isDst : Bool
  deriving DecidableEq, Repr

/-- Accumulator and registers. -/
@[ext] structure RegFile (R V : Type) where
  acc : V
  regs : R → V

/-- What one instruction does: from the accumulator and the sources to the new accumulator and the
value of the destination at each operand position; `none` when it throws. -/
abbrev Meaning (V : Type) := V → List V → Option (V × (ℕ → V))

inductive Instr (R : Type) where
  | mov (dst src : R)
  | node (operands : List (Operand R))

variable {R V : Type} [DecidableEq R]

namespace RegFile

def set (m : RegFile R V) (r : R) (v : V) : RegFile R V :=
  { m with regs := Function.update m.regs r v }

def sources (m : RegFile R V) (operands : List (Operand R)) : List V :=
  (operands.filter (·.isSrc)).map (m.regs ·.reg)

/-- The last position from `i` on at which a register is a destination. -/
def lastDst (r : R) : ℕ → List (Operand R) → Option ℕ
  | _, [] => none
  | i, o :: os => (lastDst r (i + 1) os).or (if o.isDst ∧ o.reg = r then some i else none)

/-- Destinations are written in operand order. -/
def writeDsts (out : ℕ → V) : ℕ → List (Operand R) → (R → V) → R → V
  | _, [], regs => regs
  | i, o :: os, regs =>
    writeDsts out (i + 1) os (if o.isDst then Function.update regs o.reg (out i) else regs)

def execNode (f : Meaning V) (operands : List (Operand R)) (m : RegFile R V) :
    Option (RegFile R V) :=
  (f m.acc (m.sources operands)).map fun (acc, out) =>
    { acc, regs := writeDsts out 0 operands m.regs }

@[simp] theorem set_regs_self (m : RegFile R V) (r : R) (v : V) : (m.set r v).regs r = v :=
  Function.update_self ..

theorem set_regs_of_ne (m : RegFile R V) {r r' : R} (h : r' ≠ r) (v : V) :
    (m.set r v).regs r' = m.regs r' :=
  Function.update_of_ne h ..

theorem writeDsts_eq (out : ℕ → V) (i : ℕ) (os : List (Operand R)) (regs : R → V) (r : R) :
    writeDsts out i os regs r = ((lastDst r i os).map out).getD (regs r) := by
  induction os generalizing i regs with
  | nil => rfl
  | cons o os ih =>
    rw [writeDsts, ih, lastDst]
    cases lastDst r (i + 1) os with
    | some j => rfl
    | none =>
      by_cases hd : o.isDst
      · by_cases hr : o.reg = r
        · subst hr
          simp [hd]
        · simp [hd, hr, Function.update_of_ne (Ne.symm hr)]
      · simp [hd]

theorem lastDst_eq_none {r : R} {i : ℕ} {os : List (Operand R)}
    (h : ∀ o ∈ os, o.isDst → o.reg ≠ r) : lastDst r i os = none := by
  induction os generalizing i with
  | nil => rfl
  | cons o os ih =>
    obtain ⟨ho, hos⟩ := List.forall_mem_cons.mp h
    rw [lastDst, ih hos]
    by_cases hd : o.isDst
    · simp [ho hd]
    · simp [hd]

end RegFile

/-- Running a sequence; every node stands for the same instruction. -/
def exec (f : Meaning V) : List (Instr R) → RegFile R V → Option (RegFile R V)
  | [], m => some m
  | .mov dst src :: code, m => exec f code (m.set dst (m.regs src))
  | .node operands :: code, m => (m.execNode f operands).bind (exec f code)

/-- The machine at the point where the instruction throws. -/
def throwState (f : Meaning V) : List (Instr R) → RegFile R V → Option (RegFile R V)
  | [], _ => none
  | .mov dst src :: code, m => throwState f code (m.set dst (m.regs src))
  | .node operands :: code, m =>
    match m.execNode f operands with
    | some m' => throwState f code m'
    | none => some m

/-- A replaced operand: the register that stands in for it, and where that one is saved. -/
structure Slot (R : Type) where
  origin : R
  tmp : R
  spill : R
  isSrc : Bool
  isDst : Bool

namespace Slot

def operand (s : Slot R) : Operand R := ⟨s.origin, s.isSrc, s.isDst⟩

def replacement (s : Slot R) : Operand R := ⟨s.tmp, s.isSrc, s.isDst⟩

/-- Save the stand-in, and move the operand in. -/
def head (s : Slot R) : List (Instr R) :=
  .mov s.spill s.tmp :: if s.isSrc then [.mov s.tmp s.origin] else []

/-- Move the result out, and restore the stand-in. -/
def tail (s : Slot R) : List (Instr R) :=
  (if s.isDst then [.mov s.origin s.tmp] else []) ++ [.mov s.tmp s.spill]

end Slot

/-- The operands after those with a slot have been replaced. -/
inductive Replaced : List (Slot R) → List (Operand R) → List (Operand R) → Prop where
  | nil : Replaced [] [] []
  | keep {slots os os'} (o : Operand R) : Replaced slots os os' →
      Replaced slots (o :: os) (o :: os')
  | slot {slots os os'} (s : Slot R) : Replaced slots os os' →
      Replaced (s :: slots) (s.operand :: os) (s.replacement :: os')

/-- Stand-ins and saving places are all different, no operand is one of them, and an operand that is
moved out of its slot is not written in place as well. -/
structure Apart (slots : List (Slot R)) (os os' : List (Operand R)) : Prop where
  tmp_nodup : (slots.map Slot.tmp).Nodup
  spill_nodup : (slots.map Slot.spill).Nodup
  tmp_ne_spill : ∀ s ∈ slots, ∀ s' ∈ slots, s.tmp ≠ s'.spill
  tmp_not_operand : ∀ s ∈ slots, ∀ o ∈ os, o.reg ≠ s.tmp
  spill_not_operand : ∀ s ∈ slots, ∀ o ∈ os, o.reg ≠ s.spill
  dst_replaced : ∀ s ∈ slots, s.isDst → ∀ o ∈ os', o.isDst → o.reg ≠ s.origin

/-! ## Entering and leaving the slots -/

namespace Slot

def enter (s : Slot R) (m : RegFile R V) : RegFile R V :=
  let m := m.set s.spill (m.regs s.tmp)
  if s.isSrc then m.set s.tmp (m.regs s.origin) else m

def leave (s : Slot R) (m : RegFile R V) : RegFile R V :=
  let m := if s.isDst then m.set s.origin (m.regs s.tmp) else m
  m.set s.tmp (m.regs s.spill)

end Slot

def enterAll : List (Slot R) → RegFile R V → RegFile R V
  | [], m => m
  | s :: slots, m => enterAll slots (s.enter m)

def leaveAll : List (Slot R) → RegFile R V → RegFile R V
  | [], m => m
  | s :: slots, m => leaveAll slots (s.leave m)

section

variable (f : Meaning V) (slots : List (Slot R))
include f slots

theorem exec_head (code : List (Instr R))
    (m : RegFile R V) :
    exec f (slots.flatMap Slot.head ++ code) m = exec f code (enterAll slots m) := by
  induction slots generalizing m with
  | nil => rfl
  | cons s slots ih =>
    rw [List.flatMap_cons, List.append_assoc, enterAll, ← ih]
    unfold Slot.head Slot.enter
    split <;> rfl

theorem throwState_head (code : List (Instr R))
    (m : RegFile R V) :
    throwState f (slots.flatMap Slot.head ++ code) m = throwState f code (enterAll slots m) := by
  induction slots generalizing m with
  | nil => rfl
  | cons s slots ih =>
    rw [List.flatMap_cons, List.append_assoc, enterAll, ← ih]
    unfold Slot.head Slot.enter
    split <;> rfl

theorem exec_tail (m : RegFile R V) :
    exec f (slots.flatMap Slot.tail) m = some (leaveAll slots m) := by
  induction slots generalizing m with
  | nil => rfl
  | cons s slots ih =>
    rw [List.flatMap_cons, leaveAll, ← ih]
    unfold Slot.tail Slot.leave
    split <;> rfl

theorem throwState_tail (m : RegFile R V) :
    throwState f (slots.flatMap Slot.tail) m = none := by
  induction slots generalizing m with
  | nil => rfl
  | cons s slots ih =>
    rw [List.flatMap_cons]
    unfold Slot.tail
    split <;> exact ih _

end

/-- What of `Apart` is about the slots alone. -/
structure SlotsApart (slots : List (Slot R)) : Prop where
  tmp_nodup : (slots.map Slot.tmp).Nodup
  spill_nodup : (slots.map Slot.spill).Nodup
  tmp_ne_spill : ∀ s ∈ slots, ∀ s' ∈ slots, s.tmp ≠ s'.spill
  origin_ne_tmp : ∀ s ∈ slots, ∀ s' ∈ slots, s.origin ≠ s'.tmp
  origin_ne_spill : ∀ s ∈ slots, ∀ s' ∈ slots, s.origin ≠ s'.spill

namespace SlotsApart

variable {s : Slot R} {slots : List (Slot R)}

omit [DecidableEq R] in
theorem of_cons (h : SlotsApart (s :: slots)) : SlotsApart slots where
  tmp_nodup := (List.nodup_cons.mp h.tmp_nodup).2
  spill_nodup := (List.nodup_cons.mp h.spill_nodup).2
  tmp_ne_spill a ha b hb := h.tmp_ne_spill a (.tail _ ha) b (.tail _ hb)
  origin_ne_tmp a ha b hb := h.origin_ne_tmp a (.tail _ ha) b (.tail _ hb)
  origin_ne_spill a ha b hb := h.origin_ne_spill a (.tail _ ha) b (.tail _ hb)

omit [DecidableEq R] in
theorem head_tmp_ne (h : SlotsApart (s :: slots)) {s' : Slot R} (hs' : s' ∈ slots) :
    s.tmp ≠ s'.tmp := by
  intro heq
  exact (List.nodup_cons.mp h.tmp_nodup).1 (heq ▸ List.mem_map_of_mem hs')

omit [DecidableEq R] in
theorem head_spill_ne (h : SlotsApart (s :: slots)) {s' : Slot R} (hs' : s' ∈ slots) :
    s.spill ≠ s'.spill := by
  intro heq
  exact (List.nodup_cons.mp h.spill_nodup).1 (heq ▸ List.mem_map_of_mem hs')

end SlotsApart

section Enter

variable {slots : List (Slot R)} {m : RegFile R V} {s : Slot R} {r : R}

theorem Slot.enter_regs_of_ne (ht : r ≠ s.tmp) (hs : r ≠ s.spill) :
    (s.enter m).regs r = m.regs r := by
  unfold Slot.enter
  split
  · rw [RegFile.set_regs_of_ne _ ht, RegFile.set_regs_of_ne _ hs]
  · rw [RegFile.set_regs_of_ne _ hs]

theorem Slot.enter_spill (h : s.tmp ≠ s.spill) : (s.enter m).regs s.spill = m.regs s.tmp := by
  unfold Slot.enter
  split
  · rw [RegFile.set_regs_of_ne _ h.symm, RegFile.set_regs_self]
  · rw [RegFile.set_regs_self]

theorem Slot.enter_tmp (h : s.tmp ≠ s.spill) (ho : s.origin ≠ s.spill) :
    (s.enter m).regs s.tmp = if s.isSrc then m.regs s.origin else m.regs s.tmp := by
  unfold Slot.enter
  split
  · rw [RegFile.set_regs_self, RegFile.set_regs_of_ne _ ho]
  · rw [RegFile.set_regs_of_ne _ h]

@[simp] theorem enterAll_acc : (enterAll slots m).acc = m.acc := by
  induction slots generalizing m with
  | nil => rfl
  | cons s slots ih =>
    rw [enterAll, ih]
    unfold Slot.enter
    split <;> rfl

theorem enterAll_regs_of_ne (ht : ∀ s ∈ slots, r ≠ s.tmp) (hs : ∀ s ∈ slots, r ≠ s.spill) :
    (enterAll slots m).regs r = m.regs r := by
  induction slots generalizing m with
  | nil => rfl
  | cons s slots ih =>
    obtain ⟨ht₁, ht⟩ := List.forall_mem_cons.mp ht
    obtain ⟨hs₁, hs⟩ := List.forall_mem_cons.mp hs
    rw [enterAll, ih ht hs, Slot.enter_regs_of_ne ht₁ hs₁]

theorem enterAll_spill (h : SlotsApart slots) (hs : s ∈ slots) :
    (enterAll slots m).regs s.spill = m.regs s.tmp := by
  induction slots generalizing m with
  | nil => cases hs
  | cons s₁ slots ih =>
    rw [enterAll]
    rcases List.mem_cons.mp hs with rfl | hs'
    · rw [enterAll_regs_of_ne (fun s' hs' => (h.tmp_ne_spill s' (.tail _ hs') s hs).symm)
        fun s' hs' => h.head_spill_ne hs']
      exact Slot.enter_spill (h.tmp_ne_spill s hs s hs)
    · rw [ih h.of_cons hs']
      exact Slot.enter_regs_of_ne (h.head_tmp_ne hs').symm (h.tmp_ne_spill s hs s₁ List.mem_cons_self)

theorem enterAll_tmp (h : SlotsApart slots) (hs : s ∈ slots) :
    (enterAll slots m).regs s.tmp = if s.isSrc then m.regs s.origin else m.regs s.tmp := by
  induction slots generalizing m with
  | nil => cases hs
  | cons s₁ slots ih =>
    rw [enterAll]
    rcases List.mem_cons.mp hs with rfl | hs'
    · rw [enterAll_regs_of_ne (fun s' hs' => h.head_tmp_ne hs')
        fun s' hs' => h.tmp_ne_spill s hs s' (.tail _ hs')]
      exact Slot.enter_tmp (h.tmp_ne_spill s hs s hs) (h.origin_ne_spill s hs s hs)
    · rw [ih h.of_cons hs']
      have hfirst : s₁ ∈ s₁ :: slots := List.mem_cons_self
      rw [Slot.enter_regs_of_ne (h.origin_ne_tmp s hs s₁ hfirst) (h.origin_ne_spill s hs s₁ hfirst),
        Slot.enter_regs_of_ne (h.head_tmp_ne hs').symm (h.tmp_ne_spill s hs s₁ hfirst)]

end Enter

/-- The stand-in whose value a register gets last. -/
def lastTmp (r : R) : List (Slot R) → Option R
  | [] => none
  | s :: slots => (lastTmp r slots).or (if s.isDst ∧ s.origin = r then some s.tmp else none)

theorem exists_of_lastTmp {r t : R} {slots : List (Slot R)} (h : lastTmp r slots = some t) :
    ∃ s ∈ slots, s.isDst ∧ s.origin = r ∧ s.tmp = t := by
  induction slots with
  | nil => cases h
  | cons s slots ih =>
    rw [lastTmp] at h
    rcases Option.or_eq_some_iff.mp h with h | ⟨-, h⟩
    · obtain ⟨s', hs', h'⟩ := ih h
      exact ⟨s', .tail _ hs', h'⟩
    · split at h
      · next hd => exact ⟨s, List.mem_cons_self, hd.1, hd.2, Option.some.inj h⟩
      · cases h

section Leave

variable {slots : List (Slot R)} {m : RegFile R V} {s : Slot R} {r : R}

theorem Slot.leave_regs_of_ne (ht : r ≠ s.tmp) (ho : s.isDst → r ≠ s.origin) :
    (s.leave m).regs r = m.regs r := by
  unfold Slot.leave
  rw [RegFile.set_regs_of_ne _ ht]
  split
  · next hd => rw [RegFile.set_regs_of_ne _ (ho hd)]
  · rfl

theorem Slot.leave_origin (ht : s.origin ≠ s.tmp) (hd : s.isDst) :
    (s.leave m).regs s.origin = m.regs s.tmp := by
  unfold Slot.leave
  rw [RegFile.set_regs_of_ne _ ht, if_pos hd, RegFile.set_regs_self]

theorem Slot.leave_tmp (ho : s.origin ≠ s.spill) : (s.leave m).regs s.tmp = m.regs s.spill := by
  unfold Slot.leave
  rw [RegFile.set_regs_self]
  split
  · rw [RegFile.set_regs_of_ne _ ho.symm]
  · rfl

@[simp] theorem leaveAll_acc : (leaveAll slots m).acc = m.acc := by
  induction slots generalizing m with
  | nil => rfl
  | cons s slots ih =>
    rw [leaveAll, ih]
    unfold Slot.leave
    split <;> rfl

theorem leaveAll_regs (h : SlotsApart slots) (ht : ∀ s ∈ slots, r ≠ s.tmp) :
    (leaveAll slots m).regs r = m.regs ((lastTmp r slots).getD r) := by
  induction slots generalizing m with
  | nil => rfl
  | cons s slots ih =>
    obtain ⟨ht₁, ht⟩ := List.forall_mem_cons.mp ht
    have hfirst : s ∈ s :: slots := List.mem_cons_self
    rw [leaveAll, ih h.of_cons ht, lastTmp]
    cases hlast : lastTmp r slots with
    | some t =>
      obtain ⟨s', hs', -, -, rfl⟩ := exists_of_lastTmp hlast
      exact Slot.leave_regs_of_ne (h.head_tmp_ne hs').symm
        fun _ => (h.origin_ne_tmp s hfirst s' (.tail _ hs')).symm
    | none =>
      by_cases hd : s.isDst ∧ s.origin = r
      · obtain ⟨hd, rfl⟩ := hd
        simpa [hd] using Slot.leave_origin (m := m) ht₁ hd
      · simp only [hd, if_false, Option.or_none, Option.getD_none]
        exact Slot.leave_regs_of_ne ht₁ fun hdst heq => hd ⟨hdst, heq.symm⟩

theorem leaveAll_tmp (h : SlotsApart slots) (hs : s ∈ slots) :
    (leaveAll slots m).regs s.tmp = m.regs s.spill := by
  induction slots generalizing m with
  | nil => cases hs
  | cons s₁ slots ih =>
    rw [leaveAll]
    rcases List.mem_cons.mp hs with rfl | hs'
    · have hlast : lastTmp s.tmp slots = none := by
        cases hlast : lastTmp s.tmp slots with
        | none => rfl
        | some t =>
          obtain ⟨s', hs', -, heq, -⟩ := exists_of_lastTmp hlast
          exact absurd heq (h.origin_ne_tmp s' (.tail _ hs') s hs)
      rw [leaveAll_regs h.of_cons fun s' hs' => h.head_tmp_ne hs', hlast]
      exact Slot.leave_tmp (h.origin_ne_spill s hs s hs)
    · rw [ih h.of_cons hs']
      exact Slot.leave_regs_of_ne (h.tmp_ne_spill s₁ List.mem_cons_self s hs).symm
        fun _ => (h.origin_ne_spill s₁ List.mem_cons_self s hs).symm

end Leave

/-! ## The instruction over its stand-ins -/

section Replaced

variable {slots : List (Slot R)} {os os' : List (Operand R)} {s : Slot R} {r : R}

omit [DecidableEq R] in
theorem Replaced.operand_mem (h : Replaced slots os os') (hs : s ∈ slots) : s.operand ∈ os := by
  induction h with
  | nil => cases hs
  | keep o _ ih => exact .tail _ (ih hs)
  | slot s' _ ih =>
    rcases List.mem_cons.mp hs with rfl | hs
    · exact List.mem_cons_self
    · exact .tail _ (ih hs)

omit [DecidableEq R] in
theorem Replaced.mem_or (h : Replaced slots os os') {o : Operand R} (ho : o ∈ os') :
    o ∈ os ∨ ∃ s ∈ slots, o = s.replacement := by
  induction h with
  | nil => cases ho
  | keep o' _ ih =>
    rcases List.mem_cons.mp ho with rfl | ho
    · exact .inl List.mem_cons_self
    · exact (ih ho).imp_left (.tail _)
  | slot s _ ih =>
    rcases List.mem_cons.mp ho with rfl | ho
    · exact .inr ⟨s, List.mem_cons_self, rfl⟩
    · refine (ih ho).imp (.tail _) ?_
      rintro ⟨s', hs', rfl⟩
      exact ⟨s', .tail _ hs', rfl⟩

omit [DecidableEq R] in
theorem Apart.slotsApart (h : Apart slots os os') (hrep : Replaced slots os os') :
    SlotsApart slots where
  tmp_nodup := h.tmp_nodup
  spill_nodup := h.spill_nodup
  tmp_ne_spill := h.tmp_ne_spill
  origin_ne_tmp _ hs s' hs' := h.tmp_not_operand s' hs' _ (hrep.operand_mem hs)
  origin_ne_spill _ hs s' hs' := h.spill_not_operand s' hs' _ (hrep.operand_mem hs)

omit [DecidableEq R] in
theorem Replaced.sources_eq {m m' : RegFile R V} (h : Replaced slots os os')
    (hkeep : ∀ o ∈ os, m'.regs o.reg = m.regs o.reg)
    (hslot : ∀ s ∈ slots, s.isSrc → m'.regs s.tmp = m.regs s.origin) :
    m'.sources os' = m.sources os := by
  induction h with
  | nil => rfl
  | keep o _ ih =>
    obtain ⟨ho, hos⟩ := List.forall_mem_cons.mp hkeep
    have ih := ih hos hslot
    unfold RegFile.sources at ih ⊢
    by_cases hsrc : o.isSrc <;> simp [hsrc, ih, ho]
  | slot s _ ih =>
    obtain ⟨-, hos⟩ := List.forall_mem_cons.mp hkeep
    obtain ⟨hs, hslots⟩ := List.forall_mem_cons.mp hslot
    have ih := ih hos hslots
    unfold RegFile.sources at ih ⊢
    by_cases hsrc : s.isSrc
    · simp [Slot.operand, Slot.replacement, hsrc, ih, hs hsrc]
    · simp [Slot.operand, Slot.replacement, hsrc, ih]

theorem Replaced.lastDst_isSome (h : Replaced slots os os') {t : R} (ht : lastTmp r slots = some t)
    (i : ℕ) : (RegFile.lastDst r i os).isSome := by
  induction h generalizing i with
  | nil => cases ht
  | keep o _ ih =>
    rw [RegFile.lastDst, Option.isSome_or, ih ht]
    rfl
  | slot s _ ih =>
    rw [lastTmp] at ht
    rw [RegFile.lastDst, Option.isSome_or]
    rcases Option.or_eq_some_iff.mp ht with ht | ⟨-, ht⟩
    · rw [ih ht]
      rfl
    · split at ht
      · next hd => simp [Slot.operand, hd]
      · cases ht

/-- What is written last to a register is written last to the place it is taken from. -/
theorem Replaced.lastDst_eq (h : Replaced slots os os') (hnodup : (slots.map Slot.tmp).Nodup)
    (htmp : ∀ s ∈ slots, ∀ o ∈ os, o.reg ≠ s.tmp)
    (hdst : ∀ s ∈ slots, s.isDst → ∀ o ∈ os', o.isDst → o.reg ≠ s.origin)
    (hr : ∀ s ∈ slots, r ≠ s.tmp) (i : ℕ) :
    RegFile.lastDst r i os = RegFile.lastDst ((lastTmp r slots).getD r) i os' := by
  induction h generalizing i with
  | nil => rfl
  | @keep slots os os' o h ih =>
    have ih := ih hnodup (fun s hs o ho => htmp s hs o (.tail _ ho))
      (fun s hs hd o ho => hdst s hs hd o (.tail _ ho)) hr (i + 1)
    rw [RegFile.lastDst, RegFile.lastDst, ih]
    congr 1
    cases hlast : lastTmp r slots with
    | none => rfl
    | some t =>
      obtain ⟨s, hs, hsd, rfl, rfl⟩ := exists_of_lastTmp hlast
      have hne : o.reg ≠ s.tmp := htmp s hs o List.mem_cons_self
      by_cases hd : o.isDst
      · have hne' : o.reg ≠ s.origin := hdst s hs hsd o List.mem_cons_self hd
        simp [hne, hne']
      · simp [hd]
  | @slot slots os os' s h ih =>
    obtain ⟨hnot, hnodup⟩ := List.nodup_cons.mp hnodup
    obtain ⟨hr₁, hr⟩ := List.forall_mem_cons.mp hr
    have htmp' : ∀ s' ∈ slots, ∀ o ∈ os, o.reg ≠ s'.tmp := fun s' hs' o ho =>
      htmp s' (.tail _ hs') o (.tail _ ho)
    have ih := ih hnodup htmp'
      (fun s' hs' hd o ho => hdst s' (.tail _ hs') hd o (.tail _ ho)) hr (i + 1)
    rw [RegFile.lastDst, RegFile.lastDst, lastTmp]
    cases hlast : lastTmp r slots with
    | some t =>
      -- the last write is further to the right, on both sides
      obtain ⟨j, hj⟩ := Option.isSome_iff_exists.mp (h.lastDst_isSome hlast (i + 1))
      rw [hlast] at ih
      rw [hj] at ih ⊢
      simp only [Option.getD_some] at ih
      simp only [Option.some_or, Option.getD_some, ← ih]
    | none =>
      rw [hlast] at ih
      simp only [Option.getD_none] at ih
      by_cases hd : s.isDst ∧ s.origin = r
      · obtain ⟨hsd, rfl⟩ := hd
        have hno : RegFile.lastDst s.origin (i + 1) os' = none :=
          RegFile.lastDst_eq_none fun o ho hod => hdst s List.mem_cons_self hsd o (.tail _ ho) hod
        have hno' : RegFile.lastDst s.tmp (i + 1) os' = none := by
          refine RegFile.lastDst_eq_none fun o ho _ heq => ?_
          rcases h.mem_or ho with ho | ⟨s', hs', rfl⟩
          · exact htmp s List.mem_cons_self o (.tail _ ho) heq
          · exact hnot (List.mem_map.mpr ⟨s', hs', heq⟩)
        simp [ih, hno, hno', hsd, Slot.operand, Slot.replacement]
      · have hd' : ¬ (s.isDst ∧ s.tmp = r) := fun ⟨_, heq⟩ => hr₁ heq.symm
        simp [ih, hd, hd', Slot.operand, Slot.replacement]

end Replaced

/-- An instruction between the moves of its slots. -/
def spilled (slots : List (Slot R)) (os' : List (Operand R)) : List (Instr R) :=
  slots.flatMap Slot.head ++ .node os' :: slots.flatMap Slot.tail

/-- The two machines agree on the accumulator and on the registers of a set. -/
def RegFile.AgreeOn (P : R → Prop) (m m' : RegFile R V) : Prop :=
  m.acc = m'.acc ∧ ∀ r, P r → m.regs r = m'.regs r

section Simulation

variable {slots : List (Slot R)} {os os' : List (Operand R)} {P : R → Prop}

/-- The sequence completes when the instruction does, and agrees with it on all registers but the
saving places. -/
theorem exec_spilled (f : Meaning V) (hrep : Replaced slots os os') (h : Apart slots os os')
    (hP : ∀ s ∈ slots, ¬ P s.spill) (m : RegFile R V) :
    Option.Rel (RegFile.AgreeOn P) (m.execNode f os) (exec f (spilled slots os') m) := by
  have hslots := h.slotsApart hrep
  have hsources : (enterAll slots m).sources os' = m.sources os := by
    refine hrep.sources_eq (fun o ho => ?_) fun s hs hsrc => ?_
    · exact enterAll_regs_of_ne (fun s hs => h.tmp_not_operand s hs o ho)
        fun s hs => h.spill_not_operand s hs o ho
    · rw [enterAll_tmp hslots hs, if_pos hsrc]
  unfold spilled
  rw [exec_head, exec]
  unfold RegFile.execNode
  rw [hsources, enterAll_acc]
  cases f m.acc (m.sources os) with
  | none => exact .none
  | some result =>
    obtain ⟨acc, out⟩ := result
    simp only [Option.map_some, Option.bind_some, exec_tail]
    refine .some ⟨by rw [leaveAll_acc], fun r hPr => ?_⟩
    have hspill : ∀ s ∈ slots, r ≠ s.spill := fun s hs heq => hP s hs (heq ▸ hPr)
    by_cases ht : ∃ s ∈ slots, r = s.tmp
    · -- a stand-in is restored
      obtain ⟨s, hs, rfl⟩ := ht
      have hnone : RegFile.lastDst s.tmp 0 os = none :=
        RegFile.lastDst_eq_none fun o ho _ => h.tmp_not_operand s hs o ho
      have hnone' : RegFile.lastDst s.spill 0 os' = none := by
        refine RegFile.lastDst_eq_none fun o ho _ heq => ?_
        rcases hrep.mem_or ho with ho | ⟨s', hs', rfl⟩
        · exact h.spill_not_operand s hs o ho heq
        · exact h.tmp_ne_spill s' hs' s hs heq
      rw [leaveAll_tmp hslots hs]
      simp only [RegFile.writeDsts_eq, hnone, hnone']
      exact (enterAll_spill hslots hs).symm
    · have ht : ∀ s ∈ slots, r ≠ s.tmp := fun s hs heq => ht ⟨s, hs, heq⟩
      have hdst := hrep.lastDst_eq h.tmp_nodup h.tmp_not_operand h.dst_replaced ht 0
      rw [leaveAll_regs hslots ht]
      simp only [RegFile.writeDsts_eq]
      rw [hdst]
      cases hlast : lastTmp r slots with
      | none => rw [Option.getD_none, enterAll_regs_of_ne ht hspill]
      | some t =>
        obtain ⟨j, hj⟩ := Option.isSome_iff_exists.mp (hrep.lastDst_isSome hlast 0)
        rw [hdst, hlast] at hj
        rw [hj]
        rfl

end Simulation

/-! ## When the instruction throws -/

/-- Whichever instruction of the sequence throws, the registers of a set hold what they held. -/
def ThrowKeeps (P : R → Prop) (code : List (Instr R)) : Prop :=
  ∀ (V : Type) (f : Meaning V) (m m' : RegFile R V), throwState f code m = some m' →
    ∀ r, P r → m'.regs r = m.regs r

section ThrowKeeps

variable {slots : List (Slot R)} {os' : List (Operand R)} {P : R → Prop}
  {rest : List (Instr R)}

theorem throwState_entered (f : Meaning V) (m : RegFile R V)
    (hrest : ∀ m : RegFile R V, throwState f rest m = none) :
    throwState f (slots.flatMap Slot.head ++ .node os' :: rest) m =
      if f (enterAll slots m).acc ((enterAll slots m).sources os') = none
      then some (enterAll slots m) else none := by
  rw [throwState_head, throwState]
  unfold RegFile.execNode
  cases f (enterAll slots m).acc ((enterAll slots m).sources os') with
  | none => rfl
  | some result => exact hrest _

theorem enterAll_append (slots slots' : List (Slot R)) (m : RegFile R V) :
    enterAll (slots ++ slots') m = enterAll slots' (enterAll slots m) := by
  induction slots generalizing m with
  | nil => rfl
  | cons s slots ih => exact ih _

theorem enterAll_keeps {m : RegFile R V} (hspill : ∀ s ∈ slots, ¬ P s.spill)
    (hidle : ∀ s ∈ slots, s.isSrc → P s.tmp → s.tmp = s.origin) {r : R} (hr : P r) :
    (enterAll slots m).regs r = m.regs r := by
  induction slots generalizing m with
  | nil => rfl
  | cons s slots ih =>
    obtain ⟨hspill₁, hspill⟩ := List.forall_mem_cons.mp hspill
    obtain ⟨hidle₁, hidle⟩ := List.forall_mem_cons.mp hidle
    rw [enterAll, ih hspill hidle]
    have hne : r ≠ s.spill := fun heq => hspill₁ (heq ▸ hr)
    unfold Slot.enter
    split
    · next hsrc =>
      by_cases ht : r = s.tmp
      · subst ht
        have hor := hidle₁ hsrc hr
        rw [RegFile.set_regs_self, ← hor, RegFile.set_regs_of_ne _ hne]
      · rw [RegFile.set_regs_of_ne _ ht, RegFile.set_regs_of_ne _ hne]
    · rw [RegFile.set_regs_of_ne _ hne]

/-- The last slot left two registers with one value, unless its operand is its own stand-in; then the
slots before it have changed nothing either. -/
theorem idle_of_enterAll {m : RegFile R V} (hinj : ∀ r r', P r → P r' → m.regs r = m.regs r' → r = r')
    (horigin : ∀ s ∈ slots, P s.origin) (hspill : ∀ s ∈ slots, P s.spill → P s.tmp)
    (h : ∀ r, P r → (enterAll slots m).regs r = m.regs r) :
    ∀ s ∈ slots, s.isSrc → P s.tmp → s.tmp = s.origin := by
  induction slots using List.reverseRecOn with
  | nil => nofun
  | append_singleton slots s ih =>
    have hmem : s ∈ slots ++ [s] := by simp
    have ho := horigin s hmem
    rw [enterAll_append] at h
    generalize hm₁ : enterAll slots m = m₁ at h ih
    -- what the saved register holds is in its stand-in as well
    have hsave : ∀ r, P r → (m₁.set s.spill (m₁.regs s.tmp)).regs r = m.regs r →
        (P s.tmp → (m₁.set s.spill (m₁.regs s.tmp)).regs s.tmp = m.regs s.tmp) →
        m₁.regs r = m.regs r := by
      intro r hr heq htmp
      by_cases hrs : r = s.spill
      · subst hrs
        by_cases hts : s.tmp = s.spill
        · rw [RegFile.set_regs_self, hts] at heq
          exact heq
        · have ht := hspill s hmem hr
          rw [RegFile.set_regs_self] at heq
          have htmp := htmp ht
          rw [RegFile.set_regs_of_ne _ hts] at htmp
          exact absurd (hinj _ _ ht hr (htmp.symm.trans heq)) hts
      · rwa [RegFile.set_regs_of_ne _ hrs] at heq
    have hlast : s.isSrc → P s.tmp → s.tmp = s.origin := by
      intro hsrc ht
      by_contra hne
      have h₁ := h _ ht
      have h₂ := h _ ho
      simp only [enterAll, Slot.enter, hsrc, ↓reduceIte, RegFile.set_regs_self] at h₁ h₂
      rw [RegFile.set_regs_of_ne _ (Ne.symm hne)] at h₂
      exact hne (hinj _ _ ht ho (h₁.symm.trans h₂))
    have hbefore : ∀ r, P r → (m₁.set s.spill (m₁.regs s.tmp)).regs r = m.regs r := by
      intro r hr
      have h₁ := h r hr
      simp only [enterAll, Slot.enter] at h₁
      split at h₁
      · next hsrc =>
        by_cases ht : r = s.tmp
        · subst ht
          rw [RegFile.set_regs_self, ← hlast hsrc hr] at h₁
          exact h₁
        · rwa [RegFile.set_regs_of_ne _ ht] at h₁
      · exact h₁
    intro s' hs'
    rcases List.mem_append.mp hs' with hs' | hs'
    · refine ih (fun s hs => horigin s (by simp [hs])) (fun s hs => hspill s (by simp [hs])) ?_ s' hs'
      exact fun r hr => hsave r hr (hbefore r hr) fun ht => hbefore _ ht
    · obtain rfl := List.mem_singleton.mp hs'
      exact hlast

theorem throwKeeps_of_idle
    (hrest : ∀ (V : Type) (f : Meaning V) (m : RegFile R V), throwState f rest m = none)
    (hspill : ∀ s ∈ slots, ¬ P s.spill)
    (hidle : ∀ s ∈ slots, s.isSrc → P s.tmp → s.tmp = s.origin) :
    ThrowKeeps P (slots.flatMap Slot.head ++ .node os' :: rest) := by
  intro V f m m' h r hr
  rw [throwState_entered f m (hrest V f)] at h
  split at h
  · cases h
    exact enterAll_keeps hspill hidle hr
  · cases h

theorem throwKeeps_node (P : R → Prop) (os : List (Operand R)) : ThrowKeeps P [.node os] := by
  intro V f m m' h r _
  unfold throwState at h
  split at h
  · cases h
  · cases h
    rfl

theorem idle_of_throwKeeps
    (hrest : ∀ (V : Type) (f : Meaning V) (m : RegFile R V), throwState f rest m = none)
    (horigin : ∀ s ∈ slots, P s.origin) (hspill : ∀ s ∈ slots, P s.spill → P s.tmp)
    (h : ThrowKeeps P (slots.flatMap Slot.head ++ .node os' :: rest)) :
    ∀ s ∈ slots, s.isSrc → P s.tmp → s.tmp = s.origin := by
  refine idle_of_enterAll (m := ⟨none, some⟩) (fun r r' _ _ heq => Option.some.inj heq) horigin
    hspill fun r hr => ?_
  refine h (Option R) (fun _ _ => none) _ _ ?_ r hr
  rw [throwState_entered _ _ (hrest _ _), if_pos rfl]

end ThrowKeeps

end RegMachine
