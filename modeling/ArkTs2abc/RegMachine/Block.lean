import ArkTs2abc.RegMachine.Spill

/-!
# Moving a block of registers

A block of registers is saved and other registers are moved into it, one after the other. The
registers that are moved may be part of the block themselves, as long as each is moved before it is
overwritten.

## Main definitions

* `Movable` — slots that are entered in such an order.

## Main results

* `Movable.enterAll_tmp` — every register holds what was moved into it.
* `Movable.leaveAll_regs` — the block is restored.
-/

namespace RegMachine

variable {R V : Type} [DecidableEq R]

/-- Slots of operands that are only read. No register is moved after it has been overwritten. -/
structure Movable (slots : List (Slot R)) : Prop where
  isSrc : ∀ s ∈ slots, s.isSrc
  not_isDst : ∀ s ∈ slots, s.isDst = false
  tmp_nodup : (slots.map Slot.tmp).Nodup
  spill_nodup : (slots.map Slot.spill).Nodup
  tmp_ne_spill : ∀ s ∈ slots, ∀ s' ∈ slots, s.tmp ≠ s'.spill
  origin_ne_spill : ∀ s ∈ slots, ∀ s' ∈ slots, s.origin ≠ s'.spill
  ordered : slots.Pairwise fun s s' => s'.origin ≠ s.tmp

namespace Movable

variable {slots : List (Slot R)} {s s₁ : Slot R} {m m' : RegFile R V} {r : R}

omit [DecidableEq R] in
theorem of_cons (h : Movable (s :: slots)) : Movable slots where
  isSrc a ha := h.isSrc a (.tail _ ha)
  not_isDst a ha := h.not_isDst a (.tail _ ha)
  tmp_nodup := (List.nodup_cons.mp h.tmp_nodup).2
  spill_nodup := (List.nodup_cons.mp h.spill_nodup).2
  tmp_ne_spill a ha b hb := h.tmp_ne_spill a (.tail _ ha) b (.tail _ hb)
  origin_ne_spill a ha b hb := h.origin_ne_spill a (.tail _ ha) b (.tail _ hb)
  ordered := (List.pairwise_cons.mp h.ordered).2

omit [DecidableEq R] in
theorem tmp_ne_of_cons (h : Movable (s₁ :: slots)) (hs : s ∈ slots) : s.tmp ≠ s₁.tmp := by
  intro heq
  exact (List.nodup_cons.mp h.tmp_nodup).1 (heq ▸ List.mem_map_of_mem hs)

omit [DecidableEq R] in
theorem spill_ne_of_cons (h : Movable (s₁ :: slots)) (hs : s ∈ slots) : s.spill ≠ s₁.spill := by
  intro heq
  exact (List.nodup_cons.mp h.spill_nodup).1 (heq ▸ List.mem_map_of_mem hs)

theorem enter_origin (h : Movable (s₁ :: slots)) (hs : s ∈ slots) :
    (s₁.enter m).regs s.origin = m.regs s.origin := by
  apply Slot.enter_regs_of_ne
  · exact (List.pairwise_cons.mp h.ordered).1 s hs
  · exact h.origin_ne_spill s (.tail _ hs) s₁ List.mem_cons_self

theorem enter_tmp (h : Movable (s₁ :: slots)) (hs : s ∈ slots) :
    (s₁.enter m).regs s.tmp = m.regs s.tmp := by
  apply Slot.enter_regs_of_ne (h.tmp_ne_of_cons hs)
  exact h.tmp_ne_spill s (.tail _ hs) s₁ List.mem_cons_self

theorem enterAll_tmp (h : Movable slots) (hs : s ∈ slots) :
    (enterAll slots m).regs s.tmp = m.regs s.origin := by
  induction slots generalizing m with
  | nil => cases hs
  | cons s₁ slots ih =>
    rw [enterAll]
    rcases List.mem_cons.mp hs with rfl | hs'
    · rw [enterAll_regs_of_ne (fun s' hs' => (h.tmp_ne_of_cons hs').symm)
        fun s' hs' => h.tmp_ne_spill s hs s' (.tail _ hs')]
      rw [Slot.enter_tmp (h.tmp_ne_spill s hs s hs) (h.origin_ne_spill s hs s hs)]
      exact if_pos (h.isSrc s hs)
    · rw [ih h.of_cons hs', h.enter_origin hs']

theorem enterAll_spill (h : Movable slots) (hs : s ∈ slots) :
    (enterAll slots m).regs s.spill = m.regs s.tmp := by
  induction slots generalizing m with
  | nil => cases hs
  | cons s₁ slots ih =>
    rw [enterAll]
    rcases List.mem_cons.mp hs with rfl | hs'
    · rw [enterAll_regs_of_ne (fun s' hs' => (h.tmp_ne_spill s' (.tail _ hs') s hs).symm)
        fun s' hs' => (h.spill_ne_of_cons hs').symm]
      exact Slot.enter_spill (h.tmp_ne_spill s hs s hs)
    · rw [ih h.of_cons hs', h.enter_tmp hs']

theorem leaveAll_regs (h : Movable slots) (hsave : ∀ s ∈ slots, m'.regs s.spill = m.regs s.tmp)
    (hframe : (∀ s ∈ slots, r ≠ s.tmp) → m'.regs r = m.regs r) :
    (leaveAll slots m').regs r = m.regs r := by
  induction slots generalizing m' with
  | nil => exact hframe nofun
  | cons s₁ slots ih =>
    obtain ⟨hsave₁, hsave⟩ := List.forall_mem_cons.mp hsave
    have hmem : s₁ ∈ s₁ :: slots := List.mem_cons_self
    have hleave : s₁.leave m' = m'.set s₁.tmp (m'.regs s₁.spill) := by
      simp [Slot.leave, h.not_isDst s₁ hmem]
    rw [leaveAll, hleave]
    apply ih h.of_cons
    · intro s hs
      rw [RegFile.set_regs_of_ne _ (h.tmp_ne_spill s₁ hmem s (.tail _ hs)).symm]
      exact hsave s hs
    · intro hne
      by_cases hr : r = s₁.tmp
      · rw [hr, RegFile.set_regs_self, hsave₁]
      · rw [RegFile.set_regs_of_ne _ hr]
        exact hframe (List.forall_mem_cons.mpr ⟨hr, hne⟩)

end Movable

end RegMachine
