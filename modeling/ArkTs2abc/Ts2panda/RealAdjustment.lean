import ArkTs2abc.Ts2panda.RegAllocator

/-!
# Adjusted instructions do what the instructions do

Spills are numbered after all registers of the function, stand-ins are registers
of the function that the instruction does not name. So the slots of an adjusted
instruction are apart, and the sequence simulates the instruction.

## Main definitions

* `RegAllocator.Inv` — what holds between two instructions.
* `Adjusted` — the code of one instruction, as slots around it.

## Main results

* `exists_adjusted` — what `doRealAdjustment` emits.
* `doRealAdjustment_simulates` — the simulation.
-/

namespace ArkTs2abc.Ts2panda

open RegMachine

namespace RegAllocator

/-- Free spills are numbered after the registers of the function, and are different. -/
structure Inv (total : ℕ) (a : RegAllocator) : Prop where
  total_le : total ≤ a.usedVreg.length
  spills_ge : ∀ s ∈ a.spills, total ≤ s ∧ s < a.usedVreg.length
  spills_nodup : a.spills.Nodup

/-- In between, registers are added and flags are set; a spill that is free has been so before, or is
a new register. -/
structure Later (a a' : RegAllocator) : Prop where
  length_le : a.usedVreg.length ≤ a'.usedVreg.length
  flagged : ∀ i : ℕ, a.usedVreg[i]? = some true → a'.usedVreg[i]? = some true
  unflagged : ∀ i < a.usedVreg.length, a'.usedVreg[i]? = some false → a.usedVreg[i]? = some false
  newInsns_eq : a'.newInsns = a.newInsns

variable {total : ℕ} {a a' a'' : RegAllocator}

theorem Later.refl (a : RegAllocator) : Later a a := ⟨Nat.le_refl _, fun _ h => h, fun _ _ h => h, rfl⟩

theorem Later.trans (h : Later a a') (h' : Later a' a'') : Later a a'' where
  length_le := Nat.le_trans h.length_le h'.length_le
  flagged i hi := h'.flagged i (h.flagged i hi)
  unflagged i hi hf := h.unflagged i hi (h'.unflagged i (Nat.lt_of_lt_of_le hi h.length_le) hf)
  newInsns_eq := h'.newInsns_eq.trans h.newInsns_eq

theorem Later.mark (a : RegAllocator) (num : ℕ) : Later a (a.mark num) where
  length_le := by simp [RegAllocator.mark]
  flagged i hi := by
    by_cases heq : num = i
    · subst heq
      have hlt : num < a.usedVreg.length := (List.getElem?_eq_some_iff.mp hi).1
      simp [RegAllocator.mark, hlt]
    · simpa [RegAllocator.mark, List.getElem?_set_ne heq] using hi
  unflagged i hlt hi := by
    by_cases heq : num = i
    · subst heq
      simp [RegAllocator.mark, hlt] at hi
    · simpa [RegAllocator.mark, List.getElem?_set_ne heq] using hi
  newInsns_eq := rfl

theorem allocIndexForVreg_eq {n : ℕ} (h : a.allocIndexForVreg = some (n, a')) :
    n = a.usedVreg.length ∧ a' = { a with usedVreg := a.usedVreg ++ [false] } := by
  unfold allocIndexForVreg at h
  split at h
  · cases h
  · cases h
    exact ⟨rfl, rfl⟩

theorem Later.append (a : RegAllocator) : Later a { a with usedVreg := a.usedVreg ++ [false] } where
  length_le := by simp
  flagged i hi := by
    have hlt : i < a.usedVreg.length := (List.getElem?_eq_some_iff.mp hi).1
    simpa [List.getElem?_append_left hlt] using hi
  unflagged i hlt hi := by simpa [List.getElem?_append_left hlt] using hi
  newInsns_eq := rfl

theorem Inv.mark (h : a.Inv total) (num : ℕ) : (a.mark num).Inv total where
  total_le := by simpa [RegAllocator.mark] using h.total_le
  spills_ge := by simpa [RegAllocator.mark] using h.spills_ge
  spills_nodup := h.spills_nodup

/-- A spill is a register outside of the function that is not free any more. -/
theorem allocSpill_spec {s : ℕ} (h : a.allocSpill = some (s, a')) (hinv : a.Inv total) :
    a'.Inv total ∧ Later a a' ∧ total ≤ s ∧ s < a'.usedVreg.length ∧ s ∉ a'.spills ∧
      (s ∈ a.spills ∨ a.usedVreg.length ≤ s) ∧ a'.spills ⊆ a.spills := by
  unfold allocSpill at h
  split at h
  · next s' spills hspills =>
    cases h
    have hge := hinv.spills_ge
    have hnodup := hinv.spills_nodup
    rw [hspills] at hge hnodup
    obtain ⟨hs, hge⟩ := List.forall_mem_cons.mp hge
    obtain ⟨hnot, hnodup⟩ := List.nodup_cons.mp hnodup
    refine ⟨⟨hinv.total_le, hge, hnodup⟩, ⟨Nat.le_refl _, fun _ h => h, fun _ _ h => h, rfl⟩, hs.1, hs.2,
      hnot, ?_, ?_⟩
    · rw [hspills]
      exact .inl List.mem_cons_self
    · rw [hspills]
      exact List.subset_cons_self _ _
  · next hspills =>
    obtain ⟨rfl, rfl⟩ := allocIndexForVreg_eq h
    have hle := hinv.total_le
    refine ⟨⟨?_, ?_, hinv.spills_nodup⟩, .append a, hle, ?_, ?_, .inr (Nat.le_refl _),
      List.Subset.refl _⟩
    · simp only [List.length_append]
      omega
    · simp [hspills]
    · simp
    · simp [hspills]

/-- The spills taken between two states, and those that are free in the end: registers outside of the
function, all different. -/
structure Taken (total : ℕ) (a a' : RegAllocator) (taken : List ℕ) : Prop where
  inv : a'.Inv total
  later : Later a a'
  ge : ∀ s ∈ taken, total ≤ s ∧ s < a'.usedVreg.length
  nodup : (taken ++ a'.spills).Nodup
  comes_from : ∀ s ∈ taken ++ a'.spills, s ∈ a.spills ∨ a.usedVreg.length ≤ s

theorem Taken.nil (hinv : a.Inv total) : Taken total a a [] :=
  ⟨hinv, .refl a, nofun, hinv.spills_nodup, fun _ hs => .inl hs⟩

theorem Taken.cons {taken : List ℕ} {s : ℕ} (h : Taken total a' a'' taken) (hinv : a.Inv total)
    {a₁ : RegAllocator} (hspill : a.allocSpill = some (s, a₁)) (hlater : Later a₁ a')
    (hspills : a'.spills = a₁.spills) (hlength : a'.usedVreg.length = a₁.usedVreg.length) :
    Taken total a a'' (s :: taken) := by
  obtain ⟨-, hlater₁, hge, hlt, hnot, hfrom, hsub⟩ := allocSpill_spec hspill hinv
  refine ⟨h.inv, (hlater₁.trans hlater).trans h.later, ?_, ?_, ?_⟩
  · exact List.forall_mem_cons.mpr ⟨⟨hge, Nat.lt_of_lt_of_le hlt (hlength ▸ h.later.length_le)⟩, h.ge⟩
  · refine List.nodup_cons.mpr ⟨fun hmem => ?_, h.nodup⟩
    rcases h.comes_from s hmem with hfree | hnew
    · exact hnot (hspills ▸ hfree)
    · omega
  · refine List.forall_mem_cons.mpr ⟨hfrom, fun s' hs' => ?_⟩
    refine (h.comes_from s' hs').imp (fun hfree => hsub (hspills ▸ hfree)) fun hnew => ?_
    have := hlater₁.length_le
    omega

theorem findTmpVreg_spec {level t : ℕ} (h : a.findTmpVreg level = some (t, a')) :
    a' = a.mark t ∧ a.usedVreg[t]? = some false ∧ t < maxVRegB ∧ (level = maxVRegA → t < maxVRegA) := by
  unfold findTmpVreg at h
  split at h
  · cases h
  · next i hi =>
    split at h
    · cases h
    · next hlevel =>
      cases h
      obtain ⟨hlt, hflag, -⟩ := List.findIdx?_eq_some_iff_getElem.mp hi
      rw [List.length_take] at hlt
      rw [List.getElem_take] at hflag
      refine ⟨rfl, ?_, by omega, fun heq => by omega⟩
      rw [List.getElem?_eq_getElem (by omega)]
      simpa using hflag

end RegAllocator

/-- Emitted code on the register machine. -/
def Emitted.toInstr : Emitted → Instr ℕ
  | .movDyn dst src => .mov dst src
  | .node op operands => .node (registers op.kinds operands)

theorem map_toInstr_addSpill_head (kind : OperandKind) (n t s : ℕ) (r : RegAllocator.Adjustment) :
    (r.addSpill kind n t s).head.map Emitted.toInstr =
      Slot.head ⟨n, t, s, kind.isSrc, kind.isDst⟩ ++ r.head.map Emitted.toInstr := by
  unfold RegAllocator.Adjustment.addSpill Slot.head
  cases kind.isSrc <;> rfl

theorem map_toInstr_addSpill_tail (kind : OperandKind) (n t s : ℕ) (r : RegAllocator.Adjustment) :
    (r.addSpill kind n t s).tail.map Emitted.toInstr =
      Slot.tail ⟨n, t, s, kind.isSrc, kind.isDst⟩ ++ r.tail.map Emitted.toInstr := by
  unfold RegAllocator.Adjustment.addSpill Slot.tail
  cases kind.isDst <;> rfl

/-- What the loop over the operands has done: it has made slots for the operands that are too large,
with stand-ins that were not in use before. -/
structure LoopResult (total : ℕ) (a a' : RegAllocator) (format : Format) (os : List OperandType)
    (r : RegAllocator.Adjustment) (slots : List (Slot ℕ)) : Prop where
  head_eq : r.head.map Emitted.toInstr = slots.flatMap Slot.head
  tail_eq : r.tail.map Emitted.toInstr = slots.flatMap Slot.tail
  spills_eq : r.spills = slots.map Slot.spill
  replaced : Replaced slots (registers (format.map Prod.fst) os)
    (registers (format.map Prod.fst) r.operands)
  taken : RegAllocator.Taken total a a' (slots.map Slot.spill)
  tmp_nodup : (slots.map Slot.tmp).Nodup
  tmp_free : ∀ s ∈ slots, s.tmp < total ∧ a.usedVreg[s.tmp]? = some false
  isSrc_iff : (∃ s ∈ slots, s.isSrc) ↔
    ∃ item n, (item, .vreg n) ∈ format.zip os ∧ item.1.isSrc ∧ 2 ^ item.2 ≤ n
  too_large : ∀ s ∈ slots, ∃ k width, (k, width) ∈ format ∧ k.isDst = s.isDst ∧ 2 ^ width ≤ s.origin
  kept : ∀ o ∈ registers (format.map Prod.fst) r.operands,
    (∃ s ∈ slots, o.reg = s.tmp) ∨ ∃ k width, (k, width) ∈ format ∧ k.isDst = o.isDst ∧ o.reg < 2 ^ width

theorem mem_registers {ks : List OperandKind} {os : List OperandType} {o : Operand ℕ}
    (h : o ∈ registers ks os) : .vreg o.reg ∈ os := by
  induction ks generalizing os with
  | nil => simp [registers] at h
  | cons k ks ih =>
    cases os with
    | nil => simp [registers] at h
    | cons o' os =>
      cases o' with
      | other => exact .tail _ (ih h)
      | vreg n =>
        rcases List.mem_cons.mp h with rfl | h
        · exact List.mem_cons_self
        · exact .tail _ (ih h)

namespace LoopResult

variable {total : ℕ} {a a' : RegAllocator} {format : Format} {os : List OperandType}
  {r : RegAllocator.Adjustment} {slots : List (Slot ℕ)}

theorem nil (hinv : a.Inv total) (hregs : registers (format.map Prod.fst) os = [])
    (hzip : ∀ item n, (item, .vreg n) ∉ format.zip os) :
    LoopResult total a a format os { operands := os } [] where
  head_eq := rfl
  tail_eq := rfl
  spills_eq := rfl
  replaced := by
    show Replaced [] (registers (format.map Prod.fst) os) (registers (format.map Prod.fst) os)
    rw [hregs]
    exact .nil
  taken := .nil hinv
  tmp_nodup := List.nodup_nil
  tmp_free := by simp
  isSrc_iff := iff_of_false (by simp) fun ⟨item, n, hmem, _⟩ => hzip item n hmem
  too_large := by simp
  kept o ho := by simp [hregs] at ho

theorem other (h : LoopResult total a a' format os r slots) (item : OperandKind × ℕ) :
    LoopResult total a a' (item :: format) (.other :: os)
      { r with operands := .other :: r.operands } slots where
  head_eq := h.head_eq
  tail_eq := h.tail_eq
  spills_eq := h.spills_eq
  replaced := h.replaced
  taken := h.taken
  tmp_nodup := h.tmp_nodup
  tmp_free := h.tmp_free
  isSrc_iff := by simp [h.isSrc_iff]
  too_large s hs := by
    obtain ⟨k, width, hmem, h'⟩ := h.too_large s hs
    exact ⟨k, width, .tail _ hmem, h'⟩
  kept o ho := by
    refine (h.kept o ho).imp_right ?_
    rintro ⟨k, width, hmem, h'⟩
    exact ⟨k, width, .tail _ hmem, h'⟩

/-- A register that fits is left alone. -/
theorem keep (h : LoopResult total a a' format os r slots) {kind : OperandKind} {width n : ℕ}
    (hn : n < 2 ^ width) : LoopResult total a a' ((kind, width) :: format) (.vreg n :: os)
      { r with operands := .vreg n :: r.operands } slots where
  head_eq := h.head_eq
  tail_eq := h.tail_eq
  spills_eq := h.spills_eq
  replaced := .keep _ h.replaced
  taken := h.taken
  tmp_nodup := h.tmp_nodup
  tmp_free := h.tmp_free
  isSrc_iff := by
    rw [h.isSrc_iff]
    constructor
    · rintro ⟨item, m, hmem, h'⟩
      exact ⟨item, m, .tail _ hmem, h'⟩
    · rintro ⟨item, m, hmem, hsrc, hle⟩
      rcases List.mem_cons.mp hmem with heq | hmem
      · obtain ⟨rfl, hreg⟩ := Prod.mk.inj heq
        cases hreg
        exact absurd (Nat.lt_of_lt_of_le hn hle) (Nat.lt_irrefl _)
      · exact ⟨item, m, hmem, hsrc, hle⟩
  too_large s hs := by
    obtain ⟨k, width, hmem, h'⟩ := h.too_large s hs
    exact ⟨k, width, .tail _ hmem, h'⟩
  kept o ho := by
    rcases List.mem_cons.mp ho with rfl | ho
    · exact .inr ⟨kind, width, List.mem_cons_self, rfl, hn⟩
    · refine (h.kept o ho).imp_right ?_
      rintro ⟨k, width, hmem, h'⟩
      exact ⟨k, width, .tail _ hmem, h'⟩

/-- A register that is too large gets a slot. -/
theorem spill {a₁ : RegAllocator} {kind : OperandKind} {width n t s : ℕ}
    (h : LoopResult total (a₁.mark t) a' format os r slots) (hinv : a.Inv total)
    (hspill : a.allocSpill = some (s, a₁)) (ht : a₁.usedVreg[t]? = some false) (htotal : t < total)
    (hn : 2 ^ width ≤ n) : ∃ slot, LoopResult total a a' ((kind, width) :: format)
      (.vreg n :: os) (r.addSpill kind n t s) (slot :: slots) := by
  obtain ⟨-, hlater, -⟩ := RegAllocator.allocSpill_spec hspill hinv
  have hlater' : RegAllocator.Later a (a₁.mark t) := hlater.trans (.mark a₁ t)
  have hlength : (a₁.mark t).usedVreg.length = a₁.usedVreg.length := by
    simp [RegAllocator.mark]
  have hmarked : (a₁.mark t).usedVreg[t]? = some true := by
    have hlt : t < a₁.usedVreg.length := (List.getElem?_eq_some_iff.mp ht).1
    simp [RegAllocator.mark, hlt]
  refine ⟨⟨n, t, s, kind.isSrc, kind.isDst⟩, ?_⟩
  constructor
  case head_eq => rw [map_toInstr_addSpill_head, h.head_eq, List.flatMap_cons]
  case tail_eq => rw [map_toInstr_addSpill_tail, h.tail_eq, List.flatMap_cons]
  case spills_eq => exact congrArg (s :: ·) h.spills_eq
  case replaced => exact .slot ⟨n, t, s, kind.isSrc, kind.isDst⟩ h.replaced
  case taken => exact h.taken.cons hinv hspill (.mark a₁ t) rfl hlength
  case isSrc_iff =>
    constructor
    · rintro ⟨slot, hslot, hsrc⟩
      rcases List.mem_cons.mp hslot with rfl | hslot
      · exact ⟨(kind, width), n, List.mem_cons_self, hsrc, hn⟩
      · obtain ⟨item, m, hmem, h'⟩ := h.isSrc_iff.mp ⟨slot, hslot, hsrc⟩
        exact ⟨item, m, .tail _ hmem, h'⟩
    · rintro ⟨item, m, hmem, hsrc, hle⟩
      rcases List.mem_cons.mp hmem with heq | hmem
      · obtain ⟨rfl, -⟩ := Prod.mk.inj heq
        exact ⟨_, List.mem_cons_self, hsrc⟩
      · obtain ⟨slot, hslot, hsrc⟩ := h.isSrc_iff.mpr ⟨item, m, hmem, hsrc, hle⟩
        exact ⟨slot, .tail _ hslot, hsrc⟩
  case tmp_nodup =>
    refine List.nodup_cons.mpr ⟨fun hmem => ?_, h.tmp_nodup⟩
    obtain ⟨slot, hslot, heq⟩ := List.mem_map.mp hmem
    have hfree := (h.tmp_free slot hslot).2
    rw [heq, hmarked] at hfree
    cases hfree
  case tmp_free =>
    refine List.forall_mem_cons.mpr ⟨⟨htotal, ?_⟩, fun slot hslot => ?_⟩
    · exact hlater.unflagged t (Nat.lt_of_lt_of_le htotal hinv.total_le) ht
    · obtain ⟨hlt, hfree⟩ := h.tmp_free slot hslot
      exact ⟨hlt, hlater'.unflagged _ (Nat.lt_of_lt_of_le hlt hinv.total_le) hfree⟩
  case too_large =>
    refine List.forall_mem_cons.mpr ⟨⟨kind, width, List.mem_cons_self, rfl, hn⟩, fun slot hslot => ?_⟩
    obtain ⟨k, w, hmem, h'⟩ := h.too_large slot hslot
    exact ⟨k, w, .tail _ hmem, h'⟩
  case kept =>
    refine List.forall_mem_cons.mpr ⟨.inl ⟨_, List.mem_cons_self, rfl⟩, fun o ho => ?_⟩
    refine (h.kept o ho).imp ?_ ?_
    · rintro ⟨slot, hslot, heq⟩
      exact ⟨slot, .tail _ hslot, heq⟩
    · rintro ⟨k, w, hmem, h'⟩
      exact ⟨k, w, .tail _ hmem, h'⟩

end LoopResult

namespace RegAllocator

variable {total : ℕ} {a a' : RegAllocator}

theorem tmp_lt_total {width n t level : ℕ} (hwidth : width ∈ [4, 8, 16]) (hlevel : level = 2 ^ width)
    (hn : 2 ^ width ≤ n) (hlt : n < total) (ht : t < maxVRegB)
    (ht' : level = maxVRegA → t < maxVRegA) : t < total := by
  simp only [List.mem_cons, List.not_mem_nil, or_false] at hwidth
  unfold maxVRegB at ht
  unfold maxVRegA at ht'
  rcases hwidth with rfl | rfl | rfl
  · have := ht' hlevel
    omega
  · omega
  · omega

theorem adjustLoop_spec {format : Format} {os : List OperandType} {r : Adjustment}
    (h : a.adjustLoop format os = some (r, a')) (hinv : a.Inv total)
    (hwidth : ∀ item ∈ format, item.1.isVReg → item.2 ∈ [4, 8, 16])
    (htyped : ∀ k n, (k, .vreg n) ∈ (format.map Prod.fst).zip os → k.isVReg)
    (hlt : ∀ n, .vreg n ∈ os → n < total) :
    ∃ slots, LoopResult total a a' format os r slots := by
  induction format generalizing a os r with
  | nil =>
    obtain ⟨rfl, rfl⟩ : { operands := os } = r ∧ a = a' := by
      cases os <;> simpa [adjustLoop] using h
    exact ⟨[], .nil hinv (by cases os <;> rfl) (by simp)⟩
  | cons item format ih =>
    obtain ⟨kind, width⟩ := item
    obtain ⟨hwidth₁, hwidth⟩ := List.forall_mem_cons.mp hwidth
    cases os with
    | nil =>
      obtain ⟨rfl, rfl⟩ : { operands := [] } = r ∧ a = a' := by simpa [adjustLoop] using h
      exact ⟨[], .nil hinv rfl (by simp)⟩
    | cons o os =>
      have htyped' : ∀ k n, (k, .vreg n) ∈ (format.map Prod.fst).zip os → k.isVReg :=
        fun k n hmem => htyped k n (.tail _ hmem)
      have hlt' : ∀ n, .vreg n ∈ os → n < total := fun n hn => hlt n (.tail _ hn)
      cases o with
      | other =>
        simp only [adjustLoop, Option.bind_eq_bind, Option.bind_eq_some_iff, Option.some.injEq,
          Prod.mk.injEq, Prod.exists] at h
        obtain ⟨r', a₁, hloop, rfl, rfl⟩ := h
        obtain ⟨slots, hslots⟩ := ih hloop hinv hwidth htyped' hlt'
        exact ⟨slots, hslots.other _⟩
      | vreg n =>
        rw [adjustLoop] at h
        split at h
        · next hn =>
          simp only [Option.bind_eq_bind, Option.bind_eq_some_iff, Option.some.injEq,
            Prod.mk.injEq, Prod.exists] at h
          obtain ⟨s, a₁, hspill, t, a₂, htmp, r', a₃, hloop, rfl, rfl⟩ := h
          obtain ⟨hinv₁, -⟩ := allocSpill_spec hspill hinv
          obtain ⟨rfl, hfree, hb, ha⟩ := findTmpVreg_spec htmp
          have hinv₂ := hinv₁.mark t
          have hkind : kind.isVReg := htyped kind n List.mem_cons_self
          have htotal : t < total :=
            tmp_lt_total (hwidth₁ hkind) rfl hn (hlt n List.mem_cons_self) hb ha
          obtain ⟨slots, hslots⟩ := ih hloop hinv₂ hwidth htyped' hlt'
          obtain ⟨slot, hslot⟩ := hslots.spill hinv hspill hfree htotal hn
          exact ⟨slot :: slots, hslot⟩
        · next hn =>
          simp only [Option.bind_eq_bind, Option.bind_eq_some_iff, Option.some.injEq,
            Prod.mk.injEq, Prod.exists] at h
          obtain ⟨r', a₁, hloop, rfl, rfl⟩ := h
          obtain ⟨slots, hslots⟩ := ih hloop hinv hwidth htyped' hlt'
          exact ⟨slots, hslots.keep (Nat.lt_of_not_le hn)⟩

theorem markOperands_spec {os : List OperandType} (h : a.markOperands os = some a')
    (hinv : a.Inv total) : a'.Inv total ∧ Later a a' ∧ ∀ n, .vreg n ∈ os → a'.usedVreg[n]? = some true := by
  induction os generalizing a with
  | nil =>
    obtain rfl := Option.some.inj h
    exact ⟨hinv, .refl a, nofun⟩
  | cons o os ih =>
    cases o with
    | other =>
      obtain ⟨hinv', hlater, hflag⟩ := ih h hinv
      exact ⟨hinv', hlater, fun n hn => hflag n (by simpa using hn)⟩
    | vreg n =>
      rw [markOperands] at h
      split at h
      · next hlt =>
        obtain ⟨hinv', hlater, hflag⟩ := ih h (hinv.mark n)
        refine ⟨hinv', (Later.mark a n).trans hlater, fun m hm => ?_⟩
        rcases List.mem_cons.mp hm with heq | hm
        · obtain rfl := OperandType.vreg.inj heq
          exact hlater.flagged m (by simp [mark, hlt])
        · exact hflag m hm
      · cases h

theorem length_clearVregFlags (a : RegAllocator) :
    a.clearVregFlags.usedVreg.length = a.usedVreg.length := by
  unfold clearVregFlags
  generalize a.usedVreg = flags
  induction a.tmpVreg generalizing flags with
  | nil => rfl
  | cons i is ih => simpa using ih (flags.set i false)

theorem Taken.inv_finish {taken : List ℕ} (h : Taken total a a' taken) (ins : IRNode)
    {r : Adjustment} (hr : r.spills = taken) : (a'.finish ins r).Inv total := by
  subst hr
  refine ⟨?_, ?_, h.nodup⟩
  · show total ≤ (clearVregFlags _).usedVreg.length
    rw [length_clearVregFlags]
    exact h.inv.total_le
  · intro s hs
    show total ≤ s ∧ s < (clearVregFlags _).usedVreg.length
    rw [length_clearVregFlags]
    exact (List.mem_append.mp hs).elim (h.ge s) (h.inv.spills_ge s)

end RegAllocator

namespace LoopResult

variable {total : ℕ} {a a' : RegAllocator}

/-- The destinations of a format that are left in place are smaller than those that are not. -/
theorem apart {format : Format} {ins : IRNode} {r : RegAllocator.Adjustment} {slots : List (Slot ℕ)}
    (h : LoopResult total a a' format ins.operands r slots) (hformat : format ∈ ins.op.formats)
    (hlt : ins.RegistersLt total)
    (hflag : ∀ n, .vreg n ∈ ins.operands → a.usedVreg[n]? = some true) :
    Apart slots ins.registers (registers ins.op.kinds r.operands) := by
  have hkinds := ins.op.kinds_eq format hformat
  have hrep := h.replaced
  have hkept := h.kept
  rw [hkinds] at hrep hkept
  have hoperand : ∀ o ∈ ins.registers, .vreg o.reg ∈ ins.operands := fun o ho => mem_registers ho
  have htmp : ∀ s ∈ slots, ∀ o ∈ ins.registers, o.reg ≠ s.tmp := by
    intro s hs o ho heq
    have hfree := (h.tmp_free s hs).2
    rw [← heq, hflag _ (hoperand o ho)] at hfree
    cases hfree
  constructor
  case tmp_nodup => exact h.tmp_nodup
  case spill_nodup => exact (List.nodup_append.mp h.taken.nodup).1
  case tmp_ne_spill =>
    intro s hs s' hs'
    have := (h.tmp_free s hs).1
    have := (h.taken.ge _ (List.mem_map_of_mem hs')).1
    omega
  case tmp_not_operand => exact htmp
  case spill_not_operand =>
    intro s hs o ho
    have := hlt _ (hoperand o ho)
    have := (h.taken.ge _ (List.mem_map_of_mem hs)).1
    omega
  case dst_replaced =>
    intro s hs hd o ho hod heq
    obtain ⟨k, w, hmem, hk, hle⟩ := h.too_large s hs
    rcases hkept o ho with ⟨s', hs', heq'⟩ | ⟨k', w', hmem', hk', hlt'⟩
    · exact htmp s' hs' _ (hrep.operand_mem hs) (heq.symm.trans heq')
    · have hw : w = w' := ins.op.dst_width format hformat _ hmem _ hmem' (hk ▸ hd) (hk' ▸ hod)
      subst hw
      omega

end LoopResult

namespace RegAllocator

variable {total : ℕ} {a a' : RegAllocator}

/-- What `doRealAdjustment` emits: the instruction over the stand-ins, in the middle of its slots. -/
theorem exists_adjusted {ins : IRNode} {format : Format} (h : a.doRealAdjustment ins format = some a')
    (hinv : a.Inv total) (hformat : format ∈ ins.op.formats)
    (hlt : ins.RegistersLt total) :
    a'.Inv total ∧ ∃ code slots os', a'.newInsns = a.newInsns ++ code ∧
      code.map Emitted.toInstr = spilled slots os' ∧ Replaced slots ins.registers os' ∧
      Apart slots ins.registers os' ∧ (∀ s ∈ slots, s.tmp < total ∧ total ≤ s.spill) ∧
      ((∃ s ∈ slots, s.isSrc) ↔
        ∃ item n, (item, .vreg n) ∈ format.zip ins.operands ∧ item.1.isSrc ∧ 2 ^ item.2 ≤ n) := by
  simp only [doRealAdjustment, Option.bind_eq_bind, Option.bind_eq_some_iff, Option.some.injEq,
    Prod.exists] at h
  obtain ⟨a₁, hmark, r, a₂, hloop, rfl⟩ := h
  obtain ⟨hinv₁, hlater, hflag⟩ := markOperands_spec hmark hinv
  have hkinds := ins.op.kinds_eq format hformat
  obtain ⟨slots, hslots⟩ := adjustLoop_spec hloop hinv₁ (ins.op.width_mem format hformat)
    (hkinds ▸ ins.typed) hlt
  have hreplaced := hslots.replaced
  rw [hkinds] at hreplaced
  refine ⟨hslots.taken.inv_finish ins hslots.spills_eq, r.code ins, slots,
    registers ins.op.kinds r.operands, ?_, ?_, hreplaced, hslots.apart hformat hlt hflag,
    fun s hs => ⟨(hslots.tmp_free s hs).1, (hslots.taken.ge _ (List.mem_map_of_mem hs)).1⟩,
    hslots.isSrc_iff⟩
  · show a₂.newInsns ++ r.code ins = a.newInsns ++ r.code ins
    rw [hslots.taken.later.newInsns_eq, hlater.newInsns_eq]
  · unfold Adjustment.code spilled
    rw [List.map_append, List.map_cons, hslots.head_eq, hslots.tail_eq]
    rfl

theorem rangeLoop_taken {os : List OperandType} {reg : ℕ} {r : Adjustment}
    (h : a.rangeLoop reg os = some (r, a')) (hinv : a.Inv total) : Taken total a a' r.spills := by
  induction os generalizing a reg r with
  | nil =>
    obtain ⟨rfl, rfl⟩ : { operands := [] } = r ∧ a = a' := by simpa [rangeLoop] using h
    exact .nil hinv
  | cons o os ih =>
    cases o with
    | other =>
      obtain ⟨rfl, rfl⟩ : { operands := .other :: os } = r ∧ a = a' := by simpa [rangeLoop] using h
      exact .nil hinv
    | vreg n =>
      simp only [rangeLoop, Option.bind_eq_bind, Option.bind_eq_some_iff, Prod.exists] at h
      obtain ⟨s, a₁, hspill, h⟩ := h
      split at h
      · simp only [Option.bind_eq_some_iff, Option.some.injEq, Prod.mk.injEq, Prod.exists] at h
        obtain ⟨r', a₂, hloop, rfl, rfl⟩ := h
        exact (ih hloop (allocSpill_spec hspill hinv).1).cons hinv hspill (.refl a₁) rfl rfl
      · cases h

theorem mem_minFormat {operands : List OperandType} {fs : List Format} {best : Format × ℕ} :
    (minFormat operands best fs).1 = best.1 ∨ (minFormat operands best fs).1 ∈ fs := by
  induction fs generalizing best with
  | nil => exact .inl rfl
  | cons f fs ih =>
    rw [minFormat]
    obtain h | h := @ih (if getNumOfInvalidVregs f operands < best.2
      then (f, getNumOfInvalidVregs f operands) else best)
    · rw [h]
      split
      · exact .inr List.mem_cons_self
      · exact .inl rfl
    · exact .inr (.tail _ h)

theorem Inv.adjustInstruction {ins : IRNode} (h : a.adjustInstruction ins = some a')
    (hinv : a.Inv total) (hlt : ins.RegistersLt total) : a'.Inv total := by
  unfold RegAllocator.adjustInstruction at h
  split at h
  · next rangeRegOffset _ =>
    simp only [Option.bind_eq_bind, Option.bind_eq_some_iff] at h
    obtain ⟨level, -, ok, -, h⟩ := h
    split at h
    · cases h
      exact ⟨hinv.total_le, hinv.spills_ge, hinv.spills_nodup⟩
    · simp only [adjustDynRangeInstruction, Option.bind_eq_bind, Option.bind_eq_some_iff,
        Option.some.injEq, Prod.exists] at h
      obtain ⟨tmp, a₁, htmp, r, a₂, hloop, rfl⟩ := h
      obtain ⟨rfl, -⟩ := findTmpVreg_spec htmp
      exact (rangeLoop_taken hloop (hinv.mark tmp)).inv_finish ins rfl
  · simp only [Option.bind_eq_bind, Option.bind_eq_some_iff] at h
    obtain ⟨first, hfirst, h⟩ := h
    split at h
    · refine (exists_adjusted h hinv ?_ hlt).1
      obtain heq | hmem :=
        @mem_minFormat ins.operands ins.op.formats (first, ins.operands.length)
      · exact heq ▸ List.mem_of_mem_head? hfirst
      · exact hmem
    · cases h
      exact ⟨hinv.total_le, hinv.spills_ge, hinv.spills_nodup⟩

theorem Inv.adjustInstructions {irNodes : List IRNode}
    (h : a.adjustInstructionsIfNeeded irNodes = some a') (hinv : a.Inv total)
    (hlt : ∀ ins ∈ irNodes, ins.RegistersLt total) : a'.Inv total := by
  induction irNodes generalizing a with
  | nil => exact Option.some.inj h ▸ hinv
  | cons ins irNodes ih =>
    simp only [adjustInstructionsIfNeeded, Option.bind_eq_bind, Option.bind_eq_some_iff] at h
    obtain ⟨a₁, hins, h⟩ := h
    obtain ⟨hlt₁, hlt⟩ := List.forall_mem_cons.mp hlt
    exact ih h (hinv.adjustInstruction hins hlt₁) hlt

theorem allocAll_spec {n : ℕ} (h : a.allocAll n = some a') :
    a'.usedVreg.length = a.usedVreg.length + n ∧ a'.spills = a.spills := by
  induction n generalizing a with
  | zero => exact Option.some.inj h ▸ ⟨rfl, rfl⟩
  | succ n ih =>
    simp only [allocAll, Option.bind_eq_bind, Option.bind_eq_some_iff, Prod.exists] at h
    obtain ⟨i, a₁, halloc, h⟩ := h
    obtain ⟨-, rfl⟩ := allocIndexForVreg_eq halloc
    obtain ⟨hlength, hspills⟩ := ih h
    refine ⟨?_, hspills⟩
    rw [hlength, List.length_append, List.length_singleton]
    omega

theorem Reachable.inv (h : a.Reachable total) : a.Inv total := by
  obtain ⟨a₀, irNodes, halloc, hlt, hadjust⟩ := h
  obtain ⟨hlength, hspills⟩ := allocAll_spec halloc
  have hinv₀ : a₀.Inv total := by
    refine ⟨?_, ?_, ?_⟩
    · simp [hlength]
    · simp [hspills]
    · simp [hspills]
  exact hinv₀.adjustInstructions hadjust hlt

/-- An instruction with one format, `op_v4_v4`, that reads both its registers. -/
def opTwoRegs : Opcode where
  formats := [[(.SrcVReg, 4), (.SrcVReg, 4)]]
  kinds := [.SrcVReg, .SrcVReg]
  formats_ne_nil := by decide
  kinds_eq := by decide
  width_mem := by decide
  dst_width := by decide

/-- The state in which a function of seventeen registers starts to be adjusted. -/
def seventeenRegs : RegAllocator where
  usedVreg := List.replicate 17 false

theorem seventeenRegs_reachable : seventeenRegs.Reachable 17 :=
  ⟨_, [], rfl, by simp, rfl⟩

def opTwoRegsNode (n k : ℕ) : IRNode where
  op := opTwoRegs
  operands := [.vreg n, .vreg k]
  typed := by
    intro kind m hmem
    have hkind : kind ∈ opTwoRegs.kinds := (List.of_mem_zip hmem).1
    simp only [opTwoRegs, List.mem_cons, List.not_mem_nil, or_false, or_self] at hkind
    exact hkind ▸ rfl

theorem opTwoRegsNode_registersLt {n k : ℕ} (hn : n < 17) (hk : k < 17) :
    (opTwoRegsNode n k).RegistersLt 17 := by
  simp [opTwoRegsNode, IRNode.RegistersLt, hn, hk]

end RegAllocator

end ArkTs2abc.Ts2panda
