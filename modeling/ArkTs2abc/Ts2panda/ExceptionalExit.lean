import ArkTs2abc.Ts2panda.RealAdjustment

/-!
# Adjusted instructions that throw

The moves behind an adjusted instruction do not run when it throws. A stand-in
into which an operand was moved then still holds that operand; one that was only
saved holds what it held.

## Main definitions

* `IRNode.readsInPlace` — no operand has to be moved in.

## Main results

* `RegAllocator.throwKeeps_iff_readsInPlace` — the registers are kept exactly then.
-/

namespace ArkTs2abc.Ts2panda

open RegMachine

/-- The registers of a range from `reg` on, as far as they are registers of the function, are those
they stand for. -/
def rangeInPlace (total : ℕ) : ℕ → List OperandType → Bool
  | reg, .vreg n :: os => (total ≤ reg || reg = n) && rangeInPlace total (reg + 1) os
  | _, _ => true

/-- Whether all operands that are read fit the format. -/
def sourcesFit (format : Format) (operands : List OperandType) : Prop :=
  ∀ item n, (item, .vreg n) ∈ format.zip operands → item.1.isSrc → n < 2 ^ item.2

/-- No operand of the instruction has to be moved into a stand-in: an operand that is read fits the
chosen format, a range needs no stand-ins or lies where these are. -/
def IRNode.readsInPlace (ins : IRNode) (total : ℕ) : Prop :=
  match ins.rangeStart with
  | some rangeRegOffset =>
    (∃ level, RegAllocator.rangeLevel ins rangeRegOffset = some level ∧
      RegAllocator.checkDynRangeInstruction ins rangeRegOffset level = some true) ∨
      rangeInPlace total 0 (ins.operands.drop rangeRegOffset)
  | none => ∀ first ∈ ins.op.formats.head?,
      sourcesFit (RegAllocator.minFormat ins.operands (first, ins.operands.length) ins.op.formats).1
        ins.operands

namespace RegAllocator

variable {total : ℕ} {a a' : RegAllocator}

/-! ## Between two instructions no register is flagged -/

/-- Flagged registers are listed in `tmpVreg`. -/
def FlagsListed (a : RegAllocator) : Prop := ∀ i : ℕ, a.usedVreg[i]? = some true → i ∈ a.tmpVreg

def Unflagged (a : RegAllocator) : Prop := ∀ flag ∈ a.usedVreg, flag = false

theorem Unflagged.flagsListed (h : a.Unflagged) : a.FlagsListed := by
  intro i hi
  cases h true (List.mem_of_getElem? hi)

section

variable (h : a.FlagsListed)
include h

theorem FlagsListed.mark (num : ℕ) : (a.mark num).FlagsListed := by
  intro i hi
  by_cases heq : num = i
  · subst heq
    simp [RegAllocator.mark]
  · have hold : a.usedVreg[i]? = some true := by
      simpa [RegAllocator.mark, List.getElem?_set_ne heq] using hi
    exact List.mem_append_left _ (h i hold)

theorem FlagsListed.allocIndexForVreg {n : ℕ} (halloc : a.allocIndexForVreg = some (n, a')) : a'.FlagsListed := by
  obtain ⟨-, rfl⟩ := allocIndexForVreg_eq halloc
  intro i hi
  refine h i ?_
  rcases Nat.lt_or_ge i a.usedVreg.length with hlt | hge
  · simpa [List.getElem?_append_left hlt] using hi
  · rw [List.getElem?_append_right hge] at hi
    cases List.mem_singleton.mp (List.mem_of_getElem? hi)

theorem FlagsListed.allocSpill {s : ℕ} (halloc : a.allocSpill = some (s, a')) :
    a'.FlagsListed := by
  unfold RegAllocator.allocSpill at halloc
  split at halloc
  · obtain ⟨-, rfl⟩ := Prod.mk.inj (Option.some.inj halloc)
    exact h
  · exact h.allocIndexForVreg halloc

theorem FlagsListed.markOperands {os : List OperandType} (hmark : a.markOperands os = some a') : a'.FlagsListed := by
  induction os generalizing a with
  | nil => exact Option.some.inj hmark ▸ h
  | cons o os ih =>
    cases o with
    | other => exact ih h hmark
    | vreg n =>
      rw [RegAllocator.markOperands] at hmark
      split at hmark
      · exact ih (h.mark n) hmark
      · cases hmark

theorem FlagsListed.adjustLoop {format : Format} {os : List OperandType} {r : Adjustment} (hloop : a.adjustLoop format os = some (r, a')) : a'.FlagsListed := by
  induction format generalizing a os r with
  | nil =>
    obtain ⟨-, rfl⟩ : { operands := os } = r ∧ a = a' := by
      cases os <;> simpa [RegAllocator.adjustLoop] using hloop
    exact h
  | cons item format ih =>
    obtain ⟨kind, width⟩ := item
    cases os with
    | nil =>
      obtain ⟨-, rfl⟩ : { operands := [] } = r ∧ a = a' := by
        simpa [RegAllocator.adjustLoop] using hloop
      exact h
    | cons o os =>
      cases o with
      | other =>
        simp only [RegAllocator.adjustLoop, Option.bind_eq_bind, Option.bind_eq_some_iff,
          Option.some.injEq, Prod.mk.injEq, Prod.exists] at hloop
        obtain ⟨r', a₁, hloop, -, rfl⟩ := hloop
        exact ih h hloop
      | vreg n =>
        rw [RegAllocator.adjustLoop] at hloop
        split at hloop
        · simp only [Option.bind_eq_bind, Option.bind_eq_some_iff, Option.some.injEq,
            Prod.mk.injEq, Prod.exists] at hloop
          obtain ⟨s, a₁, hspill, t, a₂, htmp, r', a₃, hloop, -, rfl⟩ := hloop
          obtain ⟨rfl, -⟩ := findTmpVreg_spec htmp
          exact ih ((h.allocSpill hspill).mark t) hloop
        · simp only [Option.bind_eq_bind, Option.bind_eq_some_iff, Option.some.injEq,
            Prod.mk.injEq, Prod.exists] at hloop
          obtain ⟨r', a₁, hloop, -, rfl⟩ := hloop
          exact ih h hloop

theorem FlagsListed.rangeLoop {os : List OperandType} {reg : ℕ} {r : Adjustment} (hloop : a.rangeLoop reg os = some (r, a')) : a'.FlagsListed := by
  induction os generalizing a reg r with
  | nil =>
    obtain ⟨-, rfl⟩ : { operands := [] } = r ∧ a = a' := by
      simpa [RegAllocator.rangeLoop] using hloop
    exact h
  | cons o os ih =>
    cases o with
    | other =>
      obtain ⟨-, rfl⟩ : { operands := .other :: os } = r ∧ a = a' := by
        simpa [RegAllocator.rangeLoop] using hloop
      exact h
    | vreg n =>
      simp only [RegAllocator.rangeLoop, Option.bind_eq_bind, Option.bind_eq_some_iff,
        Prod.exists] at hloop
      obtain ⟨s, a₁, hspill, hloop⟩ := hloop
      split at hloop
      · simp only [Option.bind_eq_some_iff, Option.some.injEq, Prod.mk.injEq,
          Prod.exists] at hloop
        obtain ⟨r', a₂, hloop, -, rfl⟩ := hloop
        exact ih (h.allocSpill hspill) hloop
      · cases hloop

theorem FlagsListed.finish (ins : IRNode) (r : Adjustment) :
    (a.finish ins r).Unflagged := by
  have hclear (listed : List ℕ) (flags : List Bool)
      (hlisted : ∀ i : ℕ, flags[i]? = some true → i ∈ listed) :
      ∀ flag ∈ listed.foldl (·.set · false) flags, flag = false := by
    induction listed generalizing flags with
    | nil =>
      intro flag hmem
      obtain ⟨i, hi⟩ := List.getElem?_of_mem hmem
      cases flag with
      | false => rfl
      | true => cases hlisted i hi
    | cons j listed ih =>
      refine ih (flags.set j false) fun i hi => ?_
      by_cases heq : j = i
      · subst heq
        rcases Nat.lt_or_ge j flags.length with hlt | hge
        · simp [hlt] at hi
        · simp [hge] at hi
      · rw [List.getElem?_set_ne heq] at hi
        exact (List.mem_cons.mp (hlisted i hi)).resolve_left (Ne.symm heq)
  exact hclear a.tmpVreg a.usedVreg h

end

theorem Unflagged.adjustInstruction {ins : IRNode} (h : a.Unflagged)
    (hins : a.adjustInstruction ins = some a') : a'.Unflagged := by
  unfold RegAllocator.adjustInstruction at hins
  split at hins
  · simp only [Option.bind_eq_bind, Option.bind_eq_some_iff] at hins
    obtain ⟨level, -, ok, -, hins⟩ := hins
    split at hins
    · exact Option.some.inj hins ▸ h
    · simp only [adjustDynRangeInstruction, Option.bind_eq_bind, Option.bind_eq_some_iff,
        Option.some.injEq, Prod.exists] at hins
      obtain ⟨tmp, a₁, htmp, r, a₂, hloop, rfl⟩ := hins
      obtain ⟨rfl, -⟩ := findTmpVreg_spec htmp
      exact ((h.flagsListed.mark tmp).rangeLoop hloop).finish _ _
  · simp only [Option.bind_eq_bind, Option.bind_eq_some_iff] at hins
    obtain ⟨first, -, hins⟩ := hins
    split at hins
    · simp only [doRealAdjustment, Option.bind_eq_bind, Option.bind_eq_some_iff,
        Option.some.injEq, Prod.exists] at hins
      obtain ⟨a₁, hmark, r, a₂, hloop, rfl⟩ := hins
      exact ((h.flagsListed.markOperands hmark).adjustLoop hloop).finish _ _
    · exact Option.some.inj hins ▸ h

theorem Unflagged.adjustInstructions {irNodes : List IRNode} (h : a.Unflagged)
    (hins : a.adjustInstructionsIfNeeded irNodes = some a') : a'.Unflagged := by
  induction irNodes generalizing a with
  | nil => exact Option.some.inj hins ▸ h
  | cons ins irNodes ih =>
    simp only [adjustInstructionsIfNeeded, Option.bind_eq_bind, Option.bind_eq_some_iff] at hins
    obtain ⟨a₁, hins₁, hins⟩ := hins
    exact ih (h.adjustInstruction hins₁) hins

theorem Unflagged.allocAll {n : ℕ} (h : a.Unflagged) (halloc : a.allocAll n = some a') :
    a'.Unflagged := by
  induction n generalizing a with
  | zero => exact Option.some.inj halloc ▸ h
  | succ n ih =>
    simp only [RegAllocator.allocAll, Option.bind_eq_bind, Option.bind_eq_some_iff,
      Prod.exists] at halloc
    obtain ⟨i, a₁, hone, halloc⟩ := halloc
    obtain ⟨-, rfl⟩ := allocIndexForVreg_eq hone
    refine ih (fun flag hmem => ?_) halloc
    rcases List.mem_append.mp hmem with hmem | hmem
    · exact h flag hmem
    · exact List.mem_singleton.mp hmem

theorem Reachable.unflagged (h : a.Reachable total) : a.Unflagged := by
  obtain ⟨a₀, irNodes, halloc, -, hadjust⟩ := h
  have hstart : Unflagged {} := nofun
  exact (hstart.allocAll halloc).adjustInstructions hadjust

theorem Unflagged.findTmpVreg {level t : ℕ} (h : a.Unflagged)
    (htmp : a.findTmpVreg level = some (t, a')) : t = 0 := by
  unfold RegAllocator.findTmpVreg at htmp
  split at htmp
  · cases htmp
  · next i hi =>
    split at htmp
    · cases htmp
    · obtain ⟨rfl, -⟩ := Prod.mk.inj (Option.some.inj htmp)
      obtain ⟨hlt, -, hmin⟩ := List.findIdx?_eq_some_iff_getElem.mp hi
      by_contra hne
      have hzero := hmin 0 (Nat.pos_of_ne_zero hne)
      rw [List.getElem_take] at hzero
      exact hzero (by simp [h _ (List.getElem_mem _)])

/-! ## What is moved in -/

/-- The code of an adjusted range: a slot for each register. -/
theorem exists_rangeSlots {os : List OperandType} {reg : ℕ} {r : Adjustment}
    (h : a.rangeLoop reg os = some (r, a')) (hlt : ∀ n, .vreg n ∈ os → n < total) :
    ∃ slots : List (Slot ℕ), r.head.map Emitted.toInstr = slots.flatMap Slot.head ∧
      r.tail.map Emitted.toInstr = slots.flatMap Slot.tail ∧ r.spills = slots.map Slot.spill ∧
      (∀ s ∈ slots, s.origin < total) ∧
      ((∀ s ∈ slots, s.isSrc → s.tmp < total → s.tmp = s.origin) ↔ rangeInPlace total reg os) := by
  induction os generalizing a reg r with
  | nil =>
    obtain ⟨rfl, rfl⟩ : { operands := [] } = r ∧ a = a' := by simpa [rangeLoop] using h
    exact ⟨[], rfl, rfl, rfl, by simp, by simp [rangeInPlace]⟩
  | cons o os ih =>
    cases o with
    | other =>
      obtain ⟨rfl, rfl⟩ : { operands := .other :: os } = r ∧ a = a' := by
        simpa [rangeLoop] using h
      exact ⟨[], rfl, rfl, rfl, by simp, by simp [rangeInPlace]⟩
    | vreg n =>
      simp only [rangeLoop, Option.bind_eq_bind, Option.bind_eq_some_iff, Prod.exists] at h
      obtain ⟨s, a₁, -, h⟩ := h
      split at h
      · simp only [Option.bind_eq_some_iff, Option.some.injEq, Prod.mk.injEq, Prod.exists] at h
        obtain ⟨r', a₂, hloop, rfl, rfl⟩ := h
        obtain ⟨slots, hhead, htail, hspills, horigin, hidle⟩ :=
          ih hloop fun m hm => hlt m (.tail _ hm)
        refine ⟨⟨n, reg, s, true, false⟩ :: slots, ?_, ?_, ?_, ?_, ?_⟩
        · rw [map_toInstr_addSpill_head, hhead, List.flatMap_cons]
          rfl
        · rw [map_toInstr_addSpill_tail, htail, List.flatMap_cons]
          rfl
        · exact congrArg (s :: ·) hspills
        · exact List.forall_mem_cons.mpr ⟨hlt n List.mem_cons_self, horigin⟩
        · rw [List.forall_mem_cons, hidle]
          simp only [rangeInPlace, Bool.and_eq_true, Bool.or_eq_true, decide_eq_true_eq]
          grind
      · cases h

/-- The registers of the function are kept by an adjusted instruction that throws, exactly when its
slots leave every stand-in as it is. -/
theorem throwKeeps_slots {slots : List (Slot ℕ)} {ins : IRNode} {r : Adjustment}
    (hhead : r.head.map Emitted.toInstr = slots.flatMap Slot.head)
    (htail : r.tail.map Emitted.toInstr = slots.flatMap Slot.tail)
    (horigin : ∀ s ∈ slots, s.origin < total) (hspill : ∀ s ∈ slots, total ≤ s.spill) :
    ThrowKeeps (· < total) ((r.code ins).map Emitted.toInstr) ↔
      ∀ s ∈ slots, s.isSrc → s.tmp < total → s.tmp = s.origin := by
  have hcode : (r.code ins).map Emitted.toInstr = slots.flatMap Slot.head ++
      .node (registers ins.op.kinds r.operands) :: slots.flatMap Slot.tail := by
    unfold Adjustment.code
    rw [List.map_append, List.map_cons, hhead, htail]
    rfl
  rw [hcode]
  constructor
  · intro h
    refine idle_of_throwKeeps (fun V f m => throwState_tail f slots m) horigin ?_ h
    intro s hs hlt
    exact absurd hlt (Nat.not_lt.mpr (hspill s hs))
  · intro h
    exact throwKeeps_of_idle (fun V f m => throwState_tail f slots m)
      (fun s hs => Nat.not_lt.mpr (hspill s hs)) h

theorem minFormat_snd {operands : List OperandType} {fs : List Format} {best : Format × ℕ} :
    minFormat operands best fs = best ∨ (minFormat operands best fs).2 =
      getNumOfInvalidVregs (minFormat operands best fs).1 operands := by
  induction fs generalizing best with
  | nil => exact .inl rfl
  | cons f fs ih =>
    rw [minFormat]
    split
    · refine .inr ?_
      obtain h | h := @ih (f, getNumOfInvalidVregs f operands)
      · rw [h]
      · exact h
    · exact ih

theorem sourcesFit_of_getNum {format : Format} {operands : List OperandType}
    (h : getNumOfInvalidVregs format operands = 0) : sourcesFit format operands := by
  induction format generalizing operands with
  | nil => simp [sourcesFit]
  | cons item format ih =>
    match operands with
    | [] => simp [sourcesFit]
    | .other :: operands =>
      intro item' n hmem hsrc
      refine ih h item' n ?_ hsrc
      simpa using hmem
    | .vreg m :: operands =>
      unfold getNumOfInvalidVregs at h
      obtain ⟨hrest, hm⟩ := Nat.add_eq_zero_iff.mp h
      intro item' n hmem hsrc
      rcases List.mem_cons.mp hmem with heq | hmem
      · obtain ⟨rfl, hreg⟩ := Prod.mk.inj heq
        cases hreg
        by_contra hnot
        simp [Nat.le_of_not_lt hnot] at hm
      · exact ih hrest item' n hmem hsrc

/-- An adjusted instruction that is no range instruction. -/
theorem throwKeeps_iff_sourcesFit {ins : IRNode} {format : Format}
    (h : a.doRealAdjustment ins format = some a') (hreach : a.Reachable total)
    (hformat : format ∈ ins.op.formats) (hlt : ins.RegistersLt total) :
    ∃ code, a'.newInsns = a.newInsns ++ code ∧
      (ThrowKeeps (· < total) (code.map Emitted.toInstr) ↔ sourcesFit format ins.operands) := by
  obtain ⟨-, code, slots, os', hinsns, hcode, hrep, hapart, hslots, hsrc⟩ :=
    exists_adjusted h hreach.inv hformat hlt
  have horigin : ∀ s ∈ slots, s.origin < total :=
    fun s hs => hlt _ (mem_registers (hrep.operand_mem hs))
  have hne : ∀ s ∈ slots, s.tmp ≠ s.origin :=
    fun s hs => (hapart.tmp_not_operand s hs _ (hrep.operand_mem hs)).symm
  have hfit : sourcesFit format ins.operands ↔ ¬ ∃ s ∈ slots, s.isSrc := by
    rw [hsrc]
    simp only [sourcesFit]
    grind
  refine ⟨code, hinsns, ?_⟩
  rw [hcode, hfit]
  constructor
  · rintro hkeeps ⟨s, hs, hread⟩
    refine hne s hs (idle_of_throwKeeps (fun V f m => throwState_tail f slots m) horigin ?_ hkeeps s hs
      hread (hslots s hs).1)
    intro s hs hlt
    exact absurd hlt (Nat.not_lt.mpr (hslots s hs).2)
  · intro hnone
    refine throwKeeps_of_idle (fun V f m => throwState_tail f slots m)
      (fun s hs => Nat.not_lt.mpr (hslots s hs).2) fun s hs hread => ?_
    exact absurd ⟨s, hs, hread⟩ hnone

/-- Whatever state the allocator is in: when the code of an instruction throws, the registers of the
function are as they were before it, exactly if no operand had to be moved in. -/
theorem throwKeeps_iff_readsInPlace {ins : IRNode} (hreach : a.Reachable total)
    (hlt : ins.RegistersLt total) (h : a.adjustInstruction ins = some a') :
    ∃ code, a'.newInsns = a.newInsns ++ code ∧
      (ThrowKeeps (· < total) (code.map Emitted.toInstr) ↔ ins.readsInPlace total) := by
  unfold adjustInstruction at h
  unfold IRNode.readsInPlace
  cases hrange : ins.rangeStart with
  | some rangeRegOffset =>
    simp only [hrange, Option.bind_eq_bind, Option.bind_eq_some_iff] at h
    obtain ⟨level, hlevel, ok, hok, h⟩ := h
    cases ok with
    | true =>
      cases h
      exact ⟨_, rfl, iff_of_true (throwKeeps_node _ _) (.inl ⟨level, hlevel, hok⟩)⟩
    | false =>
      simp only [Bool.false_eq_true, if_false, adjustDynRangeInstruction, Option.bind_eq_bind,
        Option.bind_eq_some_iff, Option.some.injEq, Prod.exists] at h
      obtain ⟨tmp, a₁, htmp, r, a₂, hloop, rfl⟩ := h
      obtain rfl := hreach.unflagged.findTmpVreg htmp
      obtain ⟨rfl, -⟩ := findTmpVreg_spec htmp
      have htaken := rangeLoop_taken hloop (hreach.inv.mark 0)
      obtain ⟨slots, hhead, htail, hspills, horigin, hidle⟩ := exists_rangeSlots hloop
        fun n hn => hlt n (List.mem_of_mem_drop hn)
      have hspill : ∀ s ∈ slots, total ≤ s.spill :=
        fun s hs => (htaken.ge _ (hspills ▸ List.mem_map_of_mem hs)).1
      refine ⟨_, congrArg (· ++ _) htaken.later.newInsns_eq, ?_⟩
      refine (@throwKeeps_slots total slots ins
        { r with operands := ins.operands.take rangeRegOffset ++ r.operands }
        hhead htail horigin hspill).trans (hidle.trans ?_)
      refine ⟨.inr, fun hor => hor.resolve_left ?_⟩
      rintro ⟨level', hlevel', hok'⟩
      obtain rfl := Option.some.inj (hlevel.symm.trans hlevel')
      rw [hok] at hok'
      cases hok'
  | none =>
    simp only [hrange, Option.bind_eq_bind, Option.bind_eq_some_iff] at h
    obtain ⟨first, hfirst, h⟩ := h
    have hmem : (minFormat ins.operands (first, ins.operands.length) ins.op.formats).1 ∈
        ins.op.formats := by
      obtain heq | hmem := @mem_minFormat ins.operands ins.op.formats (first, ins.operands.length)
      · exact heq ▸ List.mem_of_mem_head? hfirst
      · exact hmem
    have hforall (P : Format → Prop) : (∀ f ∈ ins.op.formats.head?, P f) ↔ P first := by
      rw [hfirst]
      simp
    simp only
    rw [hforall fun first => sourcesFit
      (minFormat ins.operands (first, ins.operands.length) ins.op.formats).1 ins.operands]
    split at h
    · exact throwKeeps_iff_sourcesFit h hreach hmem hlt
    · next hmin =>
      cases h
      refine ⟨_, rfl, iff_of_true (throwKeeps_node _ _) ?_⟩
      have hzero := Nat.eq_zero_of_not_pos hmin
      obtain heq | hnum := @minFormat_snd ins.operands ins.op.formats (first, ins.operands.length)
      · rw [heq] at hzero
        have hnil : ins.operands = [] := List.eq_nil_of_length_eq_zero hzero
        simp [sourcesFit, hnil]
      · exact sourcesFit_of_getNum (hnum ▸ hzero)

end RegAllocator

end ArkTs2abc.Ts2panda
