import ArkTs2abc.Es2panda.Compiler.RegAllocator

/-!
# Executing spilled instructions

The emitted code runs on an accumulator and a register file. An instruction reads
the accumulator and its source registers, in operand order, and either throws or
produces a new accumulator and one value for each destination operand.

## Main definitions

* `RegFile`, `InsnSem` — the machine and the meaning of one instruction.
* `exec` — running what the allocator emitted.
* `SpillSimulates` — the emitted code does what the instruction does.
* `SpillSafe` — when that is so.
-/

namespace ArkTs2abc.Es2panda

/-- Accumulator and registers. -/
structure RegFile (V : Type) where
  acc : V
  regs : VReg → V

/-- The meaning of an instruction: from the accumulator and the source registers to the new
accumulator and the value of the destination at each operand position; `none` when it throws. -/
abbrev InsnSem (V : Type) := V → List V → Option (V × (ℕ → V))

namespace RegFile

variable {V : Type}

def set (m : RegFile V) (vd : VReg) (v : V) : RegFile V :=
  { m with regs := Function.update m.regs vd v }

/-- The values of the source operands. -/
def sources (m : RegFile V) (operands : List (OperandKind × VReg)) : List V :=
  (operands.filter (·.1.isSrc)).map (m.regs ·.2)

/-- Writing the destination operands from position `i` on, in operand order. -/
def writeDsts (out : ℕ → V) : ℕ → List (OperandKind × VReg) → (VReg → V) → VReg → V
  | _, [], regs => regs
  | i, (kind, reg) :: operands, regs =>
    writeDsts out (i + 1) operands (if kind.isDst then Function.update regs reg (out i) else regs)

def execNode (sem : InsnSem V) (operands : List (OperandKind × VReg)) (m : RegFile V) :
    Option (RegFile V) :=
  (sem m.acc (m.sources operands)).map fun (acc, out) =>
    { acc, regs := writeDsts out 0 operands m.regs }

end RegFile

/-- Running emitted code; every node stands for the instruction being compiled. -/
def exec {V : Type} (sem : InsnSem V) : List Emitted → RegFile V → Option (RegFile V)
  | [], m => some m
  | .movDyn vd vs :: code, m => exec sem code (m.set vd (m.regs vs))
  | .node ins :: code, m => (m.execNode sem ins.operands).bind (exec sem code)

/-- Whatever completes over the emitted code completes over the instruction itself, with the same
accumulator and the same registers below `mark`. -/
def SpillSimulates (counter : RegCounter) (mark : ℕ) (ins : IRNode) : Prop :=
  ∀ (V : Type) (sem : InsnSem V) (m m' : RegFile V),
    exec sem (RegAllocator.run counter ins).1 m = some m' →
    ∃ m₀, m.execNode sem ins.operands = some m₀ ∧ m₀.acc = m'.acc ∧
      ∀ reg : VReg, reg.toNat < mark → m₀.regs reg = m'.regs reg

/-- Saving a stand-in does no harm: each goes to a register outside the function, or onto itself. -/
def ScratchFree (usedRegs : UInt32) (mark k : ℕ) : Prop :=
  usedRegs.toNat % 2 ^ 16 = 0 ∨ ∀ i < k, mark ≤ (scratch usedRegs i).toNat

/-- The instructions the allocator gets right. The moves after the instruction go from the low
registers to the saved ones, so that nothing is restored: an instruction that is spilled at all
must overwrite by itself each register borrowed for it, read none of them, and have no
destination among the spilled operands. -/
def SpillSafe (counter : RegCounter) (mark : ℕ) (ins : IRNode) : Prop :=
  ins.fits ∨
    (∀ o ∈ ins.operands, ins.limit ≤ o.2.toNat → o.1.isDst = false) ∧
    (∀ j < ins.spilled.length, ∃ o ∈ ins.operands, o.1.isDst ∧ o.2.toNat = j) ∧
    (∀ o ∈ ins.operands, o.2.toNat < ins.spilled.length → o.1.isSrc = false) ∧
    ScratchFree counter.usedRegs mark ins.spilled.length

instance (usedRegs : UInt32) (mark k : ℕ) : Decidable (ScratchFree usedRegs mark k) :=
  inferInstanceAs (Decidable (_ ∨ _))

instance (counter : RegCounter) (mark : ℕ) (ins : IRNode) :
    Decidable (SpillSafe counter mark ins) :=
  inferInstanceAs (Decidable (_ ∨ _))

/-! ## Writing destinations -/

namespace RegFile

variable {V : Type} {out : ℕ → V} {operands : List (OperandKind × VReg)}

theorem writeDsts_of_not_dst {i : ℕ} {regs : VReg → V} {r : VReg}
    (h : ∀ o ∈ operands, o.1.isDst → o.2 ≠ r) :
    writeDsts out i operands regs r = regs r := by
  induction operands generalizing i regs with
  | nil => rfl
  | cons o operands ih =>
    obtain ⟨kind, reg⟩ := o
    rw [writeDsts, ih fun o ho => h o (List.mem_cons_of_mem _ ho)]
    split
    · next hd => exact Function.update_of_ne (h _ List.mem_cons_self hd).symm _ _
    · rfl

theorem writeDsts_of_dst (out : ℕ → V) (i : ℕ) {r : VReg} (h : ∃ o ∈ operands, o.1.isDst ∧ o.2 = r) :
    ∃ j, (∃ o, operands[j]? = some o ∧ o.2 = r) ∧
      ∀ regs : VReg → V, writeDsts out i operands regs r = out (i + j) := by
  induction operands generalizing i with
  | nil => simp at h
  | cons o operands ih =>
    by_cases ht : ∃ o ∈ operands, o.1.isDst ∧ o.2 = r
    · obtain ⟨j, ⟨o', ho', hr⟩, hw⟩ := ih (i + 1) ht
      refine ⟨j + 1, ⟨o', by simpa using ho', hr⟩, fun regs => ?_⟩
      rw [writeDsts, hw, Nat.add_right_comm, Nat.add_assoc]
    · obtain ⟨kind, reg⟩ := o
      obtain ⟨o', ho', hd, hr⟩ := h
      obtain rfl | ho' := List.mem_cons.mp ho'
      · refine ⟨0, ⟨_, rfl, hr⟩, fun regs => ?_⟩
        have hrest : ∀ o ∈ operands, o.1.isDst → o.2 ≠ r :=
          fun o ho hd hr => ht ⟨o, ho, hd, hr⟩
        simp only at hd hr
        rw [writeDsts, writeDsts_of_not_dst hrest, if_pos hd, ← hr, Function.update_self]
        rfl
      · exact absurd ⟨o', ho', hd, hr⟩ ht

theorem writeDsts_congr {operands' : List (OperandKind × VReg)}
    (h : List.Forall₂ (fun o o' => o' = o ∨ o.1.isDst = false ∧ o'.1.isDst = false)
      operands operands') (i : ℕ) (regs : VReg → V) :
    writeDsts out i operands regs = writeDsts out i operands' regs := by
  induction h generalizing i regs with
  | nil => rfl
  | cons hd _ ih =>
    rcases hd with rfl | ⟨hd, hd'⟩
    · exact ih _ _
    · simpa [writeDsts, hd, hd'] using ih (i + 1) regs

theorem writeDsts_congr_base {i : ℕ} {regs regs' : VReg → V} {r : VReg} (h : regs r = regs' r) :
    writeDsts out i operands regs r = writeDsts out i operands regs' r := by
  by_cases hr : ∃ o ∈ operands, o.1.isDst ∧ o.2 = r
  · obtain ⟨j, -, hj⟩ := writeDsts_of_dst out i hr
    rw [hj, hj]
  · have hnot : ∀ o ∈ operands, o.1.isDst → o.2 ≠ r := fun o ho hd heq => hr ⟨o, ho, hd, heq⟩
    rw [writeDsts_of_not_dst hnot, writeDsts_of_not_dst hnot, h]

theorem sources_eq_iff {m m' : RegFile V} {operands' : List (OperandKind × VReg)}
    (h : List.Forall₂ (fun o o' => o'.1 = o.1) operands operands') :
    m.sources operands = m'.sources operands' ↔
      List.Forall₂ (fun o o' => o.1.isSrc → m.regs o.2 = m'.regs o'.2) operands operands' := by
  induction h with
  | nil => simp [sources]
  | @cons o o' operands operands' hk _ ih =>
    rw [List.forall₂_cons, ← ih]
    by_cases hs : o.1.isSrc <;> simp [sources, hs, hk]

end RegFile

/-! ## The operands after renumbering -/

/-- How the operand `reg` is rewritten, when the spilled ones are `out` and the first of them
has index `k`. -/
def Rewritten (limit k : ℕ) (out : List VReg) (reg reg' : VReg) : Prop :=
  reg.toNat < limit ∧ reg' = reg ∨
    limit ≤ reg.toNat ∧ ∃ j, out[j]? = some reg ∧ reg' = UInt16.ofNat (k + j)

theorem renumber_rewritten (limit k : ℕ) (regs : List VReg) :
    List.Forall₂ (Rewritten limit k (overLimit limit regs)) regs (renumber limit k regs) := by
  induction regs generalizing k with
  | nil => exact .nil
  | cons reg regs ih =>
    rw [renumber]
    by_cases hr : isRegisterCorrect limit reg
    · have hover : overLimit limit (reg :: regs) = overLimit limit regs := by simp [overLimit, hr]
      rw [if_pos hr, hover]
      exact .cons (.inl ⟨by simpa [isRegisterCorrect] using hr, rfl⟩) (ih k)
    · have hover : overLimit limit (reg :: regs) = reg :: overLimit limit regs := by
        simp [overLimit, hr]
      have hle : limit ≤ reg.toNat := by simpa [isRegisterCorrect] using hr
      rw [if_neg hr, hover]
      refine .cons (.inr ⟨hle, 0, rfl, rfl⟩) ((ih (k + 1)).imp fun a b hab => ?_)
      rcases hab with h | ⟨h, j, hj, rfl⟩
      · exact .inl h
      · exact .inr ⟨h, j + 1, hj, by rw [Nat.add_assoc, Nat.add_comm 1 j]⟩

theorem forall₂_zip {α β : Type} {R : β → β → Prop} (ks : List α) {xs ys : List β}
    (h : List.Forall₂ R xs ys) :
    List.Forall₂ (fun o o' => o'.1 = o.1 ∧ R o.2 o'.2) (ks.zip xs) (ks.zip ys) := by
  induction h generalizing ks with
  | nil => cases ks <;> exact .nil
  | cons hxy _ ih =>
    cases ks with
    | nil => exact .nil
    | cons k ks => exact .cons ⟨rfl, hxy⟩ (ih ks)

theorem IRNode.renumbered_operands (ins : IRNode) :
    List.Forall₂ (fun o o' =>
        o ∈ ins.operands ∧ o'.1 = o.1 ∧ Rewritten ins.limit 0 ins.spilled o.2 o'.2)
      ins.operands ins.renumbered.operands :=
  (List.forall₂_and_left _ _).mpr
    ⟨fun _ ho => ho, forall₂_zip _ (renumber_rewritten ins.limit 0 ins.registers)⟩

theorem exists_of_forall₂ {α β : Type} {R S : α → β → Prop} {l : List α} {u : List β}
    (hr : List.Forall₂ R l u) (hs : List.Forall₂ S l u) {a : α} (ha : a ∈ l) :
    ∃ b, R a b ∧ S a b := by
  obtain ⟨i, hi, rfl⟩ := List.getElem_of_mem ha
  exact ⟨_, hr.get hi (hr.length_eq ▸ hi), hs.get hi (hr.length_eq ▸ hi)⟩

theorem le_formatLimit {f : Format} (hw : ∀ item ∈ f, item.kind.isVReg → item.bitwidth ∈ [4, 8, 16])
    (hv : f.vregKinds ≠ []) (limit : ℕ) : 16 ≤ formatLimit limit f := by
  unfold formatLimit
  split
  · next item hfind =>
    have hmem := hw item (List.mem_of_find?_eq_some hfind) (by simpa using List.find?_some hfind)
    rcases (by simpa using hmem : item.bitwidth = 4 ∨ item.bitwidth = 8 ∨ item.bitwidth = 16) with
      h | h | h <;> rw [h] <;> decide
  · next _ hfind =>
    refine absurd ?_ hv
    simpa [Format.vregKinds, List.filter_eq_nil_iff] using hfind

theorem le_checkRegIndices {regs : List VReg} {formats : List Format} {limit : ℕ}
    (hf : ∀ f ∈ formats, ∀ limit, 16 ≤ formatLimit limit f) (h : 16 ≤ limit ∨ formats ≠ []) :
    16 ≤ (checkRegIndices regs limit formats).2 := by
  induction formats generalizing limit with
  | nil => simpa [checkRegIndices] using h
  | cons f formats ih =>
    have hlim := hf f List.mem_cons_self limit
    rw [checkRegIndices]
    split
    · exact hlim
    · exact ih (fun f hmem => hf f (List.mem_cons_of_mem _ hmem)) (.inl hlim)

theorem IRNode.le_limit {ins : IRNode} (h : ins.fits = false) : 16 ≤ ins.limit := by
  have hkinds : ins.op.kinds ≠ [] := by
    intro hnil
    have hregs : ins.registers = [] :=
      List.eq_nil_of_length_eq_zero (by rw [ins.length_eq, hnil, List.length_nil])
    cases hform : ins.op.formats with
    | nil => exact ins.op.formats_ne_nil hform
    | cons f fs => simp [IRNode.fits, hform, hregs, checkRegIndices] at h
  refine le_checkRegIndices (fun f hf => le_formatLimit (ins.op.bitwidth_mem f hf) ?_)
    (.inr ins.op.formats_ne_nil)
  rwa [ins.op.vregKinds_eq f hf]

/-! ## Running the moves -/

section Moves

variable {V : Type} (sem : InsnSem V) (usedRegs : UInt32)

/-- The register file once the spilled operands from the `k`-th on have been moved in. -/
def spillState : ℕ → List VReg → RegFile V → RegFile V
  | _, [], m => m
  | k, reg :: regs, m =>
    let saved := m.set (scratch usedRegs k) (m.regs (UInt16.ofNat k))
    spillState (k + 1) regs (saved.set (UInt16.ofNat k) (saved.regs reg))

/-- The register file after the restoring moves of the first `k` stand-ins. -/
def restoreState : ℕ → RegFile V → RegFile V
  | 0, m => m
  | k + 1, m => restoreState k (m.set (scratch usedRegs k) (m.regs (UInt16.ofNat k)))

theorem exec_spillMoves (k : ℕ) (regs : List VReg) (m : RegFile V) (code : List Emitted) :
    exec sem (spillMoves usedRegs k regs ++ code) m =
      exec sem code (spillState usedRegs k regs m) := by
  induction regs generalizing k m with
  | nil => rfl
  | cons reg regs ih => exact ih _ _

theorem exec_restoreMoves (k : ℕ) (m : RegFile V) :
    exec sem (restoreMoves usedRegs k) m = some (restoreState usedRegs k m) := by
  induction k generalizing m with
  | zero => rfl
  | succ k ih => exact ih _

theorem exec_run_of_not_fits (counter : RegCounter) {ins : IRNode} (h : ins.fits = false)
    (m : RegFile V) :
    exec sem (RegAllocator.run counter ins).1 m =
      ((spillState counter.usedRegs 0 ins.spilled m).execNode sem ins.renumbered.operands).map
        (restoreState counter.usedRegs ins.spilled.length) := by
  rw [RegAllocator.run_of_not_fits counter h, exec_spillMoves, exec]
  simp only [exec_restoreMoves, Option.map_eq_bind]
  rfl

@[simp] theorem acc_spillState (k : ℕ) (regs : List VReg) (m : RegFile V) :
    (spillState usedRegs k regs m).acc = m.acc := by
  induction regs generalizing k m with
  | nil => rfl
  | cons reg regs ih => exact ih _ _

@[simp] theorem acc_restoreState (k : ℕ) (m : RegFile V) :
    (restoreState usedRegs k m).acc = m.acc := by
  induction k generalizing m with
  | zero => rfl
  | succ k ih => exact ih _

variable {usedRegs} {mark : ℕ}

theorem toNat_ofNat_of_lt {k : ℕ} (hk : k < 2 ^ 16) : (UInt16.ofNat k).toNat = k := by
  rw [UInt16.toNat_ofNat', Nat.mod_eq_of_lt hk]

theorem ScratchFree.out_or_self {k : ℕ} (h : ScratchFree usedRegs mark k) {i : ℕ} (hi : i < k) :
    mark ≤ (scratch usedRegs i).toNat ∨ scratch usedRegs i = UInt16.ofNat i := by
  rcases h with h | h
  · right
    apply UInt16.toNat_inj.mp
    simp only [scratch, UInt16.toNat_ofNat']
    omega
  · exact .inl (h i hi)

theorem regs_set_scratch {k : ℕ}
    (h : mark ≤ (scratch usedRegs k).toNat ∨ scratch usedRegs k = UInt16.ofNat k)
    (m : RegFile V) {reg : VReg} (hreg : reg.toNat < mark) :
    (m.set (scratch usedRegs k) (m.regs (UInt16.ofNat k))).regs reg = m.regs reg := by
  by_cases heq : reg = scratch usedRegs k
  · rcases h with h | h
    · exact absurd (heq ▸ h) (not_le.mpr hreg)
    · rw [heq, h]
      exact Function.update_self ..
  · exact Function.update_of_ne heq _ _

/-- The spilled operands are moved into the stand-ins, and nothing else of the function moves. -/
theorem spillState_regs (regs : List VReg) {k : ℕ} {m : RegFile V}
    (hlen : k + regs.length ≤ 16)
    (hfree : ∀ i < k + regs.length,
      mark ≤ (scratch usedRegs i).toNat ∨ scratch usedRegs i = UInt16.ofNat i)
    (hregs : ∀ r ∈ regs, 16 ≤ r.toNat ∧ r.toNat < mark) :
    (∀ i r, regs[i]? = some r →
      (spillState usedRegs k regs m).regs (UInt16.ofNat (k + i)) = m.regs r) ∧
    ∀ r : VReg, r.toNat < mark → r.toNat < k ∨ k + regs.length ≤ r.toNat →
      (spillState usedRegs k regs m).regs r = m.regs r := by
  induction regs generalizing k m with
  | nil => simp [spillState]
  | cons reg regs ih =>
    have hreg := hregs reg List.mem_cons_self
    have hk : (UInt16.ofNat k).toNat = k := toNat_ofNat_of_lt (by simp at hlen; omega)
    have hsave {r : VReg} (hr : r.toNat < mark) := regs_set_scratch (hfree k (by simp)) m hr
    -- the state the remaining operands are spilled from
    generalize hm₁ : (m.set (scratch usedRegs k) (m.regs (UInt16.ofNat k))).set (UInt16.ofNat k)
      ((m.set (scratch usedRegs k) (m.regs (UInt16.ofNat k))).regs reg) = m₁
    have hself : m₁.regs (UInt16.ofNat k) = m.regs reg := by
      rw [← hm₁, ← hsave hreg.2]
      exact Function.update_self ..
    have hother {r : VReg} (hr : r.toNat < mark) (hne : r.toNat ≠ k) : m₁.regs r = m.regs r := by
      rw [← hm₁, ← hsave hr]
      exact Function.update_of_ne (fun h => hne (by rw [h, hk])) _ _
    obtain ⟨hin, hout⟩ := ih (k := k + 1) (m := m₁) (by simp at hlen; omega)
      (fun i hi => hfree i (by simp; omega)) (fun r hr => hregs r (List.mem_cons_of_mem _ hr))
    have hstate : spillState usedRegs k (reg :: regs) m = spillState usedRegs (k + 1) regs m₁ := by
      rw [← hm₁]
      rfl
    rw [hstate]
    refine ⟨fun i r hi => ?_, fun r hr hcase => ?_⟩
    · cases i with
      | zero =>
        obtain rfl : reg = r := by simpa using hi
        have hk₀ : (UInt16.ofNat (k + 0)).toNat = k := hk
        rw [hout _ (by omega) (by omega)]
        exact hself
      | succ i =>
        have hmem := List.mem_of_getElem? (by simpa using hi : regs[i]? = some r)
        have hr := hregs r (List.mem_cons_of_mem _ hmem)
        rw [Nat.add_comm i 1, ← Nat.add_assoc, hin i r (by simpa using hi),
          hother hr.2 (by simp at hlen; omega)]
    · simp only [List.length_cons] at hcase
      rw [hout r hr (by omega), hother hr (by omega)]

theorem restoreState_regs {k : ℕ} {m : RegFile V}
    (hfree : ∀ i < k, mark ≤ (scratch usedRegs i).toNat ∨ scratch usedRegs i = UInt16.ofNat i)
    {reg : VReg} (hreg : reg.toNat < mark) :
    (restoreState usedRegs k m).regs reg = m.regs reg := by
  induction k generalizing m with
  | zero => rfl
  | succ k ih =>
    exact (ih fun i hi => hfree i (by omega)).trans (regs_set_scratch (hfree k (by omega)) m hreg)

theorem restoreState_scratch {k i : ℕ} {m : RegFile V} (hi : i < k) (hmark : i < mark)
    (hk : k ≤ 16) (hbefore : ∀ j < i, mark ≤ (scratch usedRegs j).toNat)
    (hscratch : (scratch usedRegs i).toNat < mark) :
    (restoreState usedRegs k m).regs (scratch usedRegs i) =
      (restoreState usedRegs k m).regs (UInt16.ofNat i) := by
  induction k generalizing m with
  | zero => omega
  | succ k ih =>
    rcases Nat.lt_succ_iff_lt_or_eq.mp hi with hlt | rfl
    · exact ih hlt (by omega)
    · have hlow : (UInt16.ofNat i).toNat < mark := by rwa [toNat_ofNat_of_lt (by omega)]
      rw [restoreState, restoreState_regs (fun j hj => .inl (hbefore j hj)) hscratch,
        restoreState_regs (fun j hj => .inl (hbefore j hj)) hlow]
      by_cases h : UInt16.ofNat i = scratch usedRegs i
      · rw [← h]
      · exact (Function.update_self ..).trans (Function.update_of_ne h _ _).symm

end Moves

/-! ## Exactly the safe instructions are simulated -/

section Simulation

variable {counter : RegCounter} {mark : ℕ} {ins : IRNode}

theorem IRNode.length_spilled_lt (ins : IRNode) : ins.spilled.length < 16 :=
  ins.length_spilled_le.trans_lt (by decide)

theorem mem_overLimit {limit : ℕ} {regs : List VReg} {r : VReg} :
    r ∈ overLimit limit regs ↔ r ∈ regs ∧ limit ≤ r.toNat := by
  simp [overLimit, isRegisterCorrect]

theorem IRNode.snd_mem_registers {o : OperandKind × VReg} (ho : o ∈ ins.operands) :
    o.2 ∈ ins.registers :=
  (List.of_mem_zip ho).2

/-- The register file an unfit instruction is executed on: below `mark`, only the stand-ins
have changed. -/
theorem spillState_rewritten (hfit : ins.fits = false)
    (hmark : ∀ r ∈ ins.registers, r.toNat < mark)
    (hfree : ScratchFree counter.usedRegs mark ins.spilled.length) {V : Type} (m : RegFile V) :
    (∀ j r, ins.spilled[j]? = some r →
      (spillState counter.usedRegs 0 ins.spilled m).regs (UInt16.ofNat j) = m.regs r) ∧
    ∀ r : VReg, r.toNat < mark → ins.spilled.length ≤ r.toNat →
      (spillState counter.usedRegs 0 ins.spilled m).regs r = m.regs r := by
  have hlen := ins.length_spilled_lt
  have hlimit := IRNode.le_limit hfit
  have h := spillState_regs ins.spilled (k := 0) (m := m) (by omega)
    (fun i hi => hfree.out_or_self (by simpa using hi))
    fun r hr => ⟨hlimit.trans (mem_overLimit.mp hr).2, hmark r (mem_overLimit.mp hr).1⟩
  simp only [Nat.zero_add] at h
  exact ⟨h.1, fun r hr hle => h.2 r hr (.inr hle)⟩

theorem spillSimulates_of_safe (hmark : ∀ r ∈ ins.registers, r.toNat < mark)
    (h : SpillSafe counter mark ins) : SpillSimulates counter mark ins := by
  intro V sem m m' hrun
  cases hfit : ins.fits with
  | true =>
    rw [RegAllocator.run_of_fits counter hfit] at hrun
    refine ⟨m', ?_, rfl, fun _ _ => rfl⟩
    simpa [exec] using hrun
  | false =>
    obtain ⟨hdst, hcover, hread, hfree⟩ := h.resolve_left (by simp [hfit])
    rw [exec_run_of_not_fits sem counter hfit] at hrun
    obtain ⟨hin, hout⟩ := spillState_rewritten hfit hmark hfree m
    generalize hm₁ : spillState counter.usedRegs 0 ins.spilled m = m₁ at hrun hin hout
    have hacc : m₁.acc = m.acc := by rw [← hm₁, acc_spillState]
    have hsources : m.sources ins.operands = m₁.sources ins.renumbered.operands := by
      refine (RegFile.sources_eq_iff (ins.renumbered_operands.imp fun _ _ h => h.2.1)).mpr
        (ins.renumbered_operands.imp ?_)
      rintro o o' ⟨ho, -, ⟨-, heq⟩ | ⟨-, j, hj, heq⟩⟩ hsrc
      · have hlow : ins.spilled.length ≤ o.2.toNat := by
          by_contra hlt
          simp [hread o ho (not_le.mp hlt)] at hsrc
        rw [heq, hout _ (hmark _ (IRNode.snd_mem_registers ho)) hlow]
      · rw [heq, Nat.zero_add, hin j _ hj]
    have hwrites (out : ℕ → V) (regs : VReg → V) : RegFile.writeDsts out 0 ins.operands regs =
        RegFile.writeDsts out 0 ins.renumbered.operands regs := by
      refine RegFile.writeDsts_congr (ins.renumbered_operands.imp ?_) 0 regs
      rintro o o' ⟨ho, hkind, ⟨-, heq⟩ | ⟨hle, -⟩⟩
      · exact .inl (Prod.ext hkind heq)
      · exact .inr ⟨hdst o ho hle, hkind ▸ hdst o ho hle⟩
    rw [RegFile.execNode, ← hsources, hacc] at hrun
    obtain ⟨m₂, ⟨⟨acc, out⟩, hsem, rfl⟩, rfl⟩ := by simpa only [Option.map_eq_some_iff] using hrun
    refine ⟨⟨acc, RegFile.writeDsts out 0 ins.operands m.regs⟩, by rw [RegFile.execNode, hsem]; rfl,
      by simp, fun reg hreg => ?_⟩
    rw [restoreState_regs (fun i hi => hfree.out_or_self hi) hreg, ← hwrites]
    change RegFile.writeDsts out 0 ins.operands m.regs reg =
      RegFile.writeDsts out 0 ins.operands m₁.regs reg
    by_cases hlow : reg.toNat < ins.spilled.length
    · obtain ⟨o, ho, hd, hreg'⟩ := hcover _ hlow
      obtain ⟨j, -, hwrite⟩ := RegFile.writeDsts_of_dst out 0
        ⟨o, ho, hd, UInt16.toNat_inj.mp hreg'⟩
      rw [hwrite, hwrite]
    · exact RegFile.writeDsts_congr_base (hout reg hreg (not_lt.mp hlow)).symm

/-! The converse is settled by one instruction that shows all it reads and writes: it is run on
the register file in which every register holds its own number, it reports in the accumulator
whether its sources are the ones it was written with, and its outputs are no register's number. -/

namespace Probe

def file : RegFile ℕ := ⟨0, UInt16.toNat⟩

def out (i : ℕ) : ℕ := 2 ^ 16 + i

def sem (expected : List ℕ) : InsnSem ℕ :=
  fun _ sources => some (if sources = expected then 0 else 1, out)

theorem toNat_ne_out (r : VReg) (i : ℕ) : r.toNat ≠ out i := by
  have := r.toNat_lt
  simp only [out]
  omega

theorem writeDsts_injective (operands : List (OperandKind × VReg)) {r r' : VReg}
    (h : RegFile.writeDsts out 0 operands file.regs r =
      RegFile.writeDsts out 0 operands file.regs r') : r = r' := by
  by_cases hr : ∃ o ∈ operands, o.1.isDst ∧ o.2 = r
  · obtain ⟨j, ⟨o, ho, hor⟩, hj⟩ := RegFile.writeDsts_of_dst out 0 hr
    by_cases hr' : ∃ o ∈ operands, o.1.isDst ∧ o.2 = r'
    · obtain ⟨j', ⟨o', ho', hor'⟩, hj'⟩ := RegFile.writeDsts_of_dst out 0 hr'
      have hjj : j = j' := by
        rw [hj, hj', out, out] at h
        omega
      subst hjj
      rw [← hor, ← hor', Option.some_inj.mp (ho.symm.trans ho')]
    · rw [hj, RegFile.writeDsts_of_not_dst fun o ho hd heq => hr' ⟨o, ho, hd, heq⟩] at h
      exact absurd h.symm (toNat_ne_out _ _)
  · rw [RegFile.writeDsts_of_not_dst fun o ho hd heq => hr ⟨o, ho, hd, heq⟩] at h
    by_cases hr' : ∃ o ∈ operands, o.1.isDst ∧ o.2 = r'
    · obtain ⟨j', -, hj'⟩ := RegFile.writeDsts_of_dst out 0 hr'
      rw [hj'] at h
      exact absurd h (toNat_ne_out _ _)
    · rw [RegFile.writeDsts_of_not_dst fun o ho hd heq => hr' ⟨o, ho, hd, heq⟩] at h
      exact UInt16.toNat_inj.mp h

/-- What the probe shows: the rewritten instruction reads the same, and the registers of the
function are left the same. -/
theorem spec (hsim : SpillSimulates counter mark ins) (hfit : ins.fits = false) :
    let m₁ := spillState counter.usedRegs 0 ins.spilled file
    file.sources ins.operands = m₁.sources ins.renumbered.operands ∧
      ∀ reg : VReg, reg.toNat < mark →
        RegFile.writeDsts out 0 ins.operands file.regs reg =
          (restoreState counter.usedRegs ins.spilled.length
            ⟨0, RegFile.writeDsts out 0 ins.renumbered.operands m₁.regs⟩).regs reg := by
  intro m₁
  obtain ⟨m₀, hm₀, hacc, hregs⟩ := hsim ℕ (sem (file.sources ins.operands)) file _
    ((exec_run_of_not_fits _ counter hfit file).trans rfl)
  obtain rfl : _ = m₀ := Option.some_inj.mp (Eq.trans (by rfl) hm₀)
  simp only [↓reduceIte, acc_restoreState] at hacc
  have hsources : m₁.sources ins.renumbered.operands = file.sources ins.operands := by
    by_contra hne
    rw [if_neg hne] at hacc
    exact absurd hacc (by decide)
  refine ⟨hsources.symm, fun reg hreg => ?_⟩
  rw [if_pos hsources] at hregs
  exact hregs reg hreg

end Probe

theorem IRNode.exists_over_limit (hfit : ins.fits = false) :
    ∃ r ∈ ins.registers, ins.limit ≤ r.toNat := by
  have hall (regs : List VReg) (formats : List Format) (limit : ℕ) (hne : formats ≠ [])
      (h : (checkRegIndices regs limit formats).1 = false) :
      ∃ r ∈ regs, (checkRegIndices regs limit formats).2 ≤ r.toNat := by
    induction formats generalizing limit with
    | nil => exact absurd rfl hne
    | cons f formats ih =>
      rw [checkRegIndices] at h ⊢
      split at h
      · simp at h
      · next hnot =>
        rw [if_neg hnot]
        cases formats with
        | nil => simpa [checkRegIndices, isRegisterCorrect] using hnot
        | cons f' formats => exact ih _ (List.cons_ne_nil _ _) h
  exact hall _ _ 0 ins.op.formats_ne_nil hfit

theorem IRNode.renumbered_lt_limit (ins : IRNode) (hfit : ins.fits = false)
    {o' : OperandKind × VReg} (ho' : o' ∈ ins.renumbered.operands) : o'.2.toNat < ins.limit := by
  obtain ⟨o, ⟨-, -, h⟩, -⟩ := exists_of_forall₂ ins.renumbered_operands.flip
    ins.renumbered_operands.flip ho'
  rcases h with ⟨hlt, heq⟩ | ⟨-, j, hj, heq⟩
  · rwa [heq]
  · obtain ⟨hlen, -⟩ := List.getElem?_eq_some_iff.mp hj
    have := ins.length_spilled_lt
    have := IRNode.le_limit hfit
    rw [heq, Nat.zero_add, toNat_ofNat_of_lt (by omega)]
    omega

section

variable (hmark : ∀ r ∈ ins.registers, r.toNat < mark)
include hmark

theorem lt_mark (hfit : ins.fits = false) :
    16 < mark := by
  obtain ⟨r, hr, hle⟩ := IRNode.exists_over_limit hfit
  have := IRNode.le_limit hfit
  have := hmark r hr
  omega

theorem scratchFree_of_simulates (hfit : ins.fits = false) (hsim : SpillSimulates counter mark ins) :
    ScratchFree counter.usedRegs mark ins.spilled.length := by
  have hlen := ins.length_spilled_lt
  have hlt := lt_mark hmark hfit
  by_contra hnot
  obtain ⟨hwrap, hin⟩ := not_or.mp hnot
  -- the first save that lands in the function
  have hex : ∃ i, i < ins.spilled.length ∧ (scratch counter.usedRegs i).toNat < mark := by
    simpa only [not_forall, not_le, exists_prop] using hin
  obtain ⟨hi, hscratch⟩ := Nat.find_spec hex
  have hbefore (j : ℕ) (hj : j < Nat.find hex) : mark ≤ (scratch counter.usedRegs j).toNat := by
    have := Nat.find_min hex hj
    simp only [not_and, not_lt] at this
    exact this (by omega)
  generalize Nat.find hex = i at hi hscratch hbefore
  have hlow : (UInt16.ofNat i).toNat < mark := by
    rw [toNat_ofNat_of_lt (by omega)]
    omega
  have hspec := (Probe.spec hsim hfit).2
  have hsame := Probe.writeDsts_injective ins.operands
    ((hspec _ hscratch).trans ((restoreState_scratch hi (by omega) (by omega) hbefore hscratch).trans
      (hspec _ hlow).symm))
  have hval := congrArg UInt16.toNat hsame
  simp only [scratch, UInt16.toNat_ofNat'] at hval
  omega

theorem safe_of_spillSimulates (hsim : SpillSimulates counter mark ins) : SpillSafe counter mark ins := by
  cases hfit : ins.fits with
  | true => exact .inl hfit
  | false =>
    have hfree := scratchFree_of_simulates hmark hfit hsim
    have hlen := ins.length_spilled_lt
    have hlimit := IRNode.le_limit hfit
    have hlt := lt_mark hmark hfit
    obtain ⟨hsources, hregs⟩ := Probe.spec hsim hfit
    obtain ⟨hin, hout⟩ := spillState_rewritten hfit hmark hfree Probe.file
    generalize spillState counter.usedRegs 0 ins.spilled Probe.file = m₁ at hsources hregs hin hout
    have hfinal (reg : VReg) (hreg : reg.toNat < mark) :
        RegFile.writeDsts Probe.out 0 ins.operands Probe.file.regs reg =
          RegFile.writeDsts Probe.out 0 ins.renumbered.operands m₁.regs reg :=
      (hregs reg hreg).trans (restoreState_regs (fun i hi => hfree.out_or_self hi) hreg)
    -- a stand-in holds the number of the operand it stands for
    have hstand (j : ℕ) (hj : j < ins.spilled.length) :
        ins.limit ≤ m₁.regs (UInt16.ofNat j) := by
      rw [hin j _ (List.getElem?_eq_getElem hj)]
      exact (mem_overLimit.mp (List.getElem_mem hj)).2
    refine .inr ⟨?spilled, ?borrowed, ?read, hfree⟩
    case spilled =>
      intro o ho hle
      by_contra hd
      obtain ⟨j, -, hj⟩ := RegFile.writeDsts_of_dst Probe.out 0
        ⟨o, ho, by simpa using hd, rfl⟩
      have hreg := hmark _ (IRNode.snd_mem_registers ho)
      have hnot : ∀ o' ∈ ins.renumbered.operands, o'.1.isDst → o'.2 ≠ o.2 := fun o' ho' _ heq => by
        have := ins.renumbered_lt_limit hfit ho'
        rw [heq] at this
        omega
      have := hfinal _ hreg
      rw [hj, RegFile.writeDsts_of_not_dst hnot, hout _ hreg (by omega)] at this
      exact Probe.toNat_ne_out _ _ this.symm
    case borrowed =>
      intro j hj
      by_contra hnone
      have hjj : (UInt16.ofNat j).toNat = j := toNat_ofNat_of_lt (by omega)
      have hnot : ∀ o ∈ ins.operands, o.1.isDst → o.2 ≠ UInt16.ofNat j :=
        fun o ho hd heq => hnone ⟨o, ho, hd, by rw [heq, hjj]⟩
      have := hfinal (UInt16.ofNat j) (by omega)
      rw [RegFile.writeDsts_of_not_dst hnot] at this
      by_cases hd : ∃ o ∈ ins.renumbered.operands, o.1.isDst ∧ o.2 = UInt16.ofNat j
      · obtain ⟨i, -, hi⟩ := RegFile.writeDsts_of_dst Probe.out 0 hd
        rw [hi] at this
        exact Probe.toNat_ne_out _ _ this
      · rw [RegFile.writeDsts_of_not_dst fun o ho hdst heq => hd ⟨o, ho, hdst, heq⟩] at this
        have hle := hstand j hj
        rw [← this] at hle
        simp only [Probe.file, hjj] at hle
        omega
    case read =>
      intro o ho hj
      by_contra hs
      have hread := (RegFile.sources_eq_iff (ins.renumbered_operands.imp fun _ _ h => h.2.1)).mp
        hsources
      obtain ⟨o', ⟨-, -, hrw⟩, heq⟩ := exists_of_forall₂ ins.renumbered_operands hread ho
      have hval := heq (by simpa using hs)
      rcases hrw with ⟨-, hsame⟩ | ⟨hle, -⟩
      · have hle := hstand _ hj
        rw [UInt16.ofNat_toNat, ← hsame, ← hval] at hle
        simp only [Probe.file] at hle
        omega
      · omega

end

/-- The spill simulation is right exactly for the instructions that are `SpillSafe`. -/
theorem spillSimulates_iff_safe (counter : RegCounter) (mark : ℕ) (ins : IRNode)
    (hmark : ∀ r ∈ ins.registers, r.toNat < mark) :
    SpillSimulates counter mark ins ↔ SpillSafe counter mark ins :=
  ⟨safe_of_spillSimulates hmark, spillSimulates_of_safe hmark⟩

/-- A register-to-register instruction with 8-bit operands. -/
def movFormat : Opcode where
  formats := [[⟨.DST_VREG, 8⟩, ⟨.SRC_VREG, 8⟩]]
  kinds := [.DST_VREG, .SRC_VREG]
  formats_ne_nil := by decide
  vregKinds_eq := by decide
  bitwidth_mem := by decide
  length_le := by decide

theorem spillSimulates_iff_safe_mov :
    SpillSimulates { usedRegs := 301 } 301 ⟨movFormat, [0, 300], rfl⟩ :=
  (spillSimulates_iff_safe { usedRegs := 301 } 301 ⟨movFormat, [0, 300], rfl⟩ (by simp)).mpr
    (by decide)

/-- `lda v`: one source register in 8 bits. -/
def ldaFormat : Opcode where
  formats := [[⟨.SRC_VREG, 8⟩]]
  kinds := [.SRC_VREG]
  formats_ne_nil := by decide
  vregKinds_eq := by decide
  bitwidth_mem := by decide
  length_le := by decide

/-- In a function with 257 registers, `lda v256` leaves register 0 with another value. -/
theorem not_spillSimulates :
    ¬ ∀ (counter : RegCounter) (mark : ℕ) (ins : IRNode),
      (∀ r ∈ ins.registers, r.toNat < mark) → SpillSimulates counter mark ins := fun h =>
  absurd (safe_of_spillSimulates (by simp)
    (h { usedRegs := 257 } 257 ⟨ldaFormat, [256], rfl⟩ (by simp))) (by decide)

end Simulation

end ArkTs2abc.Es2panda
