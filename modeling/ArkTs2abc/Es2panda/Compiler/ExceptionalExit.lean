import ArkTs2abc.Es2panda.Compiler.SpillSimulation
import ArkTs2abc.RegMachine.Spill
import Mathlib.Data.List.Perm.Subperm

/-!
# Spilled instructions that throw

Each spilled operand is moved into a low register, and the restoring moves come
after the instruction. When it throws, the low registers are left with the
operands in them.

## Main results

* `RegAllocator.throwKeeps_iff_fits` — the registers are kept exactly when nothing is spilled.
* `RangeRegAllocator.throwKeeps_of_fits`, `RangeRegAllocator.fits_of_throwKeeps` — the same for range
  instructions.
-/

namespace ArkTs2abc.Es2panda

open RegMachine

/-- Emitted code on the register machine. -/
def Emitted.toInstr : Emitted → Instr VReg
  | .movDyn vd vs => .mov vd vs
  | .node ins => .node (ins.operands.map fun (kind, reg) => ⟨reg, kind.isSrc, kind.isDst⟩)

/-- The spilled operands from the `k`-th on, as slots. -/
def spillSlots (usedRegs : UInt32) : ℕ → List VReg → List (Slot VReg)
  | _, [] => []
  | k, reg :: regs =>
    ⟨reg, UInt16.ofNat k, scratch usedRegs k, true, false⟩ :: spillSlots usedRegs (k + 1) regs

section Slots

variable {usedRegs : UInt32}

theorem map_toInstr_spillMoves (k : ℕ) (regs : List VReg) :
    (spillMoves usedRegs k regs).map Emitted.toInstr =
      (spillSlots usedRegs k regs).flatMap Slot.head := by
  induction regs generalizing k with
  | nil => rfl
  | cons reg regs ih =>
    rw [spillSlots, List.flatMap_cons, ← ih]
    rfl

theorem throwState_restoreMoves {V : Type} (f : Meaning V) (k : ℕ) (m : RegMachine.RegFile VReg V) :
    throwState f ((restoreMoves usedRegs k).map Emitted.toInstr) m = none := by
  induction k generalizing m with
  | zero => rfl
  | succ k ih => exact ih _

theorem mem_spillSlots {s : Slot VReg} {k : ℕ} {regs : List VReg} :
    s ∈ spillSlots usedRegs k regs ↔ ∃ j, regs[j]? = some s.origin ∧
      s = ⟨s.origin, UInt16.ofNat (k + j), scratch usedRegs (k + j), true, false⟩ := by
  induction regs generalizing k with
  | nil => simp [spillSlots]
  | cons reg regs ih =>
    rw [spillSlots, List.mem_cons, ih]
    constructor
    · rintro (rfl | ⟨j, hj, hs⟩)
      · exact ⟨0, rfl, rfl⟩
      · exact ⟨j + 1, hj, by rwa [← Nat.add_assoc, Nat.add_right_comm]⟩
    · rintro ⟨j, hj, hs⟩
      cases j with
      | zero =>
        obtain rfl : reg = s.origin := Option.some.inj hj
        exact .inl hs
      | succ j => exact .inr ⟨j, hj, by rwa [Nat.add_right_comm, Nat.add_assoc]⟩

theorem getElem?_of_throwKeeps {mark k : ℕ} {regs : List VReg} {ins : IRNode}
    (hregs : ∀ r ∈ regs, r.toNat < mark) (hlength : regs.length ≤ mark)
    (h : ThrowKeeps (·.toNat < mark)
      ((spillMoves usedRegs 0 regs ++ .node ins :: restoreMoves usedRegs k).map Emitted.toInstr))
    {j : ℕ} {r : VReg} (hj : regs[j]? = some r) : r = UInt16.ofNat j := by
  rw [List.map_append, List.map_cons, map_toInstr_spillMoves] at h
  have htmp : ∀ s ∈ spillSlots usedRegs 0 regs, s.tmp.toNat < mark := by
    intro s hs
    obtain ⟨i, hi, hs⟩ := mem_spillSlots.mp hs
    have hlt : i < regs.length := (List.getElem?_eq_some_iff.mp hi).1
    rw [hs, UInt16.toNat_ofNat', Nat.zero_add]
    exact (Nat.mod_le i _).trans_lt (by omega)
  have hidle := idle_of_throwKeeps (fun V f m => throwState_restoreMoves f k m) ?_
    (fun s hs _ => htmp s hs) h
  · have hmem : (⟨r, UInt16.ofNat (0 + j), scratch usedRegs (0 + j), true, false⟩ : Slot VReg) ∈
        spillSlots usedRegs 0 regs := mem_spillSlots.mpr ⟨j, hj, rfl⟩
    have heq := hidle _ hmem rfl (htmp _ hmem)
    simpa using heq.symm
  · intro s hs
    obtain ⟨i, hi, -⟩ := mem_spillSlots.mp hs
    exact hregs _ (List.mem_of_getElem? hi)

end Slots

variable {mark : ℕ} {ins : IRNode}

/-- When the code of an instruction throws, the registers of the function are as they were before
it, exactly if no operand is spilled. -/
theorem RegAllocator.throwKeeps_iff_fits (counter : RegCounter)
    (hmark : ∀ r ∈ ins.registers, r.toNat < mark) :
    ThrowKeeps (·.toNat < mark) ((RegAllocator.run counter ins).1.map Emitted.toInstr) ↔ ins.fits := by
  constructor
  · intro h
    by_contra hnot
    have hfit : ins.fits = false := by simpa using hnot
    rw [RegAllocator.run_of_not_fits counter hfit] at h
    have hlimit := IRNode.le_limit hfit
    have hlength := ins.length_spilled_lt
    have hlt := lt_mark hmark hfit
    obtain ⟨r, hr, hle⟩ := IRNode.exists_over_limit hfit
    have hspilled : r ∈ ins.spilled := mem_overLimit.mpr ⟨hr, hle⟩
    obtain ⟨j, hj⟩ := List.getElem?_of_mem hspilled
    have hjlt : j < ins.spilled.length := (List.getElem?_eq_some_iff.mp hj).1
    have hwithin : ins.spilled.length ≤ mark := by omega
    have heq := getElem?_of_throwKeeps (fun r hr => hmark r (mem_overLimit.mp hr).1) hwithin h hj
    rw [heq, toNat_ofNat_of_lt (by omega)] at hle
    omega
  · intro h
    rw [RegAllocator.run_of_fits counter h]
    exact throwKeeps_node _ _

namespace RangeRegAllocator

variable {counter counter' : RegCounter} {rangeStart : VReg} {argCount : ℕ} {code : List Emitted}

theorem throwKeeps_of_fits (h : run counter ins rangeStart argCount = some (code, counter'))
    (hfit : ins.fits) : ThrowKeeps (·.toNat < mark) (code.map Emitted.toInstr) := by
  rw [run, if_pos hfit] at h
  obtain ⟨rfl, -⟩ := Prod.mk.inj (Option.some.inj h)
  exact throwKeeps_node _ _

/-- The operands of a range instruction are registers in ascending order, the last of which is the
start of the range. -/
theorem fits_of_throwKeeps (h : run counter ins rangeStart argCount = some (code, counter'))
    (hlast : ins.registers.getLast? = some rangeStart)
    (hsorted : ins.registers.Pairwise (·.toNat < ·.toNat)) (hpos : 0 < argCount)
    (hmark : rangeStart.toNat + argCount ≤ mark)
    (hkeeps : ThrowKeeps (·.toNat < mark) (code.map Emitted.toInstr)) : ins.fits := by
  by_contra hnot
  have hfit : ins.fits = false := by simpa using hnot
  obtain ⟨regs, ins', k, rfl, hend, hregs⟩ := run_of_not_fits hfit h
  obtain ⟨hlength, hlt⟩ := hregs hpos
  have hregisters : ins.registers = ins.registers.dropLast ++ [rangeStart] :=
    (List.dropLast_append_getLast? rangeStart hlast).symm
  generalize ins.registers.dropLast = front at hregisters hkeeps
  have hfront : ∀ r ∈ front, r.toNat < rangeStart.toNat := by
    intro r hr
    rw [hregisters, List.pairwise_append] at hsorted
    exact hsorted.2.2 r hr rangeStart List.mem_cons_self
  have hfrontLength : front.length ≤ rangeStart.toNat := by
    have hpair : (front.map UInt16.toNat).Pairwise (· < ·) := by
      rw [hregisters, List.pairwise_append] at hsorted
      exact List.pairwise_map.mpr hsorted.1
    have hsub : (front.map UInt16.toNat) ⊆ List.range rangeStart.toNat := by
      intro n hn
      obtain ⟨r, hr, rfl⟩ := List.mem_map.mp hn
      exact List.mem_range.mpr (hfront r hr)
    have hnodup : (front.map UInt16.toNat).Nodup := hpair.imp Nat.ne_of_lt
    simpa using (hnodup.subperm hsub).length_le
  have hlimit := IRNode.le_limit hfit
  obtain ⟨r, hr, hle⟩ := IRNode.exists_over_limit hfit
  obtain ⟨j, hj⟩ := List.getElem?_of_mem hr
  have hjlt : j < ins.registers.length := (List.getElem?_eq_some_iff.mp hj).1
  have hmax := ins.length_registers_le
  have hspilled : (front ++ rangeStart :: regs)[j]? = some r := by
    rw [hregisters] at hj hjlt
    rw [List.append_cons, List.getElem?_append_left hjlt, hj]
  have heq := getElem?_of_throwKeeps ?_ ?_ hkeeps hspilled
  · unfold maxRegOperand at hmax
    rw [heq, toNat_ofNat_of_lt (by omega)] at hle
    omega
  · intro r hr
    rcases List.mem_append.mp hr with hr | hr
    · have := hfront r hr
      omega
    · rcases List.mem_cons.mp hr with rfl | hr
      · omega
      · have := hlt r hr
        omega
  · rw [List.length_append, List.length_cons]
    omega

end RangeRegAllocator

end ArkTs2abc.Es2panda
