import ArkTs2abc.Es2panda.Compiler.ExceptionalExit
import ArkTs2abc.Ts2panda.ExceptionalExit

/-!
# The registers in a handler

Both compilers let a low register stand in for an operand and put it back behind
the instruction. A handler is entered without the moves behind the instruction,
and reads the low register.

## Main results

* `handler_registers_iff` — when a handler finds the registers of the function unchanged.
-/

namespace ArkTs2abc

open RegMachine

/-- With either compiler, the code of an instruction leaves the registers of the function unchanged
when it throws, exactly if no operand was moved into another register for it. -/
theorem handler_registers_iff (total mark : ℕ) (a a' : Ts2panda.RegAllocator) (node : Ts2panda.IRNode)
    (counter counter' : Es2panda.RegCounter) (ins : Es2panda.IRNode) (rangeStart : Es2panda.VReg)
    (argCount : ℕ) (code : List Es2panda.Emitted) :
    (a.Reachable total → node.RegistersLt total → a.adjustInstruction node = some a' →
      ∃ code, a'.newInsns = a.newInsns ++ code ∧
        (ThrowKeeps (· < total) (code.map Ts2panda.Emitted.toInstr) ↔ node.readsInPlace total)) ∧
    ((∀ r ∈ ins.registers, r.toNat < mark) →
      (ThrowKeeps (·.toNat < mark)
        ((Es2panda.RegAllocator.run counter ins).1.map Es2panda.Emitted.toInstr) ↔ ins.fits)) ∧
    (Es2panda.RangeRegAllocator.run counter ins rangeStart argCount = some (code, counter') →
      ins.registers.getLast? = some rangeStart →
      ins.registers.Pairwise (·.toNat < ·.toNat) → rangeStart.toNat + argCount ≤ mark →
      (ins.fits → ThrowKeeps (·.toNat < mark) (code.map Es2panda.Emitted.toInstr)) ∧
      (0 < argCount → ThrowKeeps (·.toNat < mark) (code.map Es2panda.Emitted.toInstr) → ins.fits)) := by
  refine ⟨?adjusted, ?spilled, ?range⟩
  case adjusted =>
    intro hreach hlt h
    exact Ts2panda.RegAllocator.throwKeeps_iff_readsInPlace hreach hlt h
  case spilled =>
    intro hmark
    exact Es2panda.RegAllocator.throwKeeps_iff_fits counter hmark
  case range =>
    intro h hlast hsorted hmark
    exact ⟨Es2panda.RangeRegAllocator.throwKeeps_of_fits h, fun hpos =>
      Es2panda.RangeRegAllocator.fits_of_throwKeeps h hlast hsorted hpos hmark⟩

/-- In a function of 257 registers, `lda v256` that throws, and in one of 17 registers an instruction
with two four-bit operands that throws. -/
theorem handler_registers_spilled :
    ¬ ThrowKeeps (·.toNat < 257) ((Es2panda.RegAllocator.run { usedRegs := 257 }
      ⟨Es2panda.ldaFormat, [256], rfl⟩).1.map Es2panda.Emitted.toInstr) ∧
    ∃ a' code, Ts2panda.RegAllocator.seventeenRegs.adjustInstruction
        (Ts2panda.RegAllocator.opTwoRegsNode 16 0) = some a' ∧ a'.newInsns = code ∧
      ¬ ThrowKeeps (· < 17) (code.map Ts2panda.Emitted.toInstr) := by
  constructor
  · rw [Es2panda.RegAllocator.throwKeeps_iff_fits _ (by simp)]
    decide
  · obtain ⟨code, hcode, hiff⟩ := Ts2panda.RegAllocator.throwKeeps_iff_readsInPlace
      Ts2panda.RegAllocator.seventeenRegs_reachable
      (@Ts2panda.RegAllocator.opTwoRegsNode_registersLt 16 0 (by decide) (by decide)) rfl
    refine ⟨_, code, rfl, hcode, fun hkeeps => ?_⟩
    have hfit := hiff.mp hkeeps _ rfl (.SrcVReg, 4) 16 List.mem_cons_self rfl
    exact absurd hfit (by decide)

theorem handler_registers_iff_examples :
    (ThrowKeeps (·.toNat < 257) ((Es2panda.RegAllocator.run { usedRegs := 257 }
      ⟨Es2panda.ldaFormat, [255], rfl⟩).1.map Es2panda.Emitted.toInstr) ↔
        (⟨Es2panda.ldaFormat, [255], rfl⟩ : Es2panda.IRNode).fits) ∧
    ∃ a' code, Ts2panda.RegAllocator.seventeenRegs.adjustInstruction
        (Ts2panda.RegAllocator.opTwoRegsNode 15 0) = some a' ∧ a'.newInsns = code ∧
      (ThrowKeeps (· < 17) (code.map Ts2panda.Emitted.toInstr) ↔
        (Ts2panda.RegAllocator.opTwoRegsNode 15 0).readsInPlace 17) := by
  have hiff := fun a' => handler_registers_iff 17 257 Ts2panda.RegAllocator.seventeenRegs a'
    (Ts2panda.RegAllocator.opTwoRegsNode 15 0) { usedRegs := 257 } { usedRegs := 257 }
    ⟨Es2panda.ldaFormat, [255], rfl⟩ 0 0 []
  refine ⟨(hiff Ts2panda.RegAllocator.seventeenRegs).2.1 (by simp), ?_⟩
  obtain ⟨code, hcode, hkeeps⟩ := (hiff _).1 Ts2panda.RegAllocator.seventeenRegs_reachable
    (Ts2panda.RegAllocator.opTwoRegsNode_registersLt (by decide) (by decide)) rfl
  exact ⟨_, code, rfl, hcode, hkeeps⟩

end ArkTs2abc
