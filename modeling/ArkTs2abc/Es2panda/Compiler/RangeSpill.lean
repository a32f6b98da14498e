import ArkTs2abc.Es2panda.Compiler.SpillSimulation

/-!
# Range instructions

A range instruction reads registers of its own and a range of registers, and answers in the
accumulator. If one of the operands does not fit, all of them are spilled, and each register of the
range as well. The counter of the loop over the range has 16 bits, its end has not.

## Main definitions

* `RangeInsn` — a range instruction.
* `RangeInsn.SpillsEachOnce` — the allocator comes to an end with one spill for each register.
* `RangeInsn.Simulates` — the emitted code does what the instruction does.

## Main results

* `RangeInsn.spillsEachOnce_iff` — when that is so.
* `RangeInsn.simulates_and_iff` — what is simulated.
-/

namespace ArkTs2abc.Es2panda

/-- A range instruction and the number of registers in its range, which starts with its last
register operand. -/
structure RangeInsn where
  ins : IRNode
  leading : List VReg
  start : VReg
  registers_eq : ins.registers = leading ++ [start]
  reads : ∀ k ∈ ins.op.kinds, k = .SRC_VREG
  argCount : ℕ

/-- So many registers from one on. -/
def rangeFrom (start : VReg) : ℕ → List VReg
  | 0 => []
  | n + 1 => start :: rangeFrom (start + 1) n

@[simp] theorem length_rangeFrom (start : VReg) (n : ℕ) : (rangeFrom start n).length = n := by
  induction n generalizing start with
  | zero => rfl
  | succ n ih => simp [rangeFrom, ih]

namespace RangeInsn

variable (f : RangeInsn)

def range : List VReg := rangeFrom f.start f.argCount

/-- The registers that are to be spilled if one operand does not fit. -/
def spilled : List VReg := f.leading ++ f.range

/-- The allocator comes to an end. It emits the instruction as it is if its operands fit, and else
the spills of these registers, the instruction over other registers, and moves behind it. -/
def SpillsEachOnce (counter : RegCounter) : Prop :=
  ∃ code counter', RangeRegAllocator.run counter f.ins f.start f.argCount = some (code, counter') ∧
    if f.ins.fits then code = [.node f.ins]
    else ∃ ins' k, code = spillMoves counter.usedRegs 0 f.spilled ++
      .node ins' :: restoreMoves counter.usedRegs k

end RangeInsn

/-! ### The loop over the range -/

namespace Alloc

theorem toNat_sub_add_one {e s : VReg} (h : s ≠ e) : (e - (s + 1)).toNat + 1 = (e - s).toNat := by
  have hs : s.toNat ≠ e.toNat := fun h' => h (UInt16.toNat_inj.1 h')
  have := s.toNat_lt
  have := e.toNat_lt
  simp only [UInt16.toNat_sub, UInt16.toNat_add, UInt16.toNat_one]
  omega

theorem spillRange_eq_some {e s : VReg} {fuel : ℕ} (h : (e - s).toNat < fuel) (a : Alloc) :
    a.spillRange e.toNat fuel s = some (a.spillAll (rangeFrom s (e - s).toNat)).2 := by
  induction fuel generalizing s a with
  | zero => omega
  | succ fuel ih =>
    rw [spillRange]
    by_cases hs : s = e
    · subst hs
      simp [rangeFrom, spillAll]
    · have hdist := toNat_sub_add_one hs
      rw [if_neg fun h' => hs (UInt16.toNat_inj.1 h'), ih (by omega), ← hdist]
      rfl

theorem spillRange_eq_none {rangeEnd : ℕ} (h : 2 ^ 16 ≤ rangeEnd) (fuel : ℕ) (a : Alloc) (s : VReg) :
    a.spillRange rangeEnd fuel s = none := by
  induction fuel generalizing s a with
  | zero => rfl
  | succ fuel ih =>
    have := s.toNat_lt
    rw [spillRange, if_neg (by omega)]
    exact ih _ _

end Alloc

namespace RangeInsn

variable (f : RangeInsn)

/-- The rounds of the loop behind the first register: an empty range goes once around. -/
def rounds : ℕ := (UInt16.ofNat (f.start.toNat + f.argCount) - (f.start + 1)).toNat

theorem rounds_of_pos (hpos : 0 < f.argCount) (hend : f.start.toNat + f.argCount < 2 ^ 16) :
    f.rounds + 1 = f.argCount := by
  simp only [rounds, UInt16.toNat_sub, UInt16.toNat_add, UInt16.toNat_one, UInt16.toNat_ofNat']
  omega

theorem rounds_of_zero (hzero : f.argCount = 0) : f.rounds = 2 ^ 16 - 1 := by
  have := f.start.toNat_lt
  simp only [rounds, hzero, UInt16.toNat_sub, UInt16.toNat_add, UInt16.toNat_one,
    UInt16.toNat_ofNat']
  omega

/-- The registers that are spilled. -/
def spilledByRun : List VReg := f.leading ++ f.start :: rangeFrom (f.start + 1) f.rounds

theorem spilledByRun_eq (hpos : 0 < f.argCount) (hend : f.start.toNat + f.argCount < 2 ^ 16) :
    f.spilledByRun = f.spilled := by
  rw [spilledByRun, spilled, range, ← f.rounds_of_pos hpos hend]
  rfl

theorem dropLast_registers : f.ins.registers.dropLast = f.leading := by
  rw [f.registers_eq, List.dropLast_concat]

theorem run_of_fits (counter : RegCounter) (h : f.ins.fits) :
    RangeRegAllocator.run counter f.ins f.start f.argCount = some ([.node f.ins], counter) := by
  rw [RangeRegAllocator.run, if_pos h]

theorem run_eq_none (counter : RegCounter) (hfit : f.ins.fits = false)
    (hend : 2 ^ 16 ≤ f.start.toNat + f.argCount) :
    RangeRegAllocator.run counter f.ins f.start f.argCount = none := by
  simp only [RangeRegAllocator.run, hfit, Bool.false_eq_true, if_false,
    Alloc.spillRange_eq_none hend]

/-- The code for a range instruction that does not fit, with the registers that it spills. -/
theorem run_of_not_fits (counter : RegCounter) (hfit : f.ins.fits = false)
    (hend : f.start.toNat + f.argCount < 2 ^ 16) :
    ∃ ins' counter', RangeRegAllocator.run counter f.ins f.start f.argCount =
      some (spillMoves counter.usedRegs 0 f.spilledByRun ++ .node ins' ::
        restoreMoves counter.usedRegs (UInt16.ofNat f.spilledByRun.length).toNat, counter') := by
  have he : (UInt16.ofNat (f.start.toNat + f.argCount)).toNat = f.start.toNat + f.argCount := by
    rw [UInt16.toNat_ofNat', Nat.mod_eq_of_lt hend]
  have hrounds : f.rounds < 2 ^ 16 + 1 := Nat.lt_succ_of_lt (UInt16.toNat_lt _)
  have hloop := Alloc.spillLoop_eq 0 counter.usedRegs f.spilledByRun
    { counter, regEnd := counter.nextReg } 0 (by simp) rfl
  have hover (l : List VReg) : overLimit 0 l = l := by simp [overLimit, isRegisterCorrect]
  rw [hover, Nat.zero_add] at hloop
  simp only [RangeRegAllocator.run, hfit, Bool.false_eq_true, if_false, dropLast_registers]
  rw [← he, Alloc.spillRange_eq_some hrounds]
  have hall (a : Alloc) : (Alloc.spillAll (Alloc.spill (Alloc.spillAll a f.leading).2 f.start).2
      (rangeFrom (f.start + 1) f.rounds)).2 = (Alloc.spillAll a f.spilledByRun).2 := by
    rw [spilledByRun, Alloc.spillAll_append]
    rfl
  have hlength (a : Alloc) : ((Alloc.spillAll a f.leading).1 ++
      [(Alloc.spill (Alloc.spillAll a f.leading).2 f.start).1]).length =
      f.ins.registers.length := by
    rw [Alloc.spillAll_eq_spillLoop, List.length_append, Alloc.length_spillLoop, f.registers_eq]
    simp
  simp only [rounds] at hall
  simp only [hall, dif_pos (hlength _)]
  refine ⟨f.ins.withRegisters _ (hlength { counter, regEnd := counter.nextReg }), _,
    congrArg some (Prod.ext ?_ rfl)⟩
  generalize f.ins.withRegisters _ _ = ins'
  rw [Alloc.spillAll_eq_spillLoop, hloop]
  simp only
  rw [Alloc.restoreLoop_eq counter.usedRegs]
  · simp [Alloc.add]
  · rfl
  · exact UInt16.ofNat_toNat.symm

theorem length_eq_of_spillMoves {usedRegs : UInt32} {k : ℕ} {regs regs' : List VReg}
    {ins ins' : IRNode} {code code' : List Emitted}
    (h : spillMoves usedRegs k regs ++ .node ins :: code =
      spillMoves usedRegs k regs' ++ .node ins' :: code') : regs.length = regs'.length := by
  induction regs generalizing k regs' with
  | nil =>
    cases regs' with
    | nil => rfl
    | cons reg regs' => simp [spillMoves] at h
  | cons reg regs ih =>
    cases regs' with
    | nil => simp [spillMoves] at h
    | cons reg' regs' =>
      simp only [spillMoves, List.cons_append, List.cons.injEq] at h
      rw [List.length_cons, List.length_cons, ih h.2.2]

section

variable {counter : RegCounter} (hfit : f.ins.fits = false) (h : f.SpillsEachOnce counter)
include hfit h

theorem end_lt_of_spillsEachOnce : f.start.toNat + f.argCount < 2 ^ 16 := by
  obtain ⟨code, counter', hrun, -⟩ := h
  by_contra hend
  rw [f.run_eq_none counter hfit (Nat.le_of_not_lt hend)] at hrun
  cases hrun

theorem pos_of_spillsEachOnce : 0 < f.argCount := by
  have hend := f.end_lt_of_spillsEachOnce hfit h
  simp only [SpillsEachOnce, hfit, Bool.false_eq_true, if_false] at h
  obtain ⟨code, counter', hrun, ins', k, rfl⟩ := h
  refine Nat.pos_of_ne_zero fun hzero => ?_
  obtain ⟨ins'', counter'', hrun'⟩ := f.run_of_not_fits counter hfit hend
  have hcode := (Prod.mk.inj (Option.some.inj (hrun'.symm.trans hrun))).1
  have hlength := length_eq_of_spillMoves hcode
  simp [spilledByRun, spilled, range, f.rounds_of_zero hzero, hzero] at hlength

end

/-- The allocator comes to an end with one spill for each register, unless the range is empty or ends
with the last register there is. -/
theorem spillsEachOnce_iff (counter : RegCounter) :
    f.SpillsEachOnce counter ↔
      f.ins.fits ∨ 0 < f.argCount ∧ f.start.toNat + f.argCount < 2 ^ 16 := by
  cases hfit : f.ins.fits with
  | true =>
    refine ⟨fun _ => .inl rfl, fun _ => ⟨_, _, f.run_of_fits counter hfit, ?_⟩⟩
    rw [if_pos hfit]
  | false =>
    refine ⟨fun h => .inr ⟨f.pos_of_spillsEachOnce hfit h, f.end_lt_of_spillsEachOnce hfit h⟩,
      fun h => ?_⟩
    obtain ⟨hpos, hend⟩ := h.resolve_left Bool.false_ne_true
    obtain ⟨ins', counter', hrun⟩ := f.run_of_not_fits counter hfit hend
    rw [f.spilledByRun_eq hpos hend] at hrun
    refine ⟨_, _, hrun, ?_⟩
    rw [hfit]
    exact ⟨ins', _, rfl⟩

/-- A super call, the range of which starts with a register of 8 bits. -/
def supercallFormat : Opcode where
  formats := [[⟨.IMM, 16⟩, ⟨.SRC_VREG, 8⟩]]
  kinds := [.SRC_VREG]
  formats_ne_nil := by decide
  vregKinds_eq := by decide
  bitwidth_mem := by decide
  length_le := ldaFormat.length_le

theorem supercallFormat_length (start : VReg) : [start].length = supercallFormat.kinds.length := rfl

def supercall (start : VReg) (argCount : ℕ) : RangeInsn where
  ins := ⟨supercallFormat, [start], supercallFormat_length start⟩
  leading := []
  start := start
  registers_eq := rfl
  reads := by simp [supercallFormat]
  argCount := argCount

/-- `super()` behind the first 256 registers, and an argument in the last register. -/
theorem supercall_not_spillsEachOnce :
    ¬(supercall 256 0).SpillsEachOnce { usedRegs := 257 } ∧
      ¬(supercall 65535 1).SpillsEachOnce { usedRegs := 65536 } :=
  ⟨fun h => absurd (pos_of_spillsEachOnce _ (by decide) h) (by decide),
    fun h => absurd (end_lt_of_spillsEachOnce _ (by decide) h) (by decide)⟩

end RangeInsn

/-! ### Running the code -/

/-- The meaning of a range instruction: from the accumulator, its own registers and the registers of
its range to the new accumulator; `none` when it throws. -/
abbrev RangeSem (V : Type) := V → List V → List V → Option V

/-- Running emitted code, where every node is the range instruction over its registers. -/
def execRange {V : Type} (sem : RangeSem V) (argCount : ℕ) :
    List Emitted → RegFile V → Option (RegFile V)
  | [], m => some m
  | .movDyn vd vs :: code, m => execRange sem argCount code (m.set vd (m.regs vs))
  | .node ins :: code, m =>
    (sem m.acc (ins.registers.dropLast.map m.regs)
      ((rangeFrom (ins.registers.getLastD 0) argCount).map m.regs)).bind fun acc =>
        execRange sem argCount code { m with acc }

namespace RangeInsn

variable (f : RangeInsn)

/-- The allocator comes to an end. Whatever completes over the emitted code completes over the
instruction itself, which is given the same registers in the same order, with the same accumulator;
and the registers of the function, those below `mark`, are as they were. -/
def Simulates (counter : RegCounter) (mark : ℕ) : Prop :=
  ∃ code counter', RangeRegAllocator.run counter f.ins f.start f.argCount = some (code, counter') ∧
    ∀ (V : Type) (sem : RangeSem V) (m m' : RegFile V),
      execRange sem f.argCount code m = some m' →
      ∃ acc, sem m.acc (f.leading.map m.regs) (f.range.map m.regs) = some acc ∧ m'.acc = acc ∧
        ∀ reg : VReg, reg.toNat < mark → m'.regs reg = m.regs reg

/-- The registers that are borrowed for the spills are not of the function. -/
def Room (counter : RegCounter) (mark : ℕ) : Prop :=
  ∀ i < f.spilled.length, mark ≤ (scratch counter.usedRegs i).toNat

theorem simulates_of_fits {counter : RegCounter} {mark : ℕ} (h : f.ins.fits) :
    f.Simulates counter mark := by
  refine ⟨_, _, f.run_of_fits counter h, fun V sem m m' hrun => ?_⟩
  simp only [execRange, f.registers_eq, List.dropLast_concat, List.getLastD_concat] at hrun
  rw [Option.bind_eq_some_iff] at hrun
  obtain ⟨acc, hsem, hm'⟩ := hrun
  cases hm'
  exact ⟨acc, hsem, rfl, fun _ _ => rfl⟩

end RangeInsn

section Moves

variable {V : Type} (sem : RangeSem V) (argCount : ℕ) (usedRegs : UInt32)

theorem execRange_spillMoves (k : ℕ) (regs : List VReg) (m : RegFile V) (code : List Emitted) :
    execRange sem argCount (spillMoves usedRegs k regs ++ code) m =
      execRange sem argCount code (spillState usedRegs k regs m) := by
  induction regs generalizing k m with
  | nil => rfl
  | cons reg regs ih => exact ih _ _

theorem execRange_restoreMoves (k : ℕ) (m : RegFile V) :
    execRange sem argCount (restoreMoves usedRegs k) m = some (restoreState usedRegs k m) := by
  induction k generalizing m with
  | zero => rfl
  | succ k ih => exact ih _

theorem spillState_append (k : ℕ) (regs regs' : List VReg) (m : RegFile V) :
    spillState usedRegs k (regs ++ regs') m =
      spillState usedRegs (k + regs.length) regs' (spillState usedRegs k regs m) := by
  induction regs generalizing k m with
  | nil => rfl
  | cons reg regs ih =>
    rw [List.cons_append, spillState, ih, List.length_cons, spillState, Nat.add_right_comm,
      Nat.add_assoc]

variable {usedRegs} {mark : ℕ}

theorem spillState_regs_of_notMem {regs : List VReg} {k : ℕ} {m : RegFile V}
    (hlen : k + regs.length ≤ 2 ^ 16)
    (hfree : ∀ i < k + regs.length, mark ≤ (scratch usedRegs i).toNat) {r : VReg}
    (hr : r.toNat < mark) (hnot : r.toNat < k ∨ k + regs.length ≤ r.toNat) :
    (spillState usedRegs k regs m).regs r = m.regs r := by
  induction regs generalizing k m with
  | nil => rfl
  | cons reg regs ih =>
    rw [List.length_cons] at hlen hfree hnot
    have hk : (UInt16.ofNat k).toNat = k := toNat_ofNat_of_lt (by omega)
    rw [spillState, ih (by omega) (fun i hi => hfree i (by omega)) (by omega)]
    have hne : r ≠ UInt16.ofNat k := fun h => by
      rw [h, hk] at hnot
      omega
    exact (Function.update_of_ne hne _ _).trans
      (regs_set_scratch (.inl (hfree k (by omega))) m hr)

theorem spillState_regs_of_getElem {regs : List VReg} {m : RegFile V} {j : ℕ} {r : VReg}
    (hlen : regs.length ≤ 2 ^ 16) (hfree : ∀ i < regs.length, mark ≤ (scratch usedRegs i).toNat)
    (hj : regs[j]? = some r) (hjr : j ≤ r.toNat) (hr : r.toNat < mark) :
    (spillState usedRegs 0 regs m).regs (UInt16.ofNat j) = m.regs r := by
  obtain ⟨hjlt, rfl⟩ := List.getElem?_eq_some_iff.1 hj
  have hsplit : regs = regs.take j ++ regs[j] :: regs.drop (j + 1) := by simp
  have htake : (regs.take j).length = j := List.length_take_of_le (Nat.le_of_lt hjlt)
  generalize regs[j] = r at hsplit hjr hr
  generalize regs.take j = before at hsplit htake
  generalize regs.drop (j + 1) = after at hsplit
  subst hsplit
  simp only [List.length_append, List.length_cons, htake] at hlen hfree hjlt
  have hjj : (UInt16.ofNat j).toNat = j := toNat_ofNat_of_lt (by omega)
  rw [spillState_append, htake, Nat.zero_add, spillState,
    spillState_regs_of_notMem (by omega) (fun i hi => hfree i (by omega)) (by omega)
      (by rw [hjj]; omega)]
  refine (Function.update_self ..).trans ?_
  rw [regs_set_scratch (.inl (hfree j (by omega))) _ hr]
  exact spillState_regs_of_notMem (by omega) (fun i hi => hfree i (by omega)) hr (.inr (by omega))

end Moves

namespace RangeInsn

variable {f : RangeInsn} {counter : RegCounter} {mark : ℕ}

theorem Room.length_lt (h : f.Room counter mark) (hmark : 0 < mark) :
    f.spilled.length < 2 ^ 16 := by
  by_contra hlen
  have := h ((2 ^ 16 - counter.usedRegs.toNat % 2 ^ 16) % 2 ^ 16) (by omega)
  simp only [scratch, UInt16.toNat_ofNat'] at this
  omega

theorem exists_spilled (hfit : f.ins.fits = false) (hpos : 0 < f.argCount) :
    ∃ j r, j < maxRegOperand ∧ f.spilled[j]? = some r ∧ r ∈ f.ins.registers ∧ 16 ≤ r.toNat := by
  obtain ⟨r, hr, hle⟩ := IRNode.exists_over_limit hfit
  have hlimit := IRNode.le_limit hfit
  obtain ⟨j, hj⟩ := List.getElem?_of_mem hr
  have hjlt := (List.getElem?_eq_some_iff.1 hj).1
  have hmax := f.ins.length_registers_le
  refine ⟨j, r, by omega, ?_, hr, by omega⟩
  obtain ⟨n, hn⟩ := Nat.exists_eq_succ_of_ne_zero (Nat.ne_of_gt hpos)
  rw [f.registers_eq] at hj hjlt
  rw [spilled, range, hn, rangeFrom, List.append_cons, List.getElem?_append_left hjlt, hj]

/-- What is spilled is not restored: the register that stands in for an operand keeps its value. -/
theorem fits_of_simulates (hpos : 0 < f.argCount) (hroom : f.Room counter mark)
    (hmark : ∀ r ∈ f.ins.registers, r.toNat < mark) (h : f.Simulates counter mark) :
    f.ins.fits := by
  by_contra hnot
  have hfit : f.ins.fits = false := by simpa using hnot
  obtain ⟨code, counter', hrun, hsim⟩ := h
  have hend : f.start.toNat + f.argCount < 2 ^ 16 := by
    by_contra hend
    rw [f.run_eq_none counter hfit (Nat.le_of_not_lt hend)] at hrun
    cases hrun
  obtain ⟨ins', counter'', hrun'⟩ := f.run_of_not_fits counter hfit hend
  obtain rfl := (Prod.mk.inj (Option.some.inj (hrun'.symm.trans hrun))).1
  rw [f.spilledByRun_eq hpos hend] at hsim
  obtain ⟨j, r, hj, hjr, hr, hle⟩ := exists_spilled hfit hpos
  have hrmark := hmark r hr
  have hlen := hroom.length_lt (by omega)
  have hk : (UInt16.ofNat f.spilled.length).toNat = f.spilled.length := toNat_ofNat_of_lt hlen
  have hjlt : j < 16 := hj.trans (by decide)
  have hjj : (UInt16.ofNat j).toNat = j := toNat_ofNat_of_lt (by omega)
  -- the registers hold their own numbers
  have hsim := hsim ℕ (fun acc _ _ => some acc) Probe.file _ (by
    rw [execRange_spillMoves, execRange, Option.bind_some, execRange_restoreMoves])
  obtain ⟨acc, -, -, hregs⟩ := hsim
  have hreg := hregs (UInt16.ofNat j) (by omega)
  rw [hk, restoreState_regs (fun i hi => .inl (hroom i hi)) (by omega)] at hreg
  have hin := spillState_regs_of_getElem (m := Probe.file) (Nat.le_of_lt hlen) hroom hjr
    (by omega) hrmark
  have hreg : (spillState counter.usedRegs 0 f.spilled Probe.file).regs (UInt16.ofNat j) = j :=
    hreg.trans hjj
  rw [hin] at hreg
  change r.toNat = j at hreg
  omega

/-- A range instruction of which the operands fit is simulated, and no other is if there are registers
to borrow. -/
theorem simulates_and_iff (f : RangeInsn) (counter : RegCounter) (mark : ℕ) :
    (f.ins.fits → f.Simulates counter mark) ∧
      (0 < f.argCount → f.Room counter mark → (∀ r ∈ f.ins.registers, r.toNat < mark) →
        (f.Simulates counter mark ↔ f.ins.fits)) :=
  ⟨f.simulates_of_fits, fun hpos hroom hmark =>
    ⟨fits_of_simulates hpos hroom hmark, f.simulates_of_fits⟩⟩

theorem supercall_room : (supercall 256 1).Room { usedRegs := 257 } 257 := by
  intro i hi
  obtain rfl : i = 0 := Nat.lt_one_iff.1 hi
  decide

theorem supercall_registers : ∀ r ∈ (supercall 256 1).ins.registers, r.toNat < 257 := by
  simp [supercall]

theorem supercall_simulates :
    (supercall 3 2).Simulates { usedRegs := 5 } 5 ∧
      ((supercall 256 1).Simulates { usedRegs := 257 } 257 ↔ (supercall 256 1).ins.fits) :=
  ⟨(simulates_and_iff _ _ _).1 (by decide),
    (simulates_and_iff _ _ _).2 (by decide) supercall_room supercall_registers⟩

/-- In a function with 257 registers, a super call with its argument in the last of them leaves
register 0 with that argument. -/
theorem supercall_not_simulates : ¬(supercall 256 1).Simulates { usedRegs := 257 } 257 := fun h =>
  absurd (fits_of_simulates (by decide) supercall_room supercall_registers h) (by decide)

end RangeInsn

end ArkTs2abc.Es2panda
