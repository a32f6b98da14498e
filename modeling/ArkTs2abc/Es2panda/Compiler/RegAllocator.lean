import ArkTs2abc.Es2panda.IR.IRNode

/-!
# The register allocator

`RegAllocator::Run` emits one instruction. A register that does not fit the
operand width of the widest format is spilled: a low register is saved in a
fresh one, the operand is moved into the low register, and the instruction is
emitted with the low register in its place.

## Main definitions

* `Alloc` — the fields of the allocator, the register counter and the output.
* `Alloc.checkRegIndices`, `Alloc.spill`, `Alloc.restore` — the member functions.
* `RegAllocator.run` — the emitted code and the counter afterwards.
-/

namespace ArkTs2abc.Es2panda

/-- What the allocator pushes back: its own moves and the instruction itself. -/
inductive Emitted where
  | movDyn (vd vs : VReg)
  | node (ins : IRNode)

/-- The allocator of one instruction, the counter of `PandaGen` and the code emitted so far. -/
structure Alloc where
  counter : RegCounter
  spillIndex : VReg := 0
  regEnd : VReg := 0
  insns : List Emitted := []

/-- `IsRegisterCorrect`. -/
def isRegisterCorrect (limit : ℕ) (reg : VReg) : Bool := reg.toNat < limit

/-- The limit after one format was looked at: the width of its first register operand,
or the old limit when the format has none. -/
def formatLimit (limit : ℕ) (format : Format) : ℕ :=
  match format.find? (·.kind.isVReg) with
  | some item => 2 ^ item.bitwidth
  | none => limit

/-- `CheckRegIndices`: whether some format holds all the registers, and the value `limit_` is
left with. -/
def checkRegIndices (registers : List VReg) : ℕ → List Format → Bool × ℕ
  | limit, [] => (false, limit)
  | limit, format :: formats =>
    let limit := formatLimit limit format
    if registers.all (isRegisterCorrect limit) then (true, limit)
    else checkRegIndices registers limit formats

/-- `CheckRegIndices` of an instruction. -/
def IRNode.fits (ins : IRNode) : Bool := (checkRegIndices ins.registers 0 ins.op.formats).1

/-- The value `CheckRegIndices` leaves in `limit_`. -/
def IRNode.limit (ins : IRNode) : ℕ := (checkRegIndices ins.registers 0 ins.op.formats).2

namespace Alloc

def add (a : Alloc) (e : Emitted) : Alloc := { a with insns := a.insns ++ [e] }

/-- `RegAllocatorBase::Spill`: the low register that stands in for `reg`. -/
def spill (a : Alloc) (reg : VReg) : VReg × Alloc :=
  let (spillReg, counter) := a.counter.allocReg
  let origin := a.spillIndex
  (origin, ({ a with counter, spillIndex := a.spillIndex + 1 }.add
    (.movDyn spillReg origin)).add (.movDyn origin reg))

/-- `RegAllocatorBase::Restore`. -/
def restore (a : Alloc) : Alloc :=
  let spillIndex := a.spillIndex - 1
  let spillReg := spillIndex
  let origin := a.regEnd + spillIndex
  { a with spillIndex }.add (.movDyn origin spillReg)

/-- The loop of `Run` over the operands. -/
def spillLoop (limit : ℕ) (a : Alloc) : List VReg → List VReg × Alloc
  | [] => ([], a)
  | reg :: regs =>
    if isRegisterCorrect limit reg then
      let (regs', a') := spillLoop limit a regs
      (reg :: regs', a')
    else
      let (reg', a₁) := a.spill reg
      let (regs', a') := spillLoop limit a₁ regs
      (reg' :: regs', a')

/-- The loop `while (spillIndex_ != 0) Restore(ins)`, for a spill index of `n`. -/
def restoreLoop (a : Alloc) : ℕ → Alloc
  | 0 => a
  | n + 1 => a.restore.restoreLoop n

theorem length_spillLoop (limit : ℕ) (a : Alloc) (regs : List VReg) :
    (a.spillLoop limit regs).1.length = regs.length := by
  induction regs generalizing a with
  | nil => rfl
  | cons reg regs ih =>
    unfold spillLoop
    split
    · simpa using ih a
    · simpa using ih (a.spill reg).2

end Alloc

/-- `RegAllocator::Run`: the code emitted for `ins` and the counter once the `RegScope` around
the spills is closed. -/
def RegAllocator.run (counter : RegCounter) (ins : IRNode) : List Emitted × RegCounter :=
  if ins.fits then ([.node ins], counter)
  else
    let a : Alloc := { counter, regEnd := counter.nextReg }
    let spilled := a.spillLoop ins.limit ins.registers
    let ins' := ins.withRegisters spilled.1 (a.length_spillLoop ins.limit ins.registers)
    let a' := (spilled.2.add (.node ins')).restoreLoop spilled.2.spillIndex.toNat
    (a'.insns, a'.counter.closeScope counter.usedRegs)

/-! ## The emitted code in closed form -/

/-- The registers at or above the limit. -/
def overLimit (limit : ℕ) (regs : List VReg) : List VReg :=
  regs.filter (!isRegisterCorrect limit ·)

/-- The operands that have to be spilled. -/
def IRNode.spilled (ins : IRNode) : List VReg := overLimit ins.limit ins.registers

/-- The operands after `k` of them have been spilled already. -/
def renumber (limit : ℕ) : ℕ → List VReg → List VReg
  | _, [] => []
  | k, reg :: regs =>
    if isRegisterCorrect limit reg then reg :: renumber limit k regs
    else UInt16.ofNat k :: renumber limit (k + 1) regs

/-- The register the `i`-th spilled operand's stand-in is saved in. -/
def scratch (usedRegs : UInt32) (i : ℕ) : VReg := UInt16.ofNat (usedRegs.toNat + i)

def spillMoves (usedRegs : UInt32) : ℕ → List VReg → List Emitted
  | _, [] => []
  | k, reg :: regs =>
    .movDyn (scratch usedRegs k) (UInt16.ofNat k) :: .movDyn (UInt16.ofNat k) reg ::
      spillMoves usedRegs (k + 1) regs

def restoreMoves (usedRegs : UInt32) : ℕ → List Emitted
  | 0 => []
  | k + 1 => .movDyn (scratch usedRegs k) (UInt16.ofNat k) :: restoreMoves usedRegs k

theorem length_renumber (limit k : ℕ) (regs : List VReg) :
    (renumber limit k regs).length = regs.length := by
  induction regs generalizing k with
  | nil => rfl
  | cons reg regs ih =>
    unfold renumber
    split <;> simp [ih]

theorem allocReg_add (c : RegCounter) (usedRegs : UInt32) (k : ℕ)
    (h : c.usedRegs = usedRegs + UInt32.ofNat k) :
    c.allocReg = (scratch usedRegs k,
      { c with usedRegs := usedRegs + UInt32.ofNat (k + 1) }) := by
  have hreg : (usedRegs + UInt32.ofNat k).toUInt16 = UInt16.ofNat (usedRegs.toNat + k) := by
    apply UInt16.toNat_inj.mp
    simp
  simp [RegCounter.allocReg, h, scratch, hreg, UInt32.ofNat_add, UInt32.add_assoc]

/-- What the spill loop does to the allocator, from any spill index on. -/
theorem Alloc.spillLoop_eq (limit : ℕ) (usedRegs : UInt32) (regs : List VReg) (a : Alloc) (k : ℕ)
    (hused : a.counter.usedRegs = usedRegs + UInt32.ofNat k) (hidx : a.spillIndex = UInt16.ofNat k) :
    a.spillLoop limit regs = (renumber limit k regs,
      { a with
        counter := { a.counter with
          usedRegs := usedRegs + UInt32.ofNat (k + (overLimit limit regs).length) },
        spillIndex := UInt16.ofNat (k + (overLimit limit regs).length),
        insns := a.insns ++ spillMoves usedRegs k (overLimit limit regs) }) := by
  induction regs generalizing a k with
  | nil =>
    obtain ⟨⟨u, t⟩, idx, e, insns⟩ := a
    simp_all [spillLoop, renumber, spillMoves, overLimit]
  | cons reg regs ih =>
    unfold spillLoop renumber
    by_cases hr : isRegisterCorrect limit reg
    · simp only [hr, ↓reduceIte, ih a k hused hidx]
      simp [overLimit, hr]
    · have hover : overLimit limit (reg :: regs) = reg :: overLimit limit regs := by
        simp [overLimit, hr]
      have hspill : a.spill reg = (UInt16.ofNat k,
          { a with
            counter := { a.counter with usedRegs := usedRegs + UInt32.ofNat (k + 1) },
            spillIndex := UInt16.ofNat (k + 1),
            insns := a.insns ++ [.movDyn (scratch usedRegs k) (UInt16.ofNat k),
              .movDyn (UInt16.ofNat k) reg] }) := by
        simp [spill, add, allocReg_add _ _ _ hused, hidx, UInt16.ofNat_add]
      simp only [hr, Bool.false_eq_true, ↓reduceIte, hspill]
      rw [ih _ (k + 1) rfl rfl, hover, List.length_cons, Nat.add_right_comm]
      simp [spillMoves, Nat.add_assoc]

theorem Alloc.restoreLoop_eq (usedRegs : UInt32) (a : Alloc) (k : ℕ)
    (hend : a.regEnd = usedRegs.toUInt16) (hidx : a.spillIndex = UInt16.ofNat k) :
    a.restoreLoop k =
      { a with spillIndex := 0, insns := a.insns ++ restoreMoves usedRegs k } := by
  induction k generalizing a with
  | zero =>
    obtain ⟨c, idx, e, insns⟩ := a
    simp_all [restoreLoop, restoreMoves]
  | succ k ih =>
    have hsub : a.spillIndex - 1 = UInt16.ofNat k := by
      rw [hidx, UInt16.ofNat_add]
      simp
    have hreg : usedRegs.toUInt16 + UInt16.ofNat k = scratch usedRegs k := by
      apply UInt16.toNat_inj.mp
      simp [scratch]
    have hrestore : a.restore = { a with
        spillIndex := UInt16.ofNat k,
        insns := a.insns ++ [.movDyn (scratch usedRegs k) (UInt16.ofNat k)] } := by
      simp [restore, add, hend, hsub, hreg]
    rw [restoreLoop, hrestore]
    exact (ih { a with
        spillIndex := UInt16.ofNat k,
        insns := a.insns ++ [.movDyn (scratch usedRegs k) (UInt16.ofNat k)] } hend rfl).trans
      (by simp [restoreMoves])

/-- The instruction over the low registers that stand in for the spilled ones. -/
def IRNode.renumbered (ins : IRNode) : IRNode :=
  ins.withRegisters (renumber ins.limit 0 ins.registers) (length_renumber _ _ _)

theorem IRNode.withRegisters_eq_renumbered {ins : IRNode} {regs : List VReg}
    (h : regs = renumber ins.limit 0 ins.registers) (hlen : regs.length = ins.registers.length) :
    ins.withRegisters regs hlen = ins.renumbered := by
  subst h
  rfl

theorem IRNode.length_spilled_le (ins : IRNode) : ins.spilled.length ≤ maxRegOperand :=
  (List.length_filter_le _ _).trans ins.length_registers_le

/-- The code emitted for an instruction that does not fit: save and move in, the instruction
over the stand-ins, and the moves meant to restore them. -/
theorem RegAllocator.run_of_not_fits (counter : RegCounter) {ins : IRNode} (h : ins.fits = false) :
    (RegAllocator.run counter ins).1 =
      spillMoves counter.usedRegs 0 ins.spilled ++
        .node ins.renumbered :: restoreMoves counter.usedRegs ins.spilled.length := by
  have hspill := Alloc.spillLoop_eq ins.limit counter.usedRegs ins.registers
    { counter, regEnd := counter.nextReg } 0 (by simp) rfl
  have hlen : (UInt16.ofNat ins.spilled.length).toNat = ins.spilled.length := by
    have := ins.length_spilled_le
    rw [UInt16.toNat_ofNat', Nat.mod_eq_of_lt]
    exact this.trans_lt (by decide)
  simp only [RegAllocator.run, h, Bool.false_eq_true, ↓reduceIte]
  rw [IRNode.withRegisters_eq_renumbered (congrArg Prod.fst hspill), hspill]
  rw [IRNode.spilled] at hlen ⊢
  simp only [Nat.zero_add, hlen]
  rw [Alloc.restoreLoop_eq counter.usedRegs _ _ rfl rfl]
  simp [Alloc.add]

/-! ## Range instructions -/

namespace Alloc

/-- The first loop of `RangeRegAllocator::Run`. -/
def spillAll (a : Alloc) : List VReg → List VReg × Alloc
  | [] => ([], a)
  | reg :: regs =>
    let (reg', a₁) := a.spill reg
    let (regs', a') := a₁.spillAll regs
    (reg' :: regs', a')

/-- The loop `while (rangeStart != rangeEnd)`, for as many rounds as there are registers. -/
def spillRange (rangeEnd : ℕ) : ℕ → Alloc → VReg → Option Alloc
  | 0, _, _ => none
  | fuel + 1, a, rangeStart =>
    if rangeStart.toNat = rangeEnd then some a
    else spillRange rangeEnd fuel (a.spill rangeStart).2 (rangeStart + 1)

end Alloc

/-- `RangeRegAllocator::Run`; `none` when its loop does not end. The last register of the instruction
is the one its range starts with. -/
def RangeRegAllocator.run (counter : RegCounter) (ins : IRNode) (rangeStart : VReg) (argCount : ℕ) :
    Option (List Emitted × RegCounter) :=
  if ins.fits then some ([.node ins], counter)
  else
    let a : Alloc := { counter, regEnd := counter.nextReg }
    let (regs, a) := a.spillAll ins.registers.dropLast
    let (start, a) := a.spill rangeStart
    match a.spillRange (rangeStart.toNat + argCount) (2 ^ 16 + 1) (rangeStart + 1) with
    | none => none
    | some a =>
      if h : (regs ++ [start]).length = ins.registers.length then
        let a' := (a.add (.node (ins.withRegisters _ h))).restoreLoop a.spillIndex.toNat
        some (a'.insns, a'.counter.closeScope counter.usedRegs)
      else none

namespace Alloc

theorem spillAll_eq_spillLoop (a : Alloc) (regs : List VReg) : a.spillAll regs = a.spillLoop 0 regs := by
  induction regs generalizing a with
  | nil => rfl
  | cons reg regs ih =>
    have hlimit : isRegisterCorrect 0 reg = false := by simp [isRegisterCorrect]
    unfold spillAll spillLoop
    simp only [hlimit, Bool.false_eq_true, ↓reduceIte, ih]

theorem spillAll_append (a : Alloc) (regs regs' : List VReg) :
    (a.spillAll (regs ++ regs')).2 = ((a.spillAll regs).2.spillAll regs').2 := by
  induction regs generalizing a with
  | nil => rfl
  | cons reg regs ih => exact ih _

theorem spillRange_eq {rangeEnd fuel : ℕ} {a a' : Alloc} {rangeStart : VReg}
    (h : a.spillRange rangeEnd fuel rangeStart = some a') :
    rangeEnd < 2 ^ 16 ∧ ∃ regs, a' = (a.spillAll regs).2 ∧ (rangeStart.toNat ≤ rangeEnd →
      regs.length = rangeEnd - rangeStart.toNat ∧ ∀ r ∈ regs, r.toNat < rangeEnd) := by
  induction fuel generalizing a rangeStart with
  | zero => cases h
  | succ fuel ih =>
    rw [spillRange] at h
    split at h
    · next heq =>
      cases h
      refine ⟨heq ▸ rangeStart.toNat_lt, [], rfl, fun _ => ⟨?_, nofun⟩⟩
      rw [heq, Nat.sub_self, List.length_nil]
    · next hne =>
      obtain ⟨hend, regs, rfl, hregs⟩ := ih h
      refine ⟨hend, rangeStart :: regs, rfl, fun hle => ?_⟩
      have hnext : (rangeStart + 1).toNat = rangeStart.toNat + 1 := by
        rw [UInt16.toNat_add, Nat.mod_eq_of_lt]
        · rfl
        · show rangeStart.toNat + 1 < 2 ^ 16
          omega
      obtain ⟨hlength, hlt⟩ := hregs (by omega)
      refine ⟨?_, List.forall_mem_cons.mpr ⟨by omega, hlt⟩⟩
      rw [List.length_cons, hlength]
      omega

end Alloc

/-- The code emitted for a range instruction that does not fit. -/
theorem RangeRegAllocator.run_of_not_fits {counter counter' : RegCounter} {ins : IRNode}
    {rangeStart : VReg} {argCount : ℕ} {code : List Emitted} (hfit : ins.fits = false)
    (h : RangeRegAllocator.run counter ins rangeStart argCount = some (code, counter')) :
    ∃ regs ins' k, code = spillMoves counter.usedRegs 0 (ins.registers.dropLast ++ rangeStart :: regs) ++
        .node ins' :: restoreMoves counter.usedRegs k ∧
      rangeStart.toNat + argCount < 2 ^ 16 ∧ (0 < argCount →
        regs.length + 1 = argCount ∧ ∀ r ∈ regs, r.toNat < rangeStart.toNat + argCount) := by
  simp only [RangeRegAllocator.run, hfit, Bool.false_eq_true, ↓reduceIte] at h
  split at h
  · cases h
  · next a ha =>
    split at h
    · next hlen =>
      obtain ⟨rfl, -⟩ := Prod.mk.inj (Option.some.inj h)
      obtain ⟨hend, regs, rfl, hregs⟩ := Alloc.spillRange_eq ha
      have hall : (Alloc.spillAll (Alloc.spill (Alloc.spillAll { counter, regEnd := counter.nextReg }
          ins.registers.dropLast).2 rangeStart).2 regs).2 =
          (Alloc.spillAll { counter, regEnd := counter.nextReg }
            (ins.registers.dropLast ++ rangeStart :: regs)).2 := by
        rw [Alloc.spillAll_append]
        rfl
      have hover (l : List VReg) : overLimit 0 l = l := by simp [overLimit, isRegisterCorrect]
      have hloop := Alloc.spillLoop_eq 0 counter.usedRegs
        (ins.registers.dropLast ++ rangeStart :: regs) { counter, regEnd := counter.nextReg } 0
        (by simp) rfl
      rw [hover, Nat.zero_add] at hloop
      refine ⟨regs, ins.withRegisters _ hlen,
        (UInt16.ofNat (ins.registers.dropLast ++ rangeStart :: regs).length).toNat, ?_, hend,
        fun hpos => ?_⟩
      · generalize ins.withRegisters _ hlen = ins'
        rw [hall, Alloc.spillAll_eq_spillLoop, hloop]
        simp only
        rw [Alloc.restoreLoop_eq counter.usedRegs]
        · simp [Alloc.add]
        · rfl
        · exact UInt16.ofNat_toNat.symm
      · have hnext : (rangeStart + 1).toNat = rangeStart.toNat + 1 := by
          rw [UInt16.toNat_add, Nat.mod_eq_of_lt]
          · rfl
          · show rangeStart.toNat + 1 < 2 ^ 16
            omega
        obtain ⟨hlength, hlt⟩ := hregs (by omega)
        exact ⟨by omega, hlt⟩
    · cases h

theorem RegAllocator.run_of_fits (counter : RegCounter) {ins : IRNode} (h : ins.fits) :
    (RegAllocator.run counter ins).1 = [.node ins] := by
  simp [RegAllocator.run, h]

end ArkTs2abc.Es2panda
