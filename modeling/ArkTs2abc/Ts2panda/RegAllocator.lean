import ArkTs2abc.RegMachine.Spill

/-!
# The register allocator of ts2panda

The registers of a function are numbered first; then each instruction whose
operands do not fit any of its formats is adjusted. `doRealAdjustment` gives each
operand that is too large a low register of the function to stand in for it and
a fresh register to save that one in.

An instruction class is generated from the instruction-set description, which is
not part of the sources. What the allocator relies on is kept as the fields of
`Opcode`.

## Main definitions

* `Opcode`, `IRNode` — instructions and their formats.
* `RegAllocator` — the fields of the allocator and its methods.
* `RegAllocator.Reachable` — the states it goes through in a function.
-/

namespace ArkTs2abc.Ts2panda

inductive OperandKind where
  | Imm | Id | StringId | SrcVReg | DstVReg | SrcDstVReg | Label
  deriving DecidableEq, Repr

namespace OperandKind

def isVReg : OperandKind → Bool
  | SrcVReg | DstVReg | SrcDstVReg => true
  | _ => false

def isSrc : OperandKind → Bool
  | SrcVReg | SrcDstVReg => true
  | _ => false

def isDst : OperandKind → Bool
  | DstVReg | SrcDstVReg => true
  | _ => false

end OperandKind

/-- Kind and width of each operand. -/
abbrev Format := List (OperandKind × ℕ)

inductive OperandType where
  /-- `VReg`, by its number. -/
  | vreg (num : ℕ)
  | other
  deriving DecidableEq, Repr

/-- `MAX_VREGA`, `MAX_VREGB` and `MAX_VREGC`. -/
def maxVRegA : ℕ := 16
def maxVRegB : ℕ := 256
def maxVRegC : ℕ := 65536

/-- The formats of one instruction class: they encode the same operands, and destinations in the
same width. -/
structure Opcode where
  formats : List Format
  kinds : List OperandKind
  formats_ne_nil : formats ≠ []
  kinds_eq : ∀ f ∈ formats, f.map Prod.fst = kinds
  width_mem : ∀ f ∈ formats, ∀ item ∈ f, item.1.isVReg → item.2 ∈ [4, 8, 16]
  dst_width : ∀ f ∈ formats, ∀ i ∈ f, ∀ j ∈ f, i.1.isDst → j.1.isDst → i.2 = j.2

/-- An instruction, with registers where its formats have registers. A range instruction names where
its range starts (`getRangeStartVregPos`) and has more operands than its formats have items. -/
structure IRNode where
  op : Opcode
  operands : List OperandType
  rangeStart : Option ℕ := none
  typed : ∀ k n, (k, .vreg n) ∈ op.kinds.zip operands → k.isVReg

/-- The register operands with the way each is used. -/
def registers : List OperandKind → List OperandType → List (RegMachine.Operand ℕ)
  | k :: ks, .vreg n :: os => ⟨n, k.isSrc, k.isDst⟩ :: registers ks os
  | _ :: ks, .other :: os => registers ks os
  | _, _ => []

def IRNode.registers (ins : IRNode) : List (RegMachine.Operand ℕ) :=
  Ts2panda.registers ins.op.kinds ins.operands

/-- The register operands are registers of a function that has `total` of them. -/
def IRNode.RegistersLt (ins : IRNode) (total : ℕ) : Prop := ∀ n, .vreg n ∈ ins.operands → n < total

/-- What ends up in `newInsns`: the allocator's moves and the instructions themselves. -/
inductive Emitted where
  | movDyn (dst src : ℕ)
  | node (op : Opcode) (operands : List OperandType)

/-- The fields of `RegAllocator`. Every register is entered in `usedVreg` under its number, so the
length of the list is `vRegsId`. -/
structure RegAllocator where
  newInsns : List Emitted := []
  /-- The stack of free spills, its top first. -/
  spills : List ℕ := []
  /-- The flag of each register. -/
  usedVreg : List Bool := []
  tmpVreg : List ℕ := []

namespace RegAllocator

/-- `getFreeVreg` and `allocIndexForVreg`. -/
def allocIndexForVreg (a : RegAllocator) : Option (ℕ × RegAllocator) :=
  if maxVRegC ≤ a.usedVreg.length then none
  else some (a.usedVreg.length, { a with usedVreg := a.usedVreg ++ [false] })

/-- `flag = true` for a register that is in use. -/
def mark (a : RegAllocator) (num : ℕ) : RegAllocator :=
  { a with usedVreg := a.usedVreg.set num true, tmpVreg := a.tmpVreg ++ [num] }

def findTmpVreg (a : RegAllocator) (level : ℕ) : Option (ℕ × RegAllocator) :=
  match (a.usedVreg.take maxVRegB).findIdx? (!·) with
  | none => none
  | some i => if level = maxVRegA ∧ maxVRegA ≤ i then none else some (i, a.mark i)

def clearVregFlags (a : RegAllocator) : RegAllocator :=
  { a with usedVreg := a.tmpVreg.foldl (·.set · false) a.usedVreg, tmpVreg := [] }

def allocSpill (a : RegAllocator) : Option (ℕ × RegAllocator) :=
  match a.spills with
  | s :: spills => some (s, { a with spills })
  | [] => a.allocIndexForVreg

/-- `markVregNotAvailableAsTmp` for the register operands. -/
def markOperands (a : RegAllocator) : List OperandType → Option RegAllocator
  | [] => some a
  | .vreg n :: os => if n < a.usedVreg.length then (a.mark n).markOperands os else none
  | .other :: os => a.markOperands os

/-- What an adjustment collects: the moves before and after, the new operands and the spills. -/
structure Adjustment where
  head : List Emitted := []
  tail : List Emitted := []
  operands : List OperandType := []
  spills : List ℕ := []

/-- The moves for one operand that is too large. -/
def Adjustment.addSpill (kind : OperandKind) (vOrigin vTmp spill : ℕ) (r : Adjustment) :
    Adjustment where
  head := .movDyn spill vTmp :: (if kind.isSrc then [.movDyn vTmp vOrigin] else []) ++ r.head
  tail := (if kind.isDst then [.movDyn vOrigin vTmp] else []) ++ .movDyn vTmp spill :: r.tail
  operands := .vreg vTmp :: r.operands
  spills := spill :: r.spills

/-- The code of the adjusted instruction. -/
def Adjustment.code (r : Adjustment) (ins : IRNode) : List Emitted :=
  r.head ++ Emitted.node ins.op r.operands :: r.tail

/-- The loop of `doRealAdjustment` over the operands. -/
def adjustLoop (a : RegAllocator) : Format → List OperandType → Option (Adjustment × RegAllocator)
  | (kind, width) :: format, .vreg n :: os =>
    if 2 ^ width ≤ n then do
      let (spill, a) ← a.allocSpill
      let (vTmp, a) ← a.findTmpVreg (2 ^ width)
      let (r, a) ← a.adjustLoop format os
      some (r.addSpill kind n vTmp spill, a)
    else do
      let (r, a) ← a.adjustLoop format os
      some ({ r with operands := .vreg n :: r.operands }, a)
  | _ :: format, .other :: os => do
    let (r, a) ← a.adjustLoop format os
    some ({ r with operands := .other :: r.operands }, a)
  | _, os => some ({ operands := os }, a)

/-- The end of an adjustment: the code is appended, the spills are free again. -/
def finish (a : RegAllocator) (ins : IRNode) (r : Adjustment) : RegAllocator :=
  { a with
    newInsns := a.newInsns ++ r.code ins
    spills := r.spills ++ a.spills }.clearVregFlags

def doRealAdjustment (a : RegAllocator) (ins : IRNode) (format : Format) : Option RegAllocator := do
  let a ← a.markOperands ins.operands
  let (r, a) ← a.adjustLoop format ins.operands
  some (a.finish ins r)

/-- The loop of `adjustDynRangeInstruction`, from one of the consecutive registers on. -/
def rangeLoop (a : RegAllocator) : ℕ → List OperandType → Option (Adjustment × RegAllocator)
  | reg, .vreg n :: os => do
    let (spill, a) ← a.allocSpill
    if reg < a.usedVreg.length then
      let (r, a) ← a.rangeLoop (reg + 1) os
      some (r.addSpill .SrcVReg n reg spill, a)
    else none
  | _, os => some ({ operands := os }, a)

def adjustDynRangeInstruction (a : RegAllocator) (ins : IRNode) (rangeRegOffset level : ℕ) :
    Option RegAllocator := do
  let (tmp, a) ← a.findTmpVreg level
  let (r, a) ← a.rangeLoop tmp (ins.operands.drop rangeRegOffset)
  some (a.finish ins { r with operands := ins.operands.take rangeRegOffset ++ r.operands })

def getNumOfInvalidVregs : Format → List OperandType → ℕ
  | (_, width) :: format, .vreg n :: os =>
    getNumOfInvalidVregs format os + if 2 ^ width ≤ n then 1 else 0
  | _ :: format, .other :: os => getNumOfInvalidVregs format os
  | _, _ => 0

/-- The format with the fewest operands that are too large, and their number. -/
def minFormat (operands : List OperandType) : Format × ℕ → List Format → Format × ℕ
  | best, [] => best
  | best, f :: fs =>
    let num := getNumOfInvalidVregs f operands
    minFormat operands (if num < best.2 then (f, num) else best) fs

/-- Whether the registers from `num` on are consecutive. -/
def consecutive : ℕ → List OperandType → Bool
  | num, .vreg n :: os => num + 1 = n && consecutive n os
  | _, .other :: _ => false
  | _, [] => true

/-- `checkDynRangeInstruction`; a range that is not consecutive is an error. -/
def checkDynRangeInstruction (ins : IRNode) (rangeRegOffset level : ℕ) : Option Bool :=
  match ins.operands.drop 1, ins.operands.drop rangeRegOffset with
  | .vreg n :: _, .vreg start :: os =>
    if level ≤ n then some false else if consecutive start os then some true else none
  | _, _ => none

/-- `1 << formats[0][rangeRegOffset][1]`. -/
def rangeLevel (ins : IRNode) (rangeRegOffset : ℕ) : Option ℕ := do
  let item ← (← ins.op.formats.head?)[rangeRegOffset]?
  some (2 ^ item.2)

/-- One round of the loop of `adjustInstructionsIfNeeded`. -/
def adjustInstruction (a : RegAllocator) (ins : IRNode) : Option RegAllocator :=
  match ins.rangeStart with
  | some rangeRegOffset => do
    let level ← rangeLevel ins rangeRegOffset
    if ← checkDynRangeInstruction ins rangeRegOffset level then
      some { a with newInsns := a.newInsns ++ [.node ins.op ins.operands] }
    else a.adjustDynRangeInstruction ins rangeRegOffset level
  | none => do
    let first ← ins.op.formats.head?
    let (format, min) := minFormat ins.operands (first, ins.operands.length) ins.op.formats
    if 0 < min then a.doRealAdjustment ins format
    else some { a with newInsns := a.newInsns ++ [.node ins.op ins.operands] }

def adjustInstructionsIfNeeded (a : RegAllocator) : List IRNode → Option RegAllocator
  | [] => some a
  | ins :: irNodes => do (← a.adjustInstruction ins).adjustInstructionsIfNeeded irNodes

/-- `run`, up to the adjustment: locals, temporaries and cached registers are numbered. -/
def allocAll (a : RegAllocator) : ℕ → Option RegAllocator
  | 0 => some a
  | n + 1 => do
    let (_, a) ← a.allocIndexForVreg
    a.allocAll n

/-- The states the allocator is in between two instructions of a function with `total` registers. -/
def Reachable (total : ℕ) (a : RegAllocator) : Prop :=
  ∃ a₀ irNodes, allocAll {} total = some a₀ ∧ (∀ ins ∈ irNodes, ins.RegistersLt total) ∧
    a₀.adjustInstructionsIfNeeded irNodes = some a

end RegAllocator

end ArkTs2abc.Ts2panda
