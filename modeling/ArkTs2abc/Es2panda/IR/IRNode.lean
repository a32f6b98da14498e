import ArkTs2abc.Es2panda.Compiler.RegScope

/-!
# IR nodes and their formats

An instruction class is generated from the instruction-set description, which
is not part of the sources. What the compiler relies on is kept as the fields of
`Opcode`: the formats of one opcode encode the same register operands, and a
register is encoded in 4, 8 or 16 bits.

## Main definitions

* `Format`, `OperandKind` — the operands of one encoding and their widths.
* `Opcode` — the registered formats of an instruction class.
* `IRNode` — an instruction: an opcode and its register operands.
-/

namespace ArkTs2abc.Es2panda

inductive OperandKind where
  | SRC_VREG | DST_VREG | SRC_DST_VREG | IMM | ID | STRING_ID | LABEL
  deriving DecidableEq, Repr

namespace OperandKind

/-- `FormatItem::IsVReg`. -/
def isVReg : OperandKind → Bool
  | SRC_VREG | DST_VREG | SRC_DST_VREG => true
  | _ => false

/-- The instruction reads this register operand. -/
def isSrc : OperandKind → Bool
  | SRC_VREG | SRC_DST_VREG => true
  | _ => false

/-- The instruction writes this register operand. -/
def isDst : OperandKind → Bool
  | DST_VREG | SRC_DST_VREG => true
  | _ => false

end OperandKind

structure FormatItem where
  kind : OperandKind
  bitwidth : ℕ
  deriving DecidableEq, Repr

abbrev Format := List FormatItem

namespace Format

/-- The kinds of the register operands, in the order of `IRNode::Registers`. -/
def vregKinds (f : Format) : List OperandKind := (f.map FormatItem.kind).filter OperandKind.isVReg

end Format

/-- `IRNode::MAX_REG_OPERAND`. -/
def maxRegOperand : ℕ := 5

/-- The formats registered for one instruction class. -/
structure Opcode where
  formats : List Format
  kinds : List OperandKind
  formats_ne_nil : formats ≠ []
  vregKinds_eq : ∀ f ∈ formats, f.vregKinds = kinds
  bitwidth_mem : ∀ f ∈ formats, ∀ item ∈ f, item.kind.isVReg → item.bitwidth ∈ [4, 8, 16]
  length_le : kinds.length ≤ maxRegOperand

/-- An instruction with its register operands; the others play no part in register allocation. -/
structure IRNode where
  op : Opcode
  registers : List VReg
  length_eq : registers.length = op.kinds.length

namespace IRNode

/-- The register operands with the way each is used. -/
def operands (ins : IRNode) : List (OperandKind × VReg) := ins.op.kinds.zip ins.registers

/-- The instruction with other registers in the same operand positions. -/
def withRegisters (ins : IRNode) (regs : List VReg) (h : regs.length = ins.registers.length) :
    IRNode where
  op := ins.op
  registers := regs
  length_eq := h.trans ins.length_eq

theorem length_registers_le (ins : IRNode) : ins.registers.length ≤ maxRegOperand :=
  ins.length_eq ▸ ins.op.length_le

end IRNode

end ArkTs2abc.Es2panda
