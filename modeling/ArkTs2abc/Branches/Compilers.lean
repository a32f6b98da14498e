import ArkTs2abc.Branches.Code

/-!
# Expressions and conditions in both compilers

A condition jumps to a label if it is false. Comparisons are fused with the branch, and the operands
of logical operators are tested one by one.

## Main definitions

* `Es2panda.compile`, `Es2panda.Condition.compile` — the ordinary path and the condition of es2panda.
* `Ts2panda.compileExpression`, `Ts2panda.compileCondition` — those of ts2panda.
* `Compiler` — either compiler.
-/

namespace ArkTs2abc.Branches

open FlatCode.Forward

variable {E S : Type}

namespace Es2panda

/-- `PandaGen::Binary`. The parser makes a node of its own kind of a comma. -/
def binary (op : BinaryOperator) (lhs : ℕ) : Option (Insn E S) :=
  match op with
  | .relation op => some (.relation op (.temp lhs))
  | .arithmetic op => some (.arithmetic op (.temp lhs))
  | .comma => none

/-- `PandaGen::Unary`. -/
def unary (op : UnaryOperator) (operand : ℕ) : Insn E S :=
  match op with
  | .numeric op => .numeric op (.temp operand)
  | .exclamationMark => .negate

/-- `PandaGen::Condition`. -/
def condition (op : Relation) (lhs : ℕ) (ifFalse : ℕ) : Code E S :=
  [.insn (.relation op (.temp lhs)), .insn (.jfalse ifFalse)]

/-- The branch around the right operand; `??` is not implemented. -/
def branch (op : LogicalOperator) (skipRight : ℕ) : Option (Insn E S) :=
  match op with
  | .and => some (.jfalse skipRight)
  | .or => some (.jtrue skipRight)
  | .nullishCoalescing => none

mutual

/-- The code of an expression, with the next register and the next label. -/
def compile : Expression E → ℕ → ℕ → Option (Code E S)
  | .other e, _, _ => some [.insn (.evaluate e)]
  | .binary op left right, reg, n => do
    let leftCode ← compile left (reg + 1) (n + 2)
    let rightCode ← compile right (reg + 1) (n + 2 + left.labels)
    let insn ← binary op reg
    return leftCode ++ (Item.insn (.sta reg) :: (rightCode ++ [Item.insn insn]))
  | .logical op left right, reg, n => do
    let leftCode ← compile left (reg + 1) (n + 2)
    let rightCode ← compile right (reg + 1) (n + 2 + left.labels)
    let branch ← branch op n
    return leftCode ++ (Item.insn (.sta reg) :: Item.insn .toboolean :: Item.insn branch ::
      (rightCode ++ [Item.insn (.jmp (n + 1)), Item.label n, Item.insn (.lda (.temp reg)), Item.label (n + 1)]))
  | .unary op argument, reg, n => do
    let code ← compile argument reg (n + 2)
    return code ++ [Item.insn (.sta reg), Item.insn (unary op reg)]
  | .conditional test consequent alternate, reg, n => do
    let testCode ← Condition.compile test n reg (n + 2)
    let consequentCode ← compile consequent reg (n + 2 + test.labels)
    let alternateCode ← compile alternate reg (n + 2 + test.labels + consequent.labels)
    return testCode ++ (consequentCode ++
      (.insn (.jmp (n + 1)) :: Item.label n :: (alternateCode ++ [Item.label (n + 1)])))
  | .parenthesized inner, reg, n => compile inner reg n
termination_by e => (sizeOf e, 0)

/-- `Condition::Compile`. -/
def Condition.compile : Expression E → ℕ → ℕ → ℕ → Option (Code E S)
  | .binary (.relation op) left right, falseLabel, reg, n => do
    let leftCode ← Es2panda.compile left (reg + 1) (n + 2)
    let rightCode ← Es2panda.compile right (reg + 1) (n + 2 + left.labels)
    return leftCode ++ (Item.insn (.sta reg) :: (rightCode ++ condition op reg falseLabel))
  | .logical .and left right, falseLabel, reg, n => do
    let leftCode ← Es2panda.compile left reg (n + 2)
    let rightCode ← Es2panda.compile right reg (n + 2 + left.labels)
    return leftCode ++ (Item.insn .toboolean :: Item.insn (.jfalse falseLabel) ::
      (rightCode ++ [Item.insn .toboolean, Item.insn (.jfalse falseLabel)]))
  | .logical .or left right, falseLabel, reg, n => do
    let leftCode ← Es2panda.compile left reg (n + 2)
    let rightCode ← Es2panda.compile right reg (n + 2 + left.labels)
    return leftCode ++ (Item.insn .toboolean :: Item.insn (.jtrue n) ::
      (rightCode ++ [Item.insn .toboolean, Item.insn (.jfalse falseLabel), Item.label n]))
  | .unary .exclamationMark argument, falseLabel, reg, n => do
    let code ← Es2panda.compile argument reg (n + 2)
    return code ++ [Item.insn .negate, Item.insn (.jfalse falseLabel)]
  | .parenthesized inner, falseLabel, reg, n => Condition.compile inner falseLabel reg n
  | expr, falseLabel, reg, n => do
    let code ← Es2panda.compile expr reg n
    return code ++ [Item.insn .toboolean, Item.insn (.jfalse falseLabel)]
termination_by e => (sizeOf e, 1)

end

end Es2panda

namespace Ts2panda

def jumpIfTrue (target : ℕ) : Code E S := [.insn .isfalse, Item.insn (.jeqz target)]

def jumpIfFalse (target : ℕ) : Code E S := [.insn .istrue, Item.insn (.jeqz target)]

/-- Both `condition` and `binaryRelation` begin like this. -/
def condition (op : Relation) (lhs : VReg) (ifFalse : ℕ) : Code E S :=
  [.insn (.relation op lhs), Item.insn (.jeqz ifFalse)]

def binaryRelation (op : Relation) (lhs : ℕ) (n : ℕ) : Code E S :=
  [.insn (.relation op (.temp lhs)), Item.insn (.jeqz n), Item.insn (.lda (.cached .true)),
    .insn (.jmp (n + 1)), Item.label n, Item.insn (.lda (.cached .false)), Item.label (n + 1)]

/-- Nothing is added for a comma. -/
def binary (op : BinaryOperator) (lhs : ℕ) (n : ℕ) : Code E S :=
  match op with
  | .relation op => binaryRelation op lhs n
  | .arithmetic op => [.insn (.arithmetic op (.temp lhs))]
  | .comma => []

def unary (op : UnaryOperator) (operand : ℕ) (n : ℕ) : Code E S :=
  match op with
  | .numeric op => [.insn (.numeric op (.temp operand))]
  | .exclamationMark =>
    jumpIfFalse n ++ [Item.insn (.lda (.cached .false)), Item.insn (.jmp (n + 1)), Item.label n,
      .insn (.lda (.cached .true)), Item.label (n + 1)]

mutual

def compileExpression : Expression E → ℕ → ℕ → Code E S
  | .other e, _, _ => [.insn (.evaluate e)]
  | .binary op left right, reg, n =>
    compileExpression left (reg + 1) (n + 2) ++ (Item.insn (.sta reg) ::
      (compileExpression right (reg + 1) (n + 2 + left.labels) ++ binary op reg n))
  | .logical .and left right, reg, n =>
    compileExpression left (reg + 1) (n + 2) ++ (Item.insn (.sta reg) :: (jumpIfFalse n ++
      (compileExpression right (reg + 1) (n + 2 + left.labels) ++
        [.insn (.jmp (n + 1)), Item.label n, Item.insn (.lda (.temp reg)), Item.label (n + 1)])))
  | .logical .or left right, reg, n =>
    compileExpression left (reg + 1) (n + 2) ++ (Item.insn (.sta reg) :: (jumpIfTrue n ++
      (compileExpression right (reg + 1) (n + 2 + left.labels) ++
        [.insn (.jmp (n + 1)), Item.label n, Item.insn (.lda (.temp reg)), Item.label (n + 1)])))
  | .logical .nullishCoalescing left right, reg, n =>
    compileExpression left (reg + 1) (n + 2) ++ (Item.insn (.sta reg) ::
      (condition .notStrictEqual (.cached .null) n ++ (Item.insn (.lda (.temp reg)) ::
        (condition .notStrictEqual (.cached .undefined) n ++ (Item.insn (.lda (.temp reg)) ::
          .insn (.jmp (n + 1)) :: Item.label n ::
          (compileExpression right (reg + 1) (n + 2 + left.labels) ++ [Item.label (n + 1)]))))))
  | .unary op argument, reg, n =>
    compileExpression argument (reg + 1) (n + 2) ++ (Item.insn (.sta reg) :: unary op reg n)
  | .conditional test consequent alternate, reg, n =>
    compileCondition test n reg (n + 2) ++
      (compileExpression consequent reg (n + 2 + test.labels) ++
        (.insn (.jmp (n + 1)) :: Item.label n ::
          (compileExpression alternate reg (n + 2 + test.labels + consequent.labels) ++
            [.label (n + 1)])))
  | .parenthesized inner, reg, n => compileExpression inner reg n
termination_by e => (sizeOf e, 0)

def compileCondition : Expression E → ℕ → ℕ → ℕ → Code E S
  | .binary (.relation op) left right, ifFalseLabel, reg, n =>
    compileExpression left (reg + 1) (n + 2) ++ (Item.insn (.sta reg) ::
      (compileExpression right (reg + 1) (n + 2 + left.labels) ++
        condition op (.temp reg) ifFalseLabel))
  | .logical .and left right, ifFalseLabel, reg, n =>
    compileExpression left reg (n + 2) ++ (jumpIfFalse ifFalseLabel ++
      (compileExpression right reg (n + 2 + left.labels) ++ jumpIfFalse ifFalseLabel))
  | .logical .or left right, ifFalseLabel, reg, n =>
    compileExpression left reg (n + 2) ++ (jumpIfTrue n ++
      (compileExpression right reg (n + 2 + left.labels) ++
        (jumpIfFalse ifFalseLabel ++ [Item.label n])))
  | expr, ifFalseLabel, reg, n => compileExpression expr reg n ++ jumpIfFalse ifFalseLabel
termination_by e => (sizeOf e, 1)

end

end Ts2panda

inductive Compiler where
  | es2panda
  | ts2panda
  deriving DecidableEq, Repr

namespace Compiler

def compile : Compiler → Expression E → ℕ → ℕ → Option (Code E S)
  | es2panda, e, reg, n => Es2panda.compile e reg n
  | ts2panda, e, reg, n => some (Ts2panda.compileExpression e reg n)

def compileCondition : Compiler → Expression E → ℕ → ℕ → ℕ → Option (Code E S)
  | es2panda, e, falseLabel, reg, n => Es2panda.Condition.compile e falseLabel reg n
  | ts2panda, e, falseLabel, reg, n => some (Ts2panda.compileCondition e falseLabel reg n)

end Compiler

end ArkTs2abc.Branches
