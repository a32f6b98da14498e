import ArkTs2abc.FlatCode.Forward

/-!
# Expressions, and the instructions that both compilers branch with

What an expression of another kind, an operator or a statement does is a parameter. The trace notes
which expressions are evaluated, which statements are executed and at which clauses of a switch
statement the run passes.

## Main definitions

* `Expression` — operators and conditional expressions over expressions of other kinds.
* `Expression.evaluate` — the language's evaluation.
* `Insn`, `exec` — the instructions.
-/

namespace ArkTs2abc.Branches

open FlatCode.Forward

inductive Value (V : Type) where
  | undefined
  | null
  | boolean (b : Bool)
  | other (v : V)
  deriving DecidableEq, Repr

inductive Comparison where
  | less | lesseq | greater | greatereq
  deriving DecidableEq, Repr

inductive Relation where
  | equal | notEqual | strictEqual | notStrictEqual
  | compare (op : Comparison)
  deriving DecidableEq, Repr

inductive Arithmetic where
  | add2 | sub2 | mul2 | div2 | mod2 | exp | shl2 | shr2 | ashr2 | and2 | or2 | xor2
  | isin | instanceof
  deriving DecidableEq, Repr

inductive BinaryOperator where
  | relation (op : Relation)
  | arithmetic (op : Arithmetic)
  | comma
  deriving DecidableEq, Repr

inductive LogicalOperator where
  | and | or | nullishCoalescing
  deriving DecidableEq, Repr

inductive Numeric where
  | tonumber | neg | not
  deriving DecidableEq, Repr

inductive UnaryOperator where
  | numeric (op : Numeric)
  | exclamationMark
  deriving DecidableEq, Repr

inductive Expression (E : Type) where
  | other (e : E)
  | binary (op : BinaryOperator) (left right : Expression E)
  | logical (op : LogicalOperator) (left right : Expression E)
  | unary (op : UnaryOperator) (argument : Expression E)
  | conditional (test consequent alternate : Expression E)
  | parenthesized (inner : Expression E)
  deriving DecidableEq, Repr

inductive Event (E S : Type) where
  | evaluated (e : E)
  | executed (s : S)
  | clause (index : ℕ)
  deriving DecidableEq, Repr

/-- The world, and what has been done so far. -/
structure Memory (E S W : Type) where
  world : W
  trace : List (Event E S)
  deriving DecidableEq, Repr

/-- What goes on outside of the code of tests. A statement answers whether it breaks. -/
structure Operations (E S V W X : Type) where
  evaluate : E → W → Except (X × W) (Value V × W)
  execute : S → W → Except (X × W) (Bool × W)
  strictEqual : V → V → Bool
  equal : Value V → Value V → W → Except (X × W) (Bool × W)
  compare : Comparison → Value V → Value V → W → Except (X × W) (Bool × W)
  arithmetic : Arithmetic → Value V → Value V → W → Except (X × W) (Value V × W)
  numeric : Numeric → Value V → W → Except (X × W) (Value V × W)
  truthy : V → Bool
  isZero : V → Bool

variable {E S V W X α : Type}

/-- An exception or a result, with the memory then. -/
abbrev Outcome (E S W X α : Type) := Except (X × Memory E S W) (α × Memory E S W)

namespace Memory

def note (m : Memory E S W) (event : Event E S) : Memory E S W :=
  { m with trace := m.trace ++ [event] }

@[simp] theorem note_world (m : Memory E S W) (event : Event E S) :
    (m.note event).world = m.world := rfl

@[simp] theorem note_trace (m : Memory E S W) (event : Event E S) :
    (m.note event).trace = m.trace ++ [event] := rfl

def perform (m : Memory E S W) (f : W → Except (X × W) (α × W)) : Outcome E S W X α :=
  match f m.world with
  | .error (x, w) => .error (x, { m with world := w })
  | .ok (a, w) => .ok (a, { m with world := w })

end Memory

namespace Operations

variable (ops : Operations E S V W X)

def toBoolean : Value V → Bool
  | .undefined => false
  | .null => false
  | .boolean b => b
  | .other v => ops.truthy v

def isStrictlyEqual : Value V → Value V → Bool
  | .undefined, .undefined => true
  | .null, .null => true
  | .boolean a, .boolean b => a == b
  | .other v, .other w => ops.strictEqual v w
  | _, _ => false

def relate (op : Relation) (x y : Value V) (m : Memory E S W) : Outcome E S W X Bool :=
  match op with
  | .equal => m.perform (ops.equal x y)
  | .notEqual => (m.perform (ops.equal x y)).map fun (b, m) => (!b, m)
  | .strictEqual => .ok (ops.isStrictlyEqual x y, m)
  | .notStrictEqual => .ok (!ops.isStrictlyEqual x y, m)
  | .compare op => m.perform (ops.compare op x y)

/-- The operator on the values of its operands. -/
def binary (op : BinaryOperator) (x y : Value V) (m : Memory E S W) : Outcome E S W X (Value V) :=
  match op with
  | .relation op => (ops.relate op x y m).map fun (b, m) => (.boolean b, m)
  | .arithmetic op => m.perform (ops.arithmetic op x y)
  | .comma => .ok (y, m)

def unary (op : UnaryOperator) (x : Value V) (m : Memory E S W) : Outcome E S W X (Value V) :=
  match op with
  | .numeric op => m.perform (ops.numeric op x)
  | .exclamationMark => .ok (.boolean !(ops.toBoolean x), m)

/-- Whether the value of the left operand is the value of the expression. -/
def decides (op : LogicalOperator) (x : Value V) : Bool :=
  match op with
  | .and => !ops.toBoolean x
  | .or => ops.toBoolean x
  | .nullishCoalescing =>
    !(ops.isStrictlyEqual .null x || ops.isStrictlyEqual .undefined x)

end Operations

namespace Expression

/-- The evaluation of an expression in the language. -/
def evaluate (ops : Operations E S V W X) :
    Expression E → Memory E S W → Outcome E S W X (Value V)
  | other e, m => (m.note (.evaluated e)).perform (ops.evaluate e)
  | binary op left right, m =>
    (left.evaluate ops m).bind fun (x, m) =>
      (right.evaluate ops m).bind fun (y, m) => ops.binary op x y m
  | logical op left right, m =>
    (left.evaluate ops m).bind fun (x, m) =>
      if ops.decides op x then .ok (x, m) else right.evaluate ops m
  | unary op argument, m => (argument.evaluate ops m).bind fun (x, m) => ops.unary op x m
  | conditional test consequent alternate, m =>
    (test.evaluate ops m).bind fun (x, m) =>
      if ops.toBoolean x then consequent.evaluate ops m else alternate.evaluate ops m
  | parenthesized inner, m => inner.evaluate ops m

/-- How many labels are set aside for the code of an expression: two for each node. -/
def labels : Expression E → ℕ
  | other _ => 2
  | binary _ left right => 2 + left.labels + right.labels
  | logical _ left right => 2 + left.labels + right.labels
  | unary _ argument => 2 + argument.labels
  | conditional test consequent alternate =>
    2 + test.labels + consequent.labels + alternate.labels
  | parenthesized inner => 2 + inner.labels

end Expression

/-! ### Instructions -/

/-- The registers that are loaded with a constant in front of the function's code. -/
inductive CacheList where
  | true | false | null | undefined
  deriving DecidableEq, Repr

inductive VReg where
  | temp (r : ℕ)
  | cached (c : CacheList)
  deriving DecidableEq, Repr

/-- The instructions, with labels that are numbers. The code of an expression of another kind counts as one, as does that of a
statement, which knows where a break leads; the note of a clause is no code. -/
inductive Insn (E S : Type) where
  | evaluate (e : E)
  | execute (s : S) (breakTarget : ℕ)
  | clause (index : ℕ)
  | sta (r : ℕ)
  | lda (r : VReg)
  | relation (op : Relation) (lhs : VReg)
  | arithmetic (op : Arithmetic) (lhs : VReg)
  | numeric (op : Numeric) (operand : VReg)
  | negate
  | toboolean
  | istrue
  | isfalse
  | jtrue (target : ℕ)
  | jfalse (target : ℕ)
  | jeqz (target : ℕ)
  | jmp (target : ℕ)
  deriving DecidableEq, Repr

structure State (E S V W : Type) where
  acc : Value V
  regs : ℕ → Value V
  memory : Memory E S W

namespace State

def read (s : State E S V W) : VReg → Value V
  | .temp r => s.regs r
  | .cached .true => .boolean true
  | .cached .false => .boolean false
  | .cached .null => .null
  | .cached .undefined => .undefined

/-- An outcome that is left in the accumulator. -/
def answer (s : State E S V W) (o : Outcome E S W X (Value V)) :
    Except (X × Memory E S W) (Transfer ℕ × State E S V W) :=
  o.map fun (v, m) => (.next, { s with acc := v, memory := m })

end State

namespace Operations

variable (ops : Operations E S V W X)

/-- Whether jeqz jumps. -/
def isZeroOrFalse : Value V → Bool
  | .boolean b => !b
  | .other v => ops.isZero v
  | _ => false

def exec (i : Insn E S) (s : State E S V W) :
    Except (X × Memory E S W) (Transfer ℕ × State E S V W) :=
  match i with
  | .evaluate e => s.answer ((s.memory.note (.evaluated e)).perform (ops.evaluate e))
  | .execute c breakTarget =>
    ((s.memory.note (.executed c)).perform (ops.execute c)).map fun (breaks, m) =>
      (if breaks then .jump breakTarget else .next, { s with memory := m })
  | .clause index => .ok (.next, { s with memory := s.memory.note (.clause index) })
  | .sta r => .ok (.next, { s with regs := Function.update s.regs r s.acc })
  | .lda r => .ok (.next, { s with acc := s.read r })
  | .relation op lhs => s.answer (ops.binary (.relation op) (s.read lhs) s.acc s.memory)
  | .arithmetic op lhs => s.answer (ops.binary (.arithmetic op) (s.read lhs) s.acc s.memory)
  | .numeric op operand => s.answer (ops.unary (.numeric op) (s.read operand) s.memory)
  | .negate => .ok (.next, { s with acc := .boolean !(ops.toBoolean s.acc) })
  | .toboolean => .ok (.next, { s with acc := .boolean (ops.toBoolean s.acc) })
  | .istrue => .ok (.next, { s with acc := .boolean (ops.toBoolean s.acc) })
  | .isfalse => .ok (.next, { s with acc := .boolean !(ops.toBoolean s.acc) })
  | .jtrue target =>
    .ok (match s.acc with
      | .boolean true => .jump target
      | _ => .next, s)
  | .jfalse target =>
    .ok (match s.acc with
      | .boolean false => .jump target
      | _ => .next, s)
  | .jeqz target => .ok (if ops.isZeroOrFalse s.acc then .jump target else .next, s)
  | .jmp target => .ok (.jump target, s)

end Operations

abbrev Code (E S : Type) := List (Item (Insn E S) ℕ)

end ArkTs2abc.Branches
