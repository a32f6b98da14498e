import ArkTs2abc.Es2panda.Parser.ExpressionParser

/-!
# Sequences of operands and their grammar

A sequence is what an assignment expression is written as: operands with binary operators between
them, and after the last operand nothing or the rest of a conditional expression. An assignment
and an arrow function are sequences as well; behind an operator they are right operands without
parentheses.

The grammar is that of ECMAScript. Its productions for binary operators derive a tree from a word,
which is an operand and a list of operators, each with the operand after it.

## Main definitions

* `Operand`, `Sequence`, `Rest`, `Sequences` — what is parsed, and its tokens.
* `Derives` — the productions for binary operators.
* `Sequence.Derives` — the productions for assignment expressions.
-/

namespace ArkTs2abc.Es2panda.Parser

mutual

inductive Operand where
  | identifier (text : ℕ)
  | member (text : ℕ)
  | operand (text : ℕ)
  | unary (op : UnaryOperator) (argument : Operand)
  | update (op : UpdateOperator) (argument : Operand)
  | await (argument : Operand)
  /-- In parentheses, with commas between. -/
  | parenthesized (first : Sequence) (others : Sequences)
  deriving DecidableEq, Repr

inductive Sequence where
  | operand (first : Operand) (rest : Rest)
  | assignment (target : Operand) (op : AssignmentOperator) (value : Sequence)
  | arrowFunction (parameter : ℕ) (body : Sequence)
  | blockFunction (parameter block : ℕ)
  deriving DecidableEq, Repr

/-- What follows an operand. -/
inductive Rest where
  | done
  | binary (op : BinaryOperator) (right : Sequence)
  | conditional (consequent alternate : Sequence)
  deriving DecidableEq, Repr

inductive Sequences where
  | nil
  | cons (head : Sequence) (tail : Sequences)
  deriving DecidableEq, Repr

end

/-! ### Tokens -/

mutual

def Operand.tokens : Operand → List Token
  | .identifier n => [.identifier n]
  | .member n => [.member n]
  | .operand n => [.operand n]
  | .unary op argument => op.token :: argument.tokens
  | .update op argument => .update op :: argument.tokens
  | .await argument => .keywAwait :: argument.tokens
  | .parenthesized first others =>
    .leftParenthesis :: (first.tokens ++ (others.tokens ++ [.rightParenthesis]))

def Sequence.tokens : Sequence → List Token
  | .operand first rest => first.tokens ++ rest.tokens
  | .assignment target op value => target.tokens ++ .assignment op :: value.tokens
  | .arrowFunction n body => .identifier n :: .arrow :: body.tokens
  | .blockFunction n block => [.identifier n, .arrow, .block block]

def Rest.tokens : Rest → List Token
  | .done => []
  | .binary op right => .binary op :: right.tokens
  | .conditional consequent alternate =>
    .questionMark :: (consequent.tokens ++ .colon :: alternate.tokens)

def Sequences.tokens : Sequences → List Token
  | .nil => []
  | .cons head tail => .comma :: (head.tokens ++ tail.tokens)

end

/-! ### Binary operators -/

inductive Nonterminal where
  | shortCircuit
  | coalesce
  | coalesceHead
  | logicalOr
  | logicalAnd
  | bitwiseOr
  | bitwiseXor
  | bitwiseAnd
  | equality
  | relational
  | shift
  | additive
  | multiplicative
  | exponentiation
  | unary
  | update
  deriving DecidableEq, Repr

namespace Nonterminal

/-- `n.chains m`: there is a production `n : m`. -/
def chains : Nonterminal → Nonterminal → Bool
  | shortCircuit, logicalOr | shortCircuit, coalesce
  | coalesceHead, coalesce | coalesceHead, bitwiseOr
  | logicalOr, logicalAnd | logicalAnd, bitwiseOr | bitwiseOr, bitwiseXor
  | bitwiseXor, bitwiseAnd | bitwiseAnd, equality | equality, relational | relational, shift
  | shift, additive | additive, multiplicative | multiplicative, exponentiation
  | exponentiation, unary | unary, update => true
  | _, _ => false

end Nonterminal

/-- A production `head : left op right`. -/
structure Production where
  head : Nonterminal
  left : Nonterminal
  right : Nonterminal
  deriving DecidableEq, Repr

def BinaryOperator.production : BinaryOperator → Production
  | nullishCoalescing => ⟨.coalesce, .coalesceHead, .bitwiseOr⟩
  | logicalOr => ⟨.logicalOr, .logicalOr, .logicalAnd⟩
  | logicalAnd => ⟨.logicalAnd, .logicalAnd, .bitwiseOr⟩
  | bitwiseOr => ⟨.bitwiseOr, .bitwiseOr, .bitwiseXor⟩
  | bitwiseXor => ⟨.bitwiseXor, .bitwiseXor, .bitwiseAnd⟩
  | bitwiseAnd => ⟨.bitwiseAnd, .bitwiseAnd, .equality⟩
  | equal | notEqual | strictEqual | notStrictEqual => ⟨.equality, .equality, .relational⟩
  | lessThan | lessThanEqual | greaterThan | greaterThanEqual | keywIn | keywInstanceof =>
    ⟨.relational, .relational, .shift⟩
  | leftShift | rightShift | unsignedRightShift => ⟨.shift, .shift, .additive⟩
  | plus | minus => ⟨.additive, .additive, .multiplicative⟩
  | multiply | divide | mod => ⟨.multiplicative, .multiplicative, .exponentiation⟩
  | exponentiation => ⟨.exponentiation, .update, .exponentiation⟩

namespace Expression

/-- What `UnaryExpression` derives and `UpdateExpression` does not. -/
def isUnaryOnly (e : Expression) : Bool :=
  (e.isUnaryExpression || e.isAwaitExpression) && !e.isGrouped

end Expression

/-- The trees of a word of operands whose own trees are given. -/
inductive Derives : Nonterminal → Expression → List (BinaryOperator × Expression) →
    Expression → Prop where
  | update {e : Expression} (h : e.isUnaryOnly = false) : Derives .update e [] e
  | unary {e : Expression} (h : e.isUnaryOnly) : Derives .unary e [] e
  | chain {n m : Nonterminal} {first e : Expression} {word : List (BinaryOperator × Expression)}
      (h : n.chains m) (tree : Derives m first word e) : Derives n first word e
  | binary {op : BinaryOperator} {first second left right : Expression}
      {before after : List (BinaryOperator × Expression)}
      (hLeft : Derives op.production.left first before left)
      (hRight : Derives op.production.right second after right) :
      Derives op.production.head first (before ++ (op, second) :: after)
        (.binary false op left right)

/-! ### Assignment expressions -/

/-- The tree of expressions in parentheses. -/
def parenthesize (x : Expression) : Expressions → Expression
  | .nil => x.setGrouped
  | .cons y ys => .sequence true (.cons x (.cons y ys))

mutual

/-- The trees of a unary expression. -/
def Operand.Derives : Operand → Expression → Prop
  | .identifier n, e => e = .identifier false n
  | .member n, e => e = .member false n
  | .operand n, e => e = .operand false n
  | .unary op argument, e =>
    ∃ x, argument.Derives x ∧ e = .unary false op x ∧
      -- an early error of strict mode
      ¬ (op = .keywDelete ∧ x.isIdentifier)
  | .update op argument, e =>
    ∃ x, argument.Derives x ∧ e = .update false op x ∧ (x.isIdentifier ∨ x.isMemberExpression)
  | .await argument, e => ∃ x, argument.Derives x ∧ e = .await false x
  | .parenthesized first others, e =>
    ∃ x xs, first.Derives x ∧ others.Derives xs ∧ e = parenthesize x xs

/-- The trees of an assignment expression. -/
def Sequence.Derives : Sequence → Expression → Prop
  | .operand first rest, e => ∃ x, first.Derives x ∧ rest.Derives x [] e
  | .assignment target op value, e =>
    ∃ t v, target.Derives t ∧ value.Derives v ∧ e = .assignment false op t v ∧
      (t.isIdentifier ∨ t.isMemberExpression)
  | .arrowFunction n body, e =>
    ∃ b, body.Derives b ∧ e = .arrowFunction false (.cons (.identifier false n) .nil) b
  | .blockFunction n block, e =>
    e = .blockFunction false (.cons (.identifier false n) .nil) block

/-- The trees of a short-circuit or a conditional expression whose word begins with `first` and
`word`. -/
def Rest.Derives (first : Expression) (word : List (BinaryOperator × Expression)) :
    Rest → Expression → Prop
  | .done, e => Parser.Derives .shortCircuit first word e
  | .conditional consequent alternate, e =>
    ∃ t c a, Parser.Derives .shortCircuit first word t ∧ consequent.Derives c ∧
      alternate.Derives a ∧ e = .conditional false t c a
  | .binary op right, e => right.DerivesAfter first word op e

/-- A sequence as the right operand and what follows it. -/
def Sequence.DerivesAfter (first : Expression) (word : List (BinaryOperator × Expression))
    (op : BinaryOperator) : Sequence → Expression → Prop
  | .operand second rest, e => ∃ x, second.Derives x ∧ rest.Derives first (word ++ [(op, x)]) e
  -- an assignment or an arrow function is no operand
  | _, _ => False

def Sequences.Derives : Sequences → Expressions → Prop
  | .nil, es => es = .nil
  | .cons head tail, es => ∃ x xs, head.Derives x ∧ tail.Derives xs ∧ es = .cons x xs

end

end ArkTs2abc.Es2panda.Parser
