import ArkTs2abc.OperatorTree
import ArkTs2abc.Es2panda.Parser.ExpressionGrammar
import Mathlib.Tactic.Common

/-!
# The trees of binary expressions

What the parser compares is a precedence, and so is what the productions for binary operators
say. The two differ at one pair of operators: the parser gives `&&` the precedence of `|`.

## Main definitions

* `toExpression` — the binary expression of a tree.
* `Amends`, `Binds` — the precedence of the parser and that of the grammar.

## Main results

* `attachLeft_toExpression` — the parser puts an operator into the tree of its right side.
* `derives_shortCircuit_iff` — the grammar derives the tree built by its own precedence.
* `build_eq_build_iff` — the two build one tree iff no `&&` stands before a `|`.
-/

namespace ArkTs2abc.Es2panda.Parser

open OperatorTree

/-! ### Levels -/

/-- How far down in the grammar a nonterminal is. -/
def Nonterminal.level : Nonterminal → ℕ
  | shortCircuit => 0
  | coalesce | coalesceHead => 1
  | logicalOr => 2
  | logicalAnd => 3
  | bitwiseOr => 4
  | bitwiseXor => 5
  | bitwiseAnd => 6
  | equality => 7
  | relational => 8
  | shift => 9
  | additive => 10
  | multiplicative => 11
  | exponentiation => 12
  | unary => 13
  | update => 14

def BinaryOperator.level (op : BinaryOperator) : ℕ :=
  op.production.head.level

namespace BinaryOperator

theorem level_pos (op : BinaryOperator) : 0 < op.level := by cases op <;> decide

theorem level_le (op : BinaryOperator) : op.level ≤ 12 := by cases op <;> decide

variable {op : BinaryOperator}

theorem level_eq_one : op.level = 1 ↔ op = nullishCoalescing := by
  cases op <;> decide

theorem level_eq_two : op.level = 2 ↔ op = logicalOr := by
  cases op <;> decide

theorem level_eq_three : op.level = 3 ↔ op = logicalAnd := by
  cases op <;> decide

theorem level_eq_four : op.level = 4 ↔ op = bitwiseOr := by
  cases op <;> decide

theorem level_eq_twelve : op.level = 12 ↔ op = exponentiation := by
  cases op <;> decide

theorem isLogical_iff : op.isLogical ↔ op.level ≤ 3 := by
  cases op <;> decide

theorem isLogical_cases (h : op.isLogical) :
    op = nullishCoalescing ∨ op = logicalOr ∨ op = logicalAnd := by
  cases op <;> simp_all [isLogical]

theorem isLogical_or_eq (h : getOperatorPrecedence op ≤ 3) :
    op.isLogical ∨ op = bitwiseOr := by
  revert h
  cases op <;> decide

theorem eq_nullishCoalescing
    (h : getOperatorPrecedence op ≤ getOperatorPrecedence nullishCoalescing) :
    op = nullishCoalescing := by
  revert h
  cases op <;> decide

theorem eq_exponentiation (h : getOperatorPrecedence exponentiation ≤ getOperatorPrecedence op) :
    op = exponentiation := by
  revert h
  cases op <;> decide

theorem getOperatorPrecedence_eq (op : BinaryOperator) :
    getOperatorPrecedence op = if op.level ≤ 3 then op.level else op.level - 1 := by
  cases op <;> rfl

end BinaryOperator

/-- The parser's precedence. -/
def Amends (p o : BinaryOperator) : Prop :=
  shouldBinaryExpressionBeAmended false p o

instance : DecidableRel Amends := fun p o =>
  inferInstanceAs (Decidable (shouldBinaryExpressionBeAmended false p o = true))

/-- The grammar's precedence. -/
def Binds (p o : BinaryOperator) : Prop :=
  p.level ≤ o.level ∧ ¬ (p = .exponentiation ∧ o = .exponentiation)

instance : DecidableRel Binds := fun p o =>
  inferInstanceAs (Decidable (p.level ≤ o.level ∧ ¬ (p = .exponentiation ∧ o = .exponentiation)))

theorem amends_iff (p o : BinaryOperator) :
    Amends p o ↔ Binds p o ∨ p = .bitwiseOr ∧ o = .logicalAnd := by
  have hPrecedence : getOperatorPrecedence p ≤ getOperatorPrecedence o ↔
      p.level ≤ o.level ∨ p.level = 4 ∧ o.level = 3 := by
    rw [p.getOperatorPrecedence_eq, o.getOperatorPrecedence_eq]
    split <;> split <;> omega
  rw [BinaryOperator.level_eq_four, BinaryOperator.level_eq_three] at hPrecedence
  simp only [Amends, Binds, shouldBinaryExpressionBeAmended, Bool.and_eq_true, decide_eq_true_eq,
    Bool.not_false, hPrecedence, Bool.or_eq_true, bne_iff_ne]
  grind

theorem proper_binds : Proper Binds where
  trans := by
    intro p q o ⟨hpq, hNot⟩ ⟨hqo, hNot'⟩
    refine ⟨Nat.le_trans hpq hqo, ?_⟩
    rintro ⟨rfl, rfl⟩
    have hq : q.level = 12 := Nat.le_antisymm q.level_le hpq
    rw [BinaryOperator.level_eq_twelve] at hq
    exact hNot ⟨rfl, hq⟩
  split := by
    intro p q o ⟨hpo, hNot⟩ hqo
    by_cases hLevel : q.level ≤ o.level
    · -- both `q` and `o` are `**`, and `p` is not
      obtain ⟨rfl, rfl⟩ : q = .exponentiation ∧ o = .exponentiation := by
        by_contra h
        exact hqo ⟨hLevel, h⟩
      exact ⟨hpo, hNot⟩
    · refine ⟨by omega, ?_⟩
      rintro ⟨rfl, rfl⟩
      have := o.level_le
      simp only [BinaryOperator.level, BinaryOperator.production, Nonterminal.level] at *
      omega

/-! ### Expressions of trees -/

namespace Expression

/-- What can be an operand of a tree: no binary and no conditional expression that is not in
parentheses. -/
def IsLeaf : Expression → Prop
  | binary grouped _ _ _ | conditional grouped _ _ _ => grouped
  | _ => True

/-- No conditional expression without parentheses. -/
def IsTest : Expression → Prop
  | conditional grouped _ _ _ => grouped
  | _ => True

theorem IsLeaf.isTest {e : Expression} (h : e.IsLeaf) : e.IsTest := by
  cases e <;> first | exact h | trivial

end Expression

def toExpression : Tree BinaryOperator Expression → Expression
  | .leaf e => e
  | .node op left right => .binary false op (toExpression left) (toExpression right)

@[simp] theorem toExpression_leaf (e : Expression) : toExpression (.leaf e) = e := rfl

@[simp] theorem toExpression_node (op : BinaryOperator)
    (left right : Tree BinaryOperator Expression) :
    toExpression (.node op left right) =
      .binary false op (toExpression left) (toExpression right) := rfl

def Leaves : Tree BinaryOperator Expression → Prop
  | .leaf e => e.IsLeaf
  | .node _ left right => Leaves left ∧ Leaves right

theorem isTest_toExpression {t : Tree BinaryOperator Expression} (h : Leaves t) :
    (toExpression t).IsTest := by
  cases t with
  | leaf e => exact h.isTest
  | node op left right => trivial

theorem toExpression_injective {t u : Tree BinaryOperator Expression} (ht : Leaves t)
    (hu : Leaves u) (h : toExpression t = toExpression u) : t = u := by
  induction t generalizing u with
  | leaf e =>
    cases u with
    | leaf e' => exact congrArg _ h
    | node op left right =>
      simp only [toExpression_leaf, toExpression_node] at h
      subst h
      cases ht
  | node op left right ihLeft ihRight =>
    cases u with
    | leaf e =>
      simp only [toExpression_leaf, toExpression_node] at h
      subst h
      cases hu
    | node op' left' right' =>
      obtain ⟨-, rfl, hLeft, hRight⟩ := Expression.binary.inj h
      rw [ihLeft ht.1 hu.1 hLeft, ihRight ht.2 hu.2 hRight]

theorem leaves_iff (t : Tree BinaryOperator Expression) :
    Leaves t ↔ t.first.IsLeaf ∧ ∀ entry ∈ t.rest, entry.2.IsLeaf := by
  induction t with
  | leaf e => simp [Leaves]
  | node op left right ihLeft ihRight =>
    simp only [Leaves, ihLeft, ihRight, Tree.first_node, Tree.rest_node, List.forall_mem_append,
      List.forall_mem_cons]
    grind

/-! ### Putting an operator into a tree -/

theorem shouldBinaryExpressionBeAmended_true (p o : BinaryOperator) :
    shouldBinaryExpressionBeAmended true p o = false := by
  simp [shouldBinaryExpressionBeAmended]

variable {p : BinaryOperator}

theorem amendLeft_of_isLeaf {grouped : Bool} {left e r : Expression} {op : BinaryOperator}
    (h : e.IsLeaf) :
    amendLeft left op (.binary grouped p e r) = .binary grouped p (.binary false op left e) r := by
  cases e with
  | binary g q l m =>
    obtain rfl : g = true := h
    simp [amendLeft, shouldBinaryExpressionBeAmended_true]
  | _ => rfl

theorem amendLeft_toExpression (left : Expression) (op : BinaryOperator)
    {l r : Tree BinaryOperator Expression} (hLeaves : Leaves l) (hAmends : Amends p op) :
    amendLeft left op (toExpression (.node p l r)) =
      toExpression (OperatorTree.Tree.insert Amends left op (.node p l r)) := by
  induction l generalizing p r with
  | leaf e =>
    rw [Tree.insert_node, if_pos hAmends]
    exact amendLeft_of_isLeaf hLeaves
  | node q l m ih _ =>
    rw [Tree.insert_node, if_pos hAmends, toExpression_node, toExpression_node, amendLeft]
    by_cases hq : Amends q op
    · have hShould : shouldBinaryExpressionBeAmended false q op = true := hq
      rw [if_pos hShould]
      have hInner := ih (p := q) (r := m) hLeaves.1 hq
      rw [toExpression_node] at hInner
      rw [hInner]
      rfl
    · have hShould : ¬ shouldBinaryExpressionBeAmended false q op = true := hq
      rw [if_neg hShould, Tree.insert_node, if_neg hq]
      rfl

/-- What `ParseBinaryExpression` rejects: `op` before a tree with the root `p`. -/
def Mixes (op p : BinaryOperator) : Prop :=
  if Amends p op then (op = .logicalOr ∨ op = .logicalAnd) ∧ p = .nullishCoalescing
  else op = .nullishCoalescing ∧ p.isLogical

instance : DecidableRel Mixes := fun op p => by unfold Mixes; infer_instance

theorem attachLeft_toExpression (left : Expression) (op : BinaryOperator)
    {t : Tree BinaryOperator Expression} (hLeaves : Leaves t) :
    ((∃ p ∈ t.root?, Mixes op p) ∧ ∃ m, attachLeft left op (toExpression t) = throwSyntaxError m) ∨
      (¬ (∃ p ∈ t.root?, Mixes op p) ∧
        attachLeft left op (toExpression t) = .ok (toExpression (t.insert Amends left op))) := by
  cases t with
  | leaf e =>
    refine .inr ⟨by simp, ?_⟩
    cases e with
    | binary g q l m =>
      obtain rfl : g = true := hLeaves
      simp [attachLeft, shouldBinaryExpressionBeAmended_true]
    | _ => rfl
  | node p l r =>
    have hAttach := amendLeft_toExpression left op (p := p) (r := r) hLeaves.1
    simp only [Tree.root?_node, Option.mem_some_iff, exists_eq_left', Mixes]
    simp only [toExpression_node, attachLeft] at hAttach ⊢
    by_cases hAmends : Amends p op
    · have hShould : shouldBinaryExpressionBeAmended false p op = true := hAmends
      rw [if_pos hAmends, if_pos hShould]
      by_cases hMix : (op = .logicalOr ∨ op = .logicalAnd) ∧ p = .nullishCoalescing
      · exact .inl ⟨hMix, _, if_pos hMix⟩
      · refine .inr ⟨hMix, ?_⟩
        rw [if_neg hMix, hAttach hAmends]
    · have hShould : ¬ shouldBinaryExpressionBeAmended false p op = true := hAmends
      rw [if_neg hAmends, if_neg hShould]
      by_cases hMix : op = .nullishCoalescing ∧ p.isLogical
      · exact .inl ⟨hMix, _, if_pos ⟨hMix.1, hMix.2, by simp⟩⟩
      · refine .inr ⟨hMix, ?_⟩
        rw [if_neg fun h => hMix ⟨h.1, h.2.1⟩, Tree.insert_node, if_neg hAmends]
        rfl

/-! ### What the grammar derives -/

abbrev Word := List (BinaryOperator × Expression)

/-- The operators of a word do not mix `??` with `||` or `&&`. -/
def Unmixed (ops : List BinaryOperator) : Prop :=
  .nullishCoalescing ∈ ops → .logicalOr ∉ ops ∧ .logicalAnd ∉ ops

/-- No operand before a `**` is a unary expression. -/
def PowersOfUpdates (first : Expression) : Word → Prop
  | [] => True
  | (op, second) :: word =>
    (op = .exponentiation → first.isUnaryOnly = false) ∧ PowersOfUpdates second word

theorem powersOfUpdates_append {first second : Expression} {op : BinaryOperator}
    {word after : Word} :
    PowersOfUpdates first (word ++ (op, second) :: after) →
      PowersOfUpdates first word ∧ PowersOfUpdates second after := by
  induction word generalizing first with
  | nil => exact fun h => ⟨trivial, h.2⟩
  | cons entry word ih => exact fun h => ⟨⟨h.1, (ih h.2).1⟩, (ih h.2).2⟩

theorem PowersOfUpdates.append {first second : Expression} {op : BinaryOperator}
    {word after : Word} (h : PowersOfUpdates first word) (h' : PowersOfUpdates second after)
    (hOp : op ≠ .exponentiation) : PowersOfUpdates first (word ++ (op, second) :: after) := by
  induction word generalizing first with
  | nil => exact ⟨fun h => absurd h hOp, h'⟩
  | cons entry word ih => exact ⟨h.1, ih h.2⟩

namespace Nonterminal

/-- The operators that a nonterminal derives outside parentheses. -/
def Admits (n : Nonterminal) (op : BinaryOperator) : Prop :=
  n.level ≤ op.level ∧ (n.level = 1 → op ≠ .logicalOr ∧ op ≠ .logicalAnd)

/-- `n` derives what `m` derives. -/
def Covers (n m : Nonterminal) : Prop :=
  n.level ≤ m.level ∧ (n.level = 1 → m.level = 1 ∨ 4 ≤ m.level)

instance : DecidableRel Covers := fun n m =>
  inferInstanceAs (Decidable (n.level ≤ m.level ∧ (n.level = 1 → m.level = 1 ∨ 4 ≤ m.level)))

theorem covers_of_chains {n m : Nonterminal} (h : n.chains m) : n.Covers m := by
  revert h
  cases n <;> cases m <;> decide

theorem Admits.of_covers {n m : Nonterminal} {op : BinaryOperator} (hCovers : n.Covers m)
    (h : m.Admits op) : n.Admits op := by
  obtain ⟨hLevel, hLow⟩ := hCovers
  refine ⟨Nat.le_trans hLevel h.1, fun hOne => ?_⟩
  obtain hm | hm := hLow hOne
  · exact h.2 hm
  · have hOp := h.1
    constructor
    · rintro rfl
      have : BinaryOperator.logicalOr.level = 2 := rfl
      omega
    · rintro rfl
      have : BinaryOperator.logicalAnd.level = 3 := rfl
      omega

end Nonterminal

/-- What a nonterminal derives. -/
structure DerivedTree (n : Nonterminal) (first : Expression) (word : Word) (e : Expression)
    (t : Tree BinaryOperator Expression) : Prop where
  first_eq : t.first = first
  rest_eq : t.rest = word
  eq : e = toExpression t
  respects : t.Respects Binds
  admits : ∀ entry ∈ word, n.Admits entry.1
  unmixed : Unmixed (word.map Prod.fst)
  powers : PowersOfUpdates first word
  update : n = .update → first.isUnaryOnly = false

namespace DerivedTree

variable {n : Nonterminal} {first e : Expression} {word : Word}
  {t : Tree BinaryOperator Expression}

theorem level_root (h : DerivedTree n first word e t) {p : BinaryOperator} (hp : p ∈ t.root?) :
    n.level ≤ p.level := by
  cases t with
  | leaf a => simp at hp
  | node q left right =>
    obtain rfl : q = p := by simpa using hp
    have hMem : (q, right.first) ∈ word := by
      rw [← h.rest_eq]
      simp
    exact (h.admits _ hMem).1

/-- The left operand of `**` is no tree of operators. -/
theorem eq_leaf (h : DerivedTree .update first word e t) : word = [] ∧ t = .leaf first := by
  cases t with
  | leaf a =>
    obtain rfl : a = first := h.first_eq
    exact ⟨h.rest_eq.symm, rfl⟩
  | node q left right =>
    have hLevel : 14 ≤ q.level := h.level_root rfl
    have := q.level_le
    omega

end DerivedTree

theorem BinaryOperator.level_left (op : BinaryOperator) :
    op.level ≤ op.production.left.level ∧
      (op = .exponentiation → op.production.left = .update) := by
  cases op <;> decide

theorem BinaryOperator.level_right (op : BinaryOperator) :
    op.level ≤ op.production.right.level ∧
      (op ≠ .exponentiation → op.level < op.production.right.level) := by
  cases op <;> decide

theorem BinaryOperator.covers (op : BinaryOperator) :
    op.production.head.Covers op.production.left ∧
      op.production.head.Covers op.production.right := by
  cases op <;> decide

theorem BinaryOperator.admits_self (op : BinaryOperator) : op.production.head.Admits op := by
  cases op <;> simp [Nonterminal.Admits, level, production, Nonterminal.level]

theorem Derives.exists_tree {n : Nonterminal} {first e : Expression} {word : Word}
    (h : Derives n first word e) : ∃ t, DerivedTree n first word e t := by
  induction h with
  | update h =>
    exact ⟨.leaf _, rfl, rfl, rfl, trivial, by simp, by simp [Unmixed], trivial, fun _ => h⟩
  | unary h =>
    exact ⟨.leaf _, rfl, rfl, rfl, trivial, by simp, by simp [Unmixed], trivial, nofun⟩
  | chain hChain _ ih =>
    obtain ⟨t, ht⟩ := ih
    refine ⟨t, ht.first_eq, ht.rest_eq, ht.eq, ht.respects, fun entry hEntry =>
      (ht.admits entry hEntry).of_covers (Nonterminal.covers_of_chains hChain), ht.unmixed, ht.powers, ?_⟩
    rintro rfl
    cases hChain
  | @binary op first second left right before after _ _ ihLeft ihRight =>
    obtain ⟨l, hl⟩ := ihLeft
    obtain ⟨r, hr⟩ := ihRight
    have hAdmits : ∀ entry ∈ before ++ (op, second) :: after,
        op.production.head.Admits entry.1 := by
      simp only [List.forall_mem_append, List.forall_mem_cons]
      exact ⟨fun entry h => (hl.admits entry h).of_covers op.covers.1, op.admits_self,
        fun entry h => (hr.admits entry h).of_covers op.covers.2⟩
    refine ⟨.node op l r, hl.first_eq, by simp [hl.rest_eq, hr.rest_eq, hr.first_eq],
      by simp [hl.eq, hr.eq], ⟨hl.respects, hr.respects, ?_, ?_⟩, hAdmits, ?_, ?_, ?_⟩
    · intro p hp
      have hLevel := Nat.le_trans op.level_left.1 (hl.level_root hp)
      refine ⟨hLevel, ?_⟩
      rintro ⟨rfl, rfl⟩
      have : 14 ≤ BinaryOperator.exponentiation.level := hl.level_root hp
      have := BinaryOperator.exponentiation.level_le
      omega
    · rintro q hq ⟨hLevel, hNot⟩
      have hRight := hr.level_root hq
      by_cases hOp : op = .exponentiation
      · subst hOp
        have hq' : q.level = 12 := Nat.le_antisymm q.level_le hRight
        exact hNot ⟨BinaryOperator.level_eq_twelve.mp hq', rfl⟩
      · have := op.level_right.2 hOp
        omega
    · -- a production for `??` admits neither of the others, and any other one no `??`
      intro hNullish
      obtain ⟨entry, hEntry, hFst⟩ := List.mem_map.mp hNullish
      have hOne : op.production.head.level ≤ 1 := by
        have h := (hAdmits entry hEntry).1
        rw [hFst] at h
        exact h
      have hPos : op.production.head.level = 1 := Nat.le_antisymm hOne op.level_pos
      constructor <;> intro hMem <;> obtain ⟨entry, hEntry, hFst⟩ := List.mem_map.mp hMem
      · exact ((hAdmits entry hEntry).2 hPos).1 hFst
      · exact ((hAdmits entry hEntry).2 hPos).2 hFst
    · by_cases hOp : op = .exponentiation
      · subst hOp
        obtain ⟨rfl, -⟩ := DerivedTree.eq_leaf hl
        exact ⟨fun _ => hl.update rfl, hr.powers⟩
      · exact hl.powers.append hr.powers hOp
    · intro hUpdate
      have := op.level_le
      rw [BinaryOperator.level, hUpdate] at this
      simp [Nonterminal.level] at this

/-! ### What the grammar derives from a tree -/

namespace Nonterminal

/-- The nonterminals on the way from `logicalOr` down. -/
def below : ℕ → Nonterminal
  | 2 => logicalOr
  | 3 => logicalAnd
  | 4 => bitwiseOr
  | 5 => bitwiseXor
  | 6 => bitwiseAnd
  | 7 => equality
  | 8 => relational
  | 9 => shift
  | 10 => additive
  | 11 => multiplicative
  | 12 => exponentiation
  | 13 => unary
  | _ => update

theorem below_level {n : Nonterminal} (h : 2 ≤ n.level) : below n.level = n := by
  cases n <;> first | rfl | exact absurd h (by decide)

theorem exists_chains {n : Nonterminal} (h : 2 ≤ n.level) (hUpdate : n.level < 14) :
    n.chains (below (n.level + 1)) ∧ (below (n.level + 1)).level = n.level + 1 := by
  cases n <;> first | exact ⟨rfl, rfl⟩ | exact absurd h (by decide) | exact absurd hUpdate (by decide)

theorem level_le (n : Nonterminal) : n.level ≤ 14 := by cases n <;> decide

/-- There are productions from `n` down to `m`. -/
def Reaches (n m : Nonterminal) : Prop :=
  2 ≤ n.level ∧ n.level ≤ m.level ∨
    n = coalesceHead ∧ (m = coalesce ∨ 4 ≤ m.level) ∨
      n = shortCircuit ∧ (m = coalesce ∨ 2 ≤ m.level)

end Nonterminal

section

variable {n m : Nonterminal} {first e : Expression} {word : Word} (h : Derives m first word e)
include h

theorem Derives.lift_below (hLow : 2 ≤ n.level) (hLevel : n.level ≤ m.level) :
    Derives n first word e := by
  obtain ⟨d, hd⟩ := Nat.exists_eq_add_of_le hLevel
  induction d generalizing n with
  | zero =>
    obtain rfl : n = m := by
      rw [← Nonterminal.below_level hLow, ← Nonterminal.below_level (n := m) (by omega), hd,
        Nat.add_zero]
    exact h
  | succ d ih =>
    have := m.level_le
    obtain ⟨hChain, hNext⟩ := Nonterminal.exists_chains hLow (by omega)
    exact .chain hChain (ih (by omega) (by omega) (by omega))

theorem Derives.lift (hReaches : n.Reaches m) : Derives n first word e := by
  obtain ⟨hLow, hLevel⟩ | ⟨rfl, rfl | hLevel⟩ | ⟨rfl, rfl | hLevel⟩ := hReaches
  · exact h.lift_below hLow hLevel
  · exact .chain rfl h
  · exact .chain (m := .bitwiseOr) rfl (h.lift_below (by decide) hLevel)
  · exact .chain rfl h
  · exact .chain (m := .logicalOr) rfl (h.lift_below (by decide) hLevel)

end

theorem Unmixed.mono {ops ops' : List BinaryOperator} (h : Unmixed ops) (hSub : ops' ⊆ ops) :
    Unmixed ops' := fun hNullish =>
  ⟨fun hOr => (h (hSub hNullish)).1 (hSub hOr), fun hAnd => (h (hSub hNullish)).2 (hSub hAnd)⟩

/-- The operators of a tree. -/
def operators (t : Tree BinaryOperator Expression) : List BinaryOperator :=
  t.rest.map Prod.fst

@[simp] theorem operators_node (op : BinaryOperator) (l r : Tree BinaryOperator Expression) :
    operators (.node op l r) = operators l ++ op :: operators r := by
  simp [operators]

theorem mem_operators_of_root {t : Tree BinaryOperator Expression} (h : p ∈ t.root?) :
    p ∈ operators t := by
  cases t with
  | leaf e => simp at h
  | node q l r => simp_all

/-- The nonterminal of the root of a tree. -/
def nonterminal : Tree BinaryOperator Expression → Nonterminal
  | .leaf e => if e.isUnaryOnly then .unary else .update
  | .node op _ _ => op.production.head

theorem nonterminal_unary {e : Expression} (h : e.isUnaryOnly) :
    nonterminal (.leaf e) = .unary := if_pos h

theorem nonterminal_update {e : Expression} (h : ¬ e.isUnaryOnly) :
    nonterminal (.leaf e) = .update := if_neg h

theorem nonterminal_cases (t : Tree BinaryOperator Expression) :
    (∃ e, t = .leaf e ∧ 13 ≤ (nonterminal t).level) ∨
      ∃ p ∈ t.root?, nonterminal t = p.production.head := by
  cases t with
  | leaf e =>
    refine .inl ⟨e, rfl, ?_⟩
    by_cases h : e.isUnaryOnly
    · rw [nonterminal_unary h]
      decide
    · rw [nonterminal_update h]
      decide
  | node op l r => exact .inr ⟨op, rfl, rfl⟩

namespace BinaryOperator

variable {ops : List BinaryOperator} {op : BinaryOperator}

/-- Beside `??`, an operator that is not mixed with it is `??` or below all three. -/
theorem level_of_unmixed {p : BinaryOperator} (h : Unmixed ops) (hNullish : nullishCoalescing ∈ ops)
    (hp : p ∈ ops) : p = nullishCoalescing ∨ 4 ≤ p.level := by
  obtain ⟨hOr, hAnd⟩ := h hNullish
  have hPos := p.level_pos
  have h1 : p.level = 1 → p = nullishCoalescing := level_eq_one.mp
  have h2 : p.level ≠ 2 := fun h => hOr (level_eq_two.mp h ▸ hp)
  have h3 : p.level ≠ 3 := fun h => hAnd (level_eq_three.mp h ▸ hp)
  by_cases hOne : p.level = 1
  · exact .inl (h1 hOne)
  · exact .inr (by omega)

theorem production_left_of_ne (h : op ≠ nullishCoalescing) (h' : op ≠ exponentiation) :
    2 ≤ op.production.left.level ∧ op.production.left.level = op.level := by
  revert h h'
  cases op <;> decide

theorem production_right_of_ne (h : op ≠ nullishCoalescing) :
    2 ≤ op.production.right.level ∧ op.production.right.level ≤ op.level + 1 ∧
      op.production.right.level ≤ 12 := by
  revert h
  cases op <;> decide

theorem reaches_left {l : Tree BinaryOperator Expression} (hUnmixed : Unmixed ops) (hOp : op ∈ ops)
    (hOps : operators l ⊆ ops) (hBinds : ∀ p ∈ l.root?, Binds op p)
    (hUpdate : op = exponentiation → l.first.isUnaryOnly = false) :
    op.production.left.Reaches (nonterminal l) := by
  obtain ⟨e, rfl, hLevel⟩ | ⟨p, hp, hNonterminal⟩ := nonterminal_cases l
  · by_cases hExp : op = exponentiation
    · have hUpdate := hUpdate hExp
      subst hExp
      rw [Tree.first_leaf] at hUpdate
      simp [nonterminal, hUpdate, Nonterminal.Reaches, production, Nonterminal.level]
    · by_cases hNullish : op = nullishCoalescing
      · subst hNullish
        exact .inr (.inl ⟨rfl, .inr (by omega)⟩)
      · obtain ⟨hLow, hLeft⟩ := production_left_of_ne hNullish hExp
        have := op.level_le
        exact .inl ⟨hLow, by omega⟩
  · obtain ⟨hLevel, hNot⟩ := hBinds p hp
    rw [hNonterminal]
    by_cases hNullish : op = nullishCoalescing
    · subst hNullish
      refine .inr (.inl ⟨rfl, ?_⟩)
      obtain rfl | h4 := level_of_unmixed hUnmixed hOp (hOps (mem_operators_of_root hp))
      · exact .inl rfl
      · exact .inr h4
    · by_cases hExp : op = exponentiation
      · subst hExp
        have hp12 : p.level = 12 := Nat.le_antisymm p.level_le hLevel
        exact absurd ⟨rfl, level_eq_twelve.mp hp12⟩ hNot
      · obtain ⟨hLow, hLeft⟩ := production_left_of_ne hNullish hExp
        exact .inl ⟨hLow, hLeft ▸ hLevel⟩

theorem reaches_right {r : Tree BinaryOperator Expression} (hUnmixed : Unmixed ops) (hOp : op ∈ ops)
    (hOps : operators r ⊆ ops) (hBinds : ∀ q ∈ r.root?, ¬ Binds q op) :
    op.production.right.Reaches (nonterminal r) := by
  obtain ⟨e, rfl, hLevel⟩ | ⟨q, hq, hNonterminal⟩ := nonterminal_cases r
  · by_cases hNullish : op = nullishCoalescing
    · subst hNullish
      exact .inl ⟨by decide, Nat.le_trans (by decide) hLevel⟩
    · obtain ⟨hLow, -, hHigh⟩ := production_right_of_ne hNullish
      exact .inl ⟨hLow, by omega⟩
  · have hNot := hBinds q hq
    rw [hNonterminal]
    by_cases hNullish : op = nullishCoalescing
    · subst hNullish
      obtain rfl | h4 := level_of_unmixed hUnmixed hOp (hOps (mem_operators_of_root hq))
      · exact absurd ⟨Nat.le_refl _, by simp⟩ hNot
      · exact .inl ⟨by decide, h4⟩
    · obtain ⟨hLow, hRight, hHigh⟩ := production_right_of_ne hNullish
      refine .inl ⟨hLow, ?_⟩
      change _ ≤ q.level
      by_cases hBoth : q = exponentiation ∧ op = exponentiation
      · obtain ⟨rfl, rfl⟩ := hBoth
        decide
      · have : ¬ q.level ≤ op.level := fun h => hNot ⟨h, hBoth⟩
        omega

end BinaryOperator

theorem derives_toExpression {t : Tree BinaryOperator Expression} (hRespects : t.Respects Binds)
    (hUnmixed : Unmixed (operators t)) (hPowers : PowersOfUpdates t.first t.rest) :
    Derives (nonterminal t) t.first t.rest (toExpression t) := by
  induction t with
  | leaf e =>
    by_cases h : e.isUnaryOnly
    · rw [nonterminal_unary h]
      exact .unary h
    · rw [nonterminal_update h]
      exact .update (by simpa using h)
  | node op l r ihLeft ihRight =>
    obtain ⟨hLeft, hRight, hOver, hUnder⟩ := hRespects
    have hSubLeft : operators l ⊆ operators (.node op l r) := by simp
    have hSubRight : operators r ⊆ operators (.node op l r) := by
      simp only [operators_node]
      exact fun q hq => List.mem_append_right _ (List.mem_cons_of_mem _ hq)
    have hOp : op ∈ operators (.node op l r) := by simp
    obtain ⟨hPowersLeft, hPowersRight⟩ := powersOfUpdates_append hPowers
    have hUpdate : op = .exponentiation → l.first.isUnaryOnly = false := by
      intro hExp
      cases l with
      | leaf e => exact hPowers.1 hExp
      | node p l' r' =>
        -- an operator on the left of `**` would have to be below it
        obtain ⟨hLevel, hNot⟩ := hOver p rfl
        subst hExp
        have hp : p.level = 12 := Nat.le_antisymm p.level_le hLevel
        exact absurd ⟨rfl, BinaryOperator.level_eq_twelve.mp hp⟩ hNot
    exact .binary
      ((ihLeft hLeft (hUnmixed.mono hSubLeft) hPowersLeft).lift
        (BinaryOperator.reaches_left hUnmixed hOp hSubLeft hOver hUpdate))
      ((ihRight hRight (hUnmixed.mono hSubRight) hPowersRight).lift
        (BinaryOperator.reaches_right hUnmixed hOp hSubRight hUnder))

theorem shortCircuit_reaches (t : Tree BinaryOperator Expression) :
    Nonterminal.shortCircuit.Reaches (nonterminal t) := by
  refine .inr (.inr ⟨rfl, ?_⟩)
  obtain ⟨e, rfl, hLevel⟩ | ⟨p, hp, hNonterminal⟩ := nonterminal_cases t
  · exact .inr (by omega)
  · rw [hNonterminal]
    by_cases hNullish : p = .nullishCoalescing
    · subst hNullish
      exact .inl rfl
    · refine .inr ?_
      have hPos := p.level_pos
      have hNe : p.level ≠ 1 := fun h => hNullish (BinaryOperator.level_eq_one.mp h)
      change 2 ≤ p.level
      omega

/-- The grammar derives the tree that its own precedence builds, when the word is not mixed and
has no power of a unary expression. -/
theorem derives_shortCircuit_iff (first e : Expression) (word : Word) :
    Derives .shortCircuit first word e ↔
      Unmixed (word.map Prod.fst) ∧ PowersOfUpdates first word ∧
        e = toExpression (build Binds first word) := by
  constructor
  · intro h
    obtain ⟨t, ht⟩ := h.exists_tree
    refine ⟨ht.unmixed, ht.powers, ?_⟩
    rw [ht.eq, ht.respects.eq_build proper_binds, ht.first_eq, ht.rest_eq]
  · rintro ⟨hUnmixed, hPowers, rfl⟩
    have h := derives_toExpression (t := build Binds first word) (respects_build Binds first word)
      (by simpa [operators] using hUnmixed) (by simpa using hPowers)
    simpa using h.lift (shortCircuit_reaches _)

/-! ### Where the two precedences differ -/

/-- No `&&` stands before a `|` with nothing but operators below both between. -/
def NoAndBeforeOr : List BinaryOperator → Prop
  | [] => True
  | op :: ops =>
    (op = .logicalAnd → .bitwiseOr ∉ ops.takeWhile fun q => !q.isLogical) ∧ NoAndBeforeOr ops

theorem level_root_le {t : Tree BinaryOperator Expression} (h : t.Respects Binds)
    {q : BinaryOperator} (hp : p ∈ t.root?) (hq : q ∈ operators t) : p.level ≤ q.level := by
  induction t generalizing p q with
  | leaf e => simp at hp
  | node op l r ihLeft ihRight =>
    obtain ⟨hLeft, hRight, hOver, hUnder⟩ := h
    obtain rfl : op = p := by simpa using hp
    rw [operators_node, List.mem_append, List.mem_cons] at hq
    obtain hq | rfl | hq := hq
    · cases l with
      | leaf e => simp [operators] at hq
      | node s l' r' => exact Nat.le_trans (hOver s rfl).1 (ihLeft hLeft rfl hq)
    · exact Nat.le_refl _
    · cases r with
      | leaf e => simp [operators] at hq
      | node s l' r' =>
        have hRoot := hUnder s rfl
        refine Nat.le_trans ?_ (ihRight hRight rfl hq)
        by_contra hLevel
        have hExp : s ≠ .exponentiation ∨ op ≠ .exponentiation := by
          by_contra hBoth
          rw [not_or, not_not, not_not] at hBoth
          obtain ⟨rfl, rfl⟩ := hBoth
          exact hLevel (Nat.le_refl _)
        exact hRoot ⟨by omega, fun hBoth => hExp.elim (· hBoth.1) (· hBoth.2)⟩

theorem takeWhile_append_cons {α : Type} (f : α → Bool) (l : List α) {a : α} (r : List α)
    (h : f a = false) : (l ++ a :: r).takeWhile f = l.takeWhile f := by
  induction l with
  | nil => simp [h]
  | cons b l ih => simp [List.takeWhile_cons, ih]

theorem insert_logicalAnd_eq_iff {t : Tree BinaryOperator Expression} (h : t.Respects Binds)
    (left : Expression) :
    t.insert Amends left .logicalAnd = t.insert Binds left .logicalAnd ↔
      .bitwiseOr ∉ (operators t).takeWhile fun q => !q.isLogical := by
  induction t with
  | leaf e => simp [operators]
  | node p l r ihLeft _ =>
    have hRoot : ∀ q ∈ operators (.node p l r), p.level ≤ q.level := fun q hq =>
      level_root_le h rfl hq
    simp only [Tree.insert_node]
    by_cases hLogical : p.isLogical
    · have hBinds : Binds p .logicalAnd := ⟨BinaryOperator.isLogical_iff.mp hLogical, by simp⟩
      have hAmends : Amends p .logicalAnd := (amends_iff _ _).mpr (.inl hBinds)
      rw [if_pos hAmends, if_pos hBinds, operators_node,
        takeWhile_append_cons _ _ _ (by simp [hLogical]), ← ihLeft h.1]
      simp
    · have hLevel : 4 ≤ p.level := by
        rw [BinaryOperator.isLogical_iff] at hLogical
        omega
      have hBinds : ¬ Binds p .logicalAnd := by
        rintro ⟨hLow, -⟩
        have : p.level ≤ 3 := hLow
        omega
      have hBelow : ∀ q ∈ operators (.node p l r), (!q.isLogical) = true := by
        intro q hq
        have := hRoot q hq
        have hq : ¬ q.isLogical := by
          rw [BinaryOperator.isLogical_iff]
          omega
        simpa using hq
      have hTake : (operators (.node p l r)).takeWhile (fun q => !q.isLogical) =
          operators (.node p l r) := by
        have hAppend : (operators (.node p l r) ++ []).takeWhile (fun q => !q.isLogical) =
            operators (.node p l r) ++ [].takeWhile (fun q => !q.isLogical) :=
          List.takeWhile_append_of_pos hBelow
        simpa using hAppend
      rw [if_neg hBinds, hTake]
      by_cases hp : p = .bitwiseOr
      · have hAmends : Amends p .logicalAnd := (amends_iff _ _).mpr (.inr ⟨hp, rfl⟩)
        rw [if_pos hAmends]
        subst hp
        simp
      · have hAmends : ¬ Amends p .logicalAnd := by
          rw [amends_iff]
          exact fun h => h.elim hBinds fun h => hp h.1
        have hNot : .bitwiseOr ∉ operators (.node p l r) := by
          intro hMem
          have hHigh : p.level ≤ 4 := hRoot _ hMem
          exact hp (BinaryOperator.level_eq_four.mp (by omega))
        rw [if_neg hAmends]
        exact iff_of_true rfl hNot

theorem insert_eq_insert_iff {t : Tree BinaryOperator Expression} (h : t.Respects Binds)
    (left : Expression) (op : BinaryOperator) :
    t.insert Amends left op = t.insert Binds left op ↔
      (op = .logicalAnd → .bitwiseOr ∉ (operators t).takeWhile fun q => !q.isLogical) := by
  by_cases hOp : op = .logicalAnd
  · subst hOp
    simp [insert_logicalAnd_eq_iff h]
  · have hSame : ∀ p, Amends p op ↔ Binds p op := by
      intro p
      rw [amends_iff]
      simp [hOp]
    simp [Tree.insert_congr Amends hSame, hOp]

/-- The parser's precedence and the grammar's build one tree iff no `&&` stands before a `|`. -/
theorem build_eq_build_iff (first : Expression) (word : Word) :
    build Amends first word = build Binds first word ↔ NoAndBeforeOr (word.map Prod.fst) := by
  induction word generalizing first with
  | nil => simp [NoAndBeforeOr]
  | cons entry word ih =>
    obtain ⟨op, second⟩ := entry
    rw [build_cons_eq_iff, ih, insert_eq_insert_iff (respects_build Binds second word)]
    simp only [operators, rest_build, List.map_cons, NoAndBeforeOr, and_comm]

/-! ### What the parser rejects -/

/-- There is an `&&` with no `|` behind it. -/
def EndsWithAnd : List BinaryOperator → Prop
  | [] => False
  | op :: ops => EndsWithAnd ops ∨ op = .logicalAnd ∧ .bitwiseOr ∉ ops

/-- The operators behind `op` that make the parser reject. -/
def MixSeen (op : BinaryOperator) (ops : List BinaryOperator) : Prop :=
  (op = .logicalOr ∨ op = .logicalAnd) ∧ .nullishCoalescing ∈ ops ∨
    op = .nullishCoalescing ∧ .nullishCoalescing ∉ ops ∧ (.logicalOr ∈ ops ∨ EndsWithAnd ops)

theorem EndsWithAnd.mem {ops : List BinaryOperator} (h : EndsWithAnd ops) : .logicalAnd ∈ ops := by
  induction ops with
  | nil => exact h.elim
  | cons op ops ih =>
    obtain h | ⟨rfl, -⟩ := h
    · exact List.mem_cons_of_mem _ (ih h)
    · exact List.mem_cons_self

variable {after before : List BinaryOperator}

theorem EndsWithAnd.of_append (h : EndsWithAnd (before ++ .bitwiseOr :: after)) :
    EndsWithAnd after := by
  induction before with
  | nil =>
    obtain h | ⟨h, -⟩ := h
    · exact h
    · cases h
  | cons op before ih =>
    obtain h | ⟨-, h⟩ := h
    · exact ih h
    · simp at h

theorem endsWithAnd_append (h : .bitwiseOr ∉ after) :
    EndsWithAnd (before ++ .logicalAnd :: after) := by
  induction before with
  | nil => exact .inr ⟨rfl, h⟩
  | cons op before ih => exact .inl ih

/-- The root of the parser's tree of a word: the last of the operators with the lowest
precedence. -/
theorem exists_root_of_build {first : Expression} {word : Word}
    (hp : p ∈ (build Amends first word).root?) :
    ∃ before after, word.map Prod.fst = before ++ p :: after ∧
      (∀ q ∈ before, getOperatorPrecedence p ≤ getOperatorPrecedence q) ∧
      ∀ q ∈ after, getOperatorPrecedence p < getOperatorPrecedence q ∨
        p = .exponentiation ∧ q = .exponentiation := by
  induction word generalizing first p with
  | nil => simp at hp
  | cons entry word ih =>
    obtain ⟨op, second⟩ := entry
    rw [build_cons] at hp
    cases hTail : build Amends second word with
    | leaf e =>
      have hWord : word = [] := by
        rw [← rest_build Amends second word, hTail]
        rfl
      subst hWord
      rw [hTail] at hp
      obtain rfl : op = p := by simpa using hp
      exact ⟨[], [], rfl, by simp, by simp⟩
    | node q l r =>
      obtain ⟨before, after, hOps, hBefore, hAfter⟩ :=
        ih (show q ∈ (build Amends second word).root? by rw [hTail]; rfl)
      rw [hTail, Tree.insert_node] at hp
      by_cases hAmends : Amends q op
      · rw [if_pos hAmends] at hp
        obtain rfl : q = p := by simpa using hp
        have hLe : getOperatorPrecedence q ≤ getOperatorPrecedence op := by
          simp only [Amends, shouldBinaryExpressionBeAmended, Bool.and_eq_true,
            decide_eq_true_eq] at hAmends
          exact hAmends.1.1
        exact ⟨op :: before, after, by simp [hOps], by simpa using ⟨hLe, hBefore⟩, hAfter⟩
      · rw [if_neg hAmends] at hp
        obtain rfl : op = p := by simpa using hp
        refine ⟨[], word.map Prod.fst, rfl, by simp, fun s hs => ?_⟩
        have hLt : getOperatorPrecedence op < getOperatorPrecedence q ∨
            op = .exponentiation ∧ q = .exponentiation := by
          simp only [Amends, shouldBinaryExpressionBeAmended, Bool.and_eq_true,
            decide_eq_true_eq, Bool.not_false, and_true, Bool.or_eq_true, bne_iff_ne] at hAmends
          grind
        rw [hOps, List.mem_append, List.mem_cons] at hs
        obtain hLt | ⟨rfl, rfl⟩ := hLt
        · obtain hs | rfl | hs := hs
          · exact .inl (Nat.lt_of_lt_of_le hLt (hBefore s hs))
          · exact .inl hLt
          · obtain hLower | ⟨rfl, rfl⟩ := hAfter s hs
            · exact .inl (Nat.lt_trans hLt hLower)
            · exact .inl hLt
        · -- the highest precedence is that of `**` alone
          refine .inr ⟨rfl, BinaryOperator.eq_exponentiation ?_⟩
          obtain hs | rfl | hs := hs
          · exact hBefore s hs
          · exact Nat.le_refl _
          · obtain hLower | ⟨-, rfl⟩ := hAfter s hs
            · exact Nat.le_of_lt hLower
            · exact Nat.le_refl _

theorem precedence_le {ops : List BinaryOperator} {q : BinaryOperator}
    (hOps : ops = before ++ p :: after)
    (hBefore : ∀ q ∈ before, getOperatorPrecedence p ≤ getOperatorPrecedence q)
    (hAfter : ∀ q ∈ after, getOperatorPrecedence p < getOperatorPrecedence q ∨
      p = .exponentiation ∧ q = .exponentiation) (hq : q ∈ ops) :
    getOperatorPrecedence p ≤ getOperatorPrecedence q := by
  rw [hOps, List.mem_append, List.mem_cons] at hq
  obtain hq | rfl | hq := hq
  · exact hBefore q hq
  · exact Nat.le_refl _
  · obtain h | ⟨rfl, rfl⟩ := hAfter q hq
    · exact Nat.le_of_lt h
    · exact Nat.le_refl _

/-- What the parser sees of the operators behind `op` is the root of their tree. -/
theorem mixes_iff (op : BinaryOperator) (first : Expression) (word : Word) :
    (∃ p ∈ (build Amends first word).root?, Mixes op p) ↔ MixSeen op (word.map Prod.fst) := by
  constructor
  · rintro ⟨p, hp, hMixes⟩
    obtain ⟨before, after, hOps, hBefore, hAfter⟩ := exists_root_of_build hp
    have hMem : p ∈ word.map Prod.fst := by simp [hOps]
    have hLe : ∀ q ∈ word.map Prod.fst, getOperatorPrecedence p ≤ getOperatorPrecedence q :=
      fun q hq => precedence_le hOps hBefore hAfter hq
    unfold Mixes at hMixes
    split at hMixes
    case isTrue => exact .inl ⟨hMixes.1, hMixes.2 ▸ hMem⟩
    case isFalse hAmends =>
      obtain ⟨rfl, hLogical⟩ := hMixes
      have hNe : p ≠ .nullishCoalescing := by
        rintro rfl
        exact hAmends rfl
      refine .inr ⟨rfl, fun hNullish => hNe ?_, ?_⟩
      · exact BinaryOperator.eq_nullishCoalescing (hLe _ hNullish)
      · obtain rfl | rfl | rfl := BinaryOperator.isLogical_cases hLogical
        · exact absurd rfl hNe
        · exact .inl hMem
        · refine .inr ?_
          rw [hOps]
          refine endsWithAnd_append fun hOr => ?_
          obtain h | ⟨h, -⟩ := hAfter _ hOr
          · exact absurd h (by decide)
          · cases h
  · intro h
    have hNil : word ≠ [] := by
      rintro rfl
      simp [MixSeen, EndsWithAnd] at h
    obtain ⟨p, hp⟩ : ∃ p, p ∈ (build Amends first word).root? := by
      cases hTree : build Amends first word with
      | leaf e => exact absurd (by rw [← rest_build Amends first word, hTree]; rfl) hNil
      | node p l r => exact ⟨p, rfl⟩
    obtain ⟨before, after, hOps, hBefore, hAfter⟩ := exists_root_of_build hp
    have hMem : p ∈ word.map Prod.fst := by simp [hOps]
    have hLe : ∀ q ∈ word.map Prod.fst, getOperatorPrecedence p ≤ getOperatorPrecedence q :=
      fun q hq => precedence_le hOps hBefore hAfter hq
    refine ⟨p, hp, ?_⟩
    obtain ⟨hOp, hNullish⟩ | ⟨rfl, hNullish, hLogical⟩ := h
    · obtain rfl := BinaryOperator.eq_nullishCoalescing (hLe _ hNullish)
      have hAmends : Amends .nullishCoalescing op := by
        obtain rfl | rfl := hOp <;> rfl
      rw [Mixes, if_pos hAmends]
      exact ⟨hOp, rfl⟩
    · have hNe : p ≠ .nullishCoalescing := by
        rintro rfl
        exact hNullish hMem
      have hAmends : ¬ Amends p .nullishCoalescing := by
        intro h
        simp only [Amends, shouldBinaryExpressionBeAmended, Bool.and_eq_true,
          decide_eq_true_eq] at h
        exact hNe (BinaryOperator.eq_nullishCoalescing h.1.1)
      rw [Mixes, if_neg hAmends]
      refine ⟨rfl, ?_⟩
      have hLow : getOperatorPrecedence p ≤ 3 := by
        obtain hOr | hAnd := hLogical
        · exact Nat.le_trans (hLe _ hOr) (by decide)
        · exact hLe _ hAnd.mem
      obtain hLogical' | rfl := BinaryOperator.isLogical_or_eq hLow
      · exact hLogical'
      · -- below a `|` there is no `||`, and behind it no `&&`
        obtain hOr | hAnd := hLogical
        · exact absurd (hLe _ hOr) (by decide)
        · rw [hOps] at hAnd
          obtain h | ⟨h, -⟩ := hAfter _ hAnd.of_append.mem
          · exact absurd h (by decide)
          · cases h

end ArkTs2abc.Es2panda.Parser
