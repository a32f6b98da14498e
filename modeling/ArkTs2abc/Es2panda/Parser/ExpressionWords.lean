import ArkTs2abc.Es2panda.Parser.ExpressionTokens
import ArkTs2abc.Es2panda.Parser.ExpressionTrees

/-!
# The words of sequences

A sequence is an operand, a word of operators with their operands, and a tail, which is nothing or
the rest of a conditional expression. What the parser builds and what the grammar derives is put
together from the trees of the operands, the tree of the word and the tail.

## Main definitions

* `Sequence.Word`, `Sequence.Tail` — the operands and the tail, when each operand has a tree of its
  own.
* `wrap` — a tree and a tail.

## Main results

* `Sequence.parsed_view` — what the parser builds.
* `Rest.derives_iff` — what the grammar derives.
-/

namespace ArkTs2abc.Es2panda.Parser

open OperatorTree

/-- The consequent and the alternate of a conditional expression. -/
abbrev Tail := Option (Expression × Expression)

def wrap : Tail → Expression → Expression
  | none, t => t
  | some (consequent, alternate), t => .conditional false t consequent alternate

theorem wrap_injective {τ τ' : Tail} {t t' : Expression} (ht : t.IsTest) (ht' : t'.IsTest)
    (h : wrap τ t = wrap τ' t') : τ = τ' ∧ t = t' := by
  rcases τ with _ | ⟨c, a⟩ <;> rcases τ' with _ | ⟨c', a'⟩
  · exact ⟨rfl, h⟩
  · subst h
    cases ht
  · change Expression.conditional false t c a = t' at h
    subst h
    cases ht'
  · obtain ⟨-, rfl, rfl, rfl⟩ := Expression.conditional.inj h
    exact ⟨rfl, rfl⟩

/-! ### Operators -/

mutual

def Sequence.operators : Sequence → List BinaryOperator
  | .operand _ rest => rest.operators
  | _ => []

/-- The operators of a sequence outside parentheses, up to its tail. -/
def Rest.operators : Rest → List BinaryOperator
  | .binary op right => op :: right.operators
  | _ => []

end

/-! ### Words and tails -/

section

variable (D : Operand → Expression → Prop) (S : Sequence → Expression → Prop)

mutual

/-- The first operand and the word of a sequence, when `D` holds of an operand and its tree; `S`
holds of an assignment or an arrow function, which is its own first operand, and its tree. -/
def Sequence.Word : Sequence → Expression → Word → Prop
  | .operand first rest, x, word => D first x ∧ rest.Word word
  | s, x, word => S s x ∧ word = []

def Rest.Word : Rest → Parser.Word → Prop
  | .binary op right, word => ∃ x after, right.Word x after ∧ word = (op, x) :: after
  | _, word => word = []

end

mutual

/-- The tail of a sequence, when `S` holds of a sequence and its tree. -/
def Sequence.Tail : Sequence → Parser.Tail → Prop
  | .operand _ rest, τ => rest.Tail τ
  | _, τ => τ = none

def Rest.Tail : Rest → Parser.Tail → Prop
  | .done, τ => τ = none
  | .binary _ right, τ => right.Tail τ
  | .conditional consequent alternate, τ =>
    ∃ c a, S consequent c ∧ S alternate a ∧ τ = some (c, a)

end

end

section

variable {D : Operand → Expression → Prop} {S : Sequence → Expression → Prop}

mutual

theorem Sequence.Word.operators_eq {x : Expression} {word : Parser.Word} :
    ∀ {s : Sequence}, s.Word D S x word → word.map Prod.fst = s.operators
  | .operand _ _, h => Rest.Word.operators_eq h.2
  | .assignment .., h | .arrowFunction .., h | .blockFunction .., h => by
    rw [h.2]
    rfl

theorem Rest.Word.operators_eq {word : Parser.Word} :
    ∀ {r : Rest}, r.Word D S word → word.map Prod.fst = r.operators
  | .done, h | .conditional .., h => by
    obtain rfl : word = [] := h
    rfl
  | .binary op right, h => by
    obtain ⟨x, after, hRight, rfl⟩ := h
    rw [List.map_cons, hRight.operators_eq]
    rfl

end

mutual

theorem Sequence.Word.leaves (hD : ∀ o x, D o x → x.IsLeaf)
    (hS : ∀ s : Sequence, (∀ o r, s ≠ .operand o r) → ∀ x, S s x → x.IsLeaf) {x : Expression}
    {word : Parser.Word} : ∀ {s : Sequence}, s.Word D S x word →
      x.IsLeaf ∧ ∀ entry ∈ word, entry.2.IsLeaf
  | .operand first rest, h => ⟨hD _ _ h.1, Rest.Word.leaves hD hS h.2⟩
  | .assignment .., h | .arrowFunction .., h | .blockFunction .., h => by
    refine ⟨hS _ (by simp) _ h.1, ?_⟩
    simp [h.2]

theorem Rest.Word.leaves (hD : ∀ o x, D o x → x.IsLeaf)
    (hS : ∀ s : Sequence, (∀ o r, s ≠ .operand o r) → ∀ x, S s x → x.IsLeaf)
    {word : Parser.Word} : ∀ {r : Rest}, r.Word D S word → ∀ entry ∈ word, entry.2.IsLeaf
  | .done, h | .conditional .., h => by
    obtain rfl : word = [] := h
    simp
  | .binary op right, h => by
    obtain ⟨x, after, hRight, rfl⟩ := h
    simpa using hRight.leaves hD hS

end

end

/-! ### The parser -/

/-- The operand is parsed to the expression. -/
def Operand.ParsesTo (o : Operand) (e : Expression) : Prop :=
  o.parsed = .ok e

def Sequence.ParsesTo (s : Sequence) (e : Expression) : Prop :=
  s.parsed = .ok e

theorem bind_ok {α β : Type} {x : Parse α} {f : α → Parse β} {b : β} (h : x >>= f = .ok b) :
    ∃ a, x = .ok a ∧ f a = .ok b := by
  cases x with
  | error e => cases h
  | ok a => exact ⟨a, rfl, h⟩

@[simp] theorem isGrouped_parenthesize (x : Expression) (xs : Expressions) :
    (parenthesize x xs).isGrouped = true := by
  cases xs with
  | nil => cases x <;> rfl
  | cons y ys => rfl

theorem Expression.isLeaf_of_isGrouped {e : Expression} (h : e.isGrouped) : e.IsLeaf := by
  cases e <;> first | exact h | trivial

theorem Operand.ParsesTo.isLeaf {o : Operand} {e : Expression} (h : o.ParsesTo e) :
    e.IsLeaf := by
  unfold ParsesTo at h
  cases o with
  | identifier n | member n | operand n =>
    cases h
    trivial
  | unary op argument =>
    obtain ⟨x, -, h⟩ := bind_ok h
    split at h <;> cases h
    trivial
  | update op argument =>
    obtain ⟨x, -, h⟩ := bind_ok h
    split at h <;> cases h
    trivial
  | await argument =>
    obtain ⟨x, -, h⟩ := bind_ok h
    cases h
    trivial
  | parenthesized first others =>
    obtain ⟨x, -, h⟩ := bind_ok h
    obtain ⟨xs, -, h⟩ := bind_ok h
    cases h
    exact Expression.isLeaf_of_isGrouped (isGrouped_parenthesize x xs)

theorem Sequence.ParsesTo.isLeaf {s : Sequence} (hs : ∀ o r, s ≠ .operand o r) {e : Expression}
    (h : s.ParsesTo e) : e.IsLeaf := by
  unfold ParsesTo at h
  cases s with
  | operand first rest => exact absurd rfl (hs first rest)
  | assignment target op value =>
    obtain ⟨t, -, h⟩ := bind_ok h
    obtain ⟨u, -, h⟩ := bind_ok h
    obtain ⟨v, -, h⟩ := bind_ok h
    cases h
    trivial
  | arrowFunction n body =>
    obtain ⟨b, -, h⟩ := bind_ok h
    cases h
    trivial
  | blockFunction n block =>
    cases h
    trivial

theorem leaves_build (amend : BinaryOperator → BinaryOperator → Prop) [DecidableRel amend]
    {first : Expression} {word : Word} (hFirst : first.IsLeaf)
    (hWord : ∀ entry ∈ word, entry.2.IsLeaf) : Leaves (build amend first word) := by
  rw [leaves_iff, first_build, rest_build]
  exact ⟨hFirst, hWord⟩

theorem attachRight_wrap (left : Expression) (op : BinaryOperator)
    {t : Tree BinaryOperator Expression} (τ : Tail) (hLeaves : Leaves t) :
    ((∃ p ∈ t.root?, Mixes op p) ∧
        ∃ m, attachRight left op (wrap τ (toExpression t)) = throwSyntaxError m) ∨
      (¬ (∃ p ∈ t.root?, Mixes op p) ∧
        attachRight left op (wrap τ (toExpression t)) =
          .ok (wrap τ (toExpression (t.insert Amends left op)))) := by
  have hAttach := attachLeft_toExpression left op hLeaves
  rcases τ with _ | ⟨c, a⟩
  · rw [wrap, attachRight_of_ne]
    · exact hAttach
    · intro test consequent alternate h
      have hTest := isTest_toExpression hLeaves
      rw [h] at hTest
      cases hTest
  · rw [wrap, attachRight_conditional]
    obtain ⟨hMixes, m, hError⟩ | ⟨hMixes, hOk⟩ := hAttach
    · exact .inl ⟨hMixes, m, by rw [hError]; rfl⟩
    · exact .inr ⟨hMixes, by rw [hOk]; rfl⟩

mutual

theorem Sequence.parsed_view : ∀ {s : Sequence} {e : Expression}, s.ParsesTo e →
    ∃ x word τ, s.Word Operand.ParsesTo Sequence.ParsesTo x word ∧ s.Tail Sequence.ParsesTo τ ∧
      e = wrap τ (toExpression (build Amends x word))
  | .operand first rest, e, h => by
    obtain ⟨x, hFirst, h⟩ := bind_ok h
    obtain ⟨word, τ, hWord, hTail, rfl⟩ := Rest.parsed_view h
    exact ⟨x, word, τ, ⟨hFirst, hWord⟩, hTail, rfl⟩
  | .assignment .., e, h => ⟨e, [], none, ⟨h, rfl⟩, rfl, rfl⟩
  | .arrowFunction .., e, h => ⟨e, [], none, ⟨h, rfl⟩, rfl, rfl⟩
  | .blockFunction .., e, h => ⟨e, [], none, ⟨h, rfl⟩, rfl, rfl⟩

theorem Rest.parsed_view {lhs : Expression} :
    ∀ {r : Rest} {e : Expression}, r.parsed lhs = .ok e →
      ∃ word τ, r.Word Operand.ParsesTo Sequence.ParsesTo word ∧ r.Tail Sequence.ParsesTo τ ∧
        e = wrap τ (toExpression (build Amends lhs word))
  | .done, e, h => by
    cases h
    exact ⟨[], none, rfl, rfl, rfl⟩
  | .conditional consequent alternate, e, h => by
    obtain ⟨c, hThen, h⟩ := bind_ok h
    obtain ⟨a, hElse, h⟩ := bind_ok h
    cases h
    exact ⟨[], some (c, a), rfl, ⟨c, a, hThen, hElse, rfl⟩, rfl⟩
  | .binary op right, e, h => by
    rw [Rest.parsed] at h
    split at h
    · cases h
    · obtain ⟨r, hRight, h⟩ := bind_ok h
      obtain ⟨x, word, τ, hWord, hTail, rfl⟩ := Sequence.parsed_view hRight
      obtain ⟨hx, hLeaves⟩ := hWord.leaves (fun _ _ h => Operand.ParsesTo.isLeaf h)
        (fun _ hs _ h => Sequence.ParsesTo.isLeaf hs h)
      obtain ⟨-, m, hError⟩ | ⟨-, hOk⟩ := attachRight_wrap lhs op τ
        (leaves_build Amends hx hLeaves)
      · rw [hError] at h
        cases h
      · rw [hOk] at h
        cases h
        exact ⟨(op, x) :: word, τ, ⟨x, word, hWord, rfl⟩, hTail, rfl⟩

end

/-! ### The grammar -/

/-- The grammar has no assignment and no arrow function for an operand. -/
def NoSequence : Sequence → Expression → Prop := fun _ _ => False

theorem Operand.Derives.isLeaf {o : Operand} {e : Expression} (h : o.Derives e) : e.IsLeaf := by
  cases o with
  | identifier n | member n | operand n =>
    obtain rfl : e = _ := h
    trivial
  | unary op argument =>
    obtain ⟨x, -, rfl, -⟩ := h
    trivial
  | update op argument =>
    obtain ⟨x, -, rfl, -⟩ := h
    trivial
  | await argument =>
    obtain ⟨x, -, rfl⟩ := h
    trivial
  | parenthesized first others =>
    obtain ⟨x, xs, -, -, rfl⟩ := h
    exact Expression.isLeaf_of_isGrouped (isGrouped_parenthesize x xs)

mutual

theorem Sequence.derivesAfter_iff {first : Expression} {op : BinaryOperator} {e : Expression} :
    ∀ {acc : Parser.Word} (s : Sequence), s.DerivesAfter first acc op e ↔
      ∃ x word τ t, s.Word Operand.Derives NoSequence x word ∧ s.Tail Sequence.Derives τ ∧
        Parser.Derives .shortCircuit first (acc ++ (op, x) :: word) t ∧ e = wrap τ t
  | acc, .operand second rest => by
    simp only [Sequence.DerivesAfter, Rest.derives_iff rest, Sequence.Word, Sequence.Tail]
    constructor
    · rintro ⟨x, hx, word, τ, t, hWord, hTail, hTree, rfl⟩
      exact ⟨x, word, τ, t, ⟨hx, hWord⟩, hTail, by simpa using hTree, rfl⟩
    · rintro ⟨x, word, τ, t, ⟨hx, hWord⟩, hTail, hTree, rfl⟩
      exact ⟨x, hx, word, τ, t, hWord, hTail, by simpa using hTree, rfl⟩
  | acc, .assignment .. => by
    simp [Sequence.DerivesAfter, Sequence.Word, NoSequence]
  | acc, .arrowFunction .. => by
    simp [Sequence.DerivesAfter, Sequence.Word, NoSequence]
  | acc, .blockFunction .. => by
    simp [Sequence.DerivesAfter, Sequence.Word, NoSequence]

theorem Rest.derives_iff {first : Expression} {e : Expression} :
    ∀ {acc : Parser.Word} (r : Rest), r.Derives first acc e ↔
      ∃ word τ t, r.Word Operand.Derives NoSequence word ∧ r.Tail Sequence.Derives τ ∧
        Parser.Derives .shortCircuit first (acc ++ word) t ∧ e = wrap τ t
  | acc, .done => by
    simp [Rest.Derives, Rest.Word, Rest.Tail, wrap]
  | acc, .conditional consequent alternate => by
    simp only [Rest.Derives, Rest.Word, Rest.Tail]
    constructor
    · rintro ⟨t, c, a, hTree, hThen, hElse, rfl⟩
      exact ⟨[], some (c, a), t, rfl, ⟨c, a, hThen, hElse, rfl⟩, by simpa using hTree, rfl⟩
    · rintro ⟨word, τ, t, rfl, ⟨c, a, hThen, hElse, rfl⟩, hTree, rfl⟩
      exact ⟨t, c, a, by simpa using hTree, hThen, hElse, rfl⟩
  | acc, .binary op right => by
    simp only [Rest.Derives, Sequence.derivesAfter_iff right, Rest.Word, Rest.Tail]
    constructor
    · rintro ⟨x, word, τ, t, hWord, hTail, hTree, rfl⟩
      exact ⟨_, τ, t, ⟨x, word, hWord, rfl⟩, hTail, hTree, rfl⟩
    · rintro ⟨word, τ, t, ⟨x, after, hWord, rfl⟩, hTail, hTree, rfl⟩
      exact ⟨x, after, τ, t, hWord, hTail, hTree, rfl⟩

end

theorem Sequence.derives_operand_iff (first : Operand) (rest : Rest) (e : Expression) :
    (Sequence.operand first rest).Derives e ↔
      ∃ x word τ, first.Derives x ∧ rest.Word Operand.Derives NoSequence word ∧
        rest.Tail Sequence.Derives τ ∧ Unmixed rest.operators ∧ PowersOfUpdates x word ∧
        e = wrap τ (toExpression (build Binds x word)) := by
  simp only [Derives, Rest.derives_iff, List.nil_append, derives_shortCircuit_iff]
  constructor
  · rintro ⟨x, hFirst, word, τ, t, hWord, hTail, ⟨hUnmixed, hPowers, rfl⟩, rfl⟩
    exact ⟨x, word, τ, hFirst, hWord, hTail, hWord.operators_eq ▸ hUnmixed, hPowers, rfl⟩
  · rintro ⟨x, word, τ, hFirst, hWord, hTail, hUnmixed, hPowers, rfl⟩
    exact ⟨x, hFirst, word, τ, _, hWord, hTail,
      ⟨hWord.operators_eq.symm ▸ hUnmixed, hPowers, rfl⟩, rfl⟩

end ArkTs2abc.Es2panda.Parser
