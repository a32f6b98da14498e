import ArkTs2abc.Es2panda.Parser.ExpressionWords

/-!
# What the expression parser accepts

The parser builds the tree of the grammar, or rejects with the grammar, exactly for the sequences
with an error that it sees and those that are clean. An error that it does not see is an assignment
or an arrow function behind an operator, an `await` before `**`, or `??` before `&&` when a `|`
follows; and where an `&&` stands before a `|`, the tree is another one.

## Main definitions

* `Sequence.SeenError` — what makes the parser reject.
* `Sequence.Clean` — nothing that the parser treats otherwise than the grammar.
* `Sequence.ParsedByGrammar` — the parser does what the grammar says.

## Main results

* `Sequence.outcome` — the parser rejects exactly the sequences with a seen error.
* `Sequence.not_seenError` — the grammar derives nothing from these.
* `Sequence.derives_iff_clean` — it derives what the parser builds iff the sequence is clean.
* `Sequence.parsedByGrammar_iff` — the condition under which both agree.
-/

namespace ArkTs2abc.Es2panda.Parser

open OperatorTree

/-! ### Operands -/

namespace Operand

def isUnaryExpression : Operand → Bool
  | unary .. => true
  | _ => false

def isAwaitExpression : Operand → Bool
  | await .. => true
  | _ => false

/-- An identifier, in any number of parentheses. -/
def isIdentifier : Operand → Bool
  | identifier _ => true
  | parenthesized (.operand first .done) .nil => first.isIdentifier
  | _ => false

/-- A member expression, in any number of parentheses. -/
def isMemberExpression : Operand → Bool
  | member _ => true
  | parenthesized (.operand first .done) .nil => first.isMemberExpression
  | _ => false

end Operand

def Rest.startsWithPower : Rest → Bool
  | .binary .exponentiation _ => true
  | _ => false

mutual

/-- The operand holds something that the parser rejects. -/
def Operand.SeenError : Operand → Prop
  | .identifier _ | .member _ | .operand _ => False
  | .unary op argument => argument.SeenError ∨ op = .keywDelete ∧ argument.isIdentifier
  | .update _ argument =>
    argument.SeenError ∨ ¬ (argument.isIdentifier ∨ argument.isMemberExpression)
  | .await argument => argument.SeenError
  | .parenthesized first others => first.SeenError ∨ others.SeenError

def Sequence.SeenError : Sequence → Prop
  | .operand first rest =>
    first.SeenError ∨ rest.SeenError ∨ rest.startsWithPower ∧ first.isUnaryExpression
  | .assignment target _ value =>
    target.SeenError ∨ ¬ (target.isIdentifier ∨ target.isMemberExpression) ∨ value.SeenError
  | .arrowFunction _ body => body.SeenError
  | .blockFunction _ _ => False

def Rest.SeenError : Rest → Prop
  | .done => False
  | .binary op right => right.SeenError ∨ MixSeen op right.operators
  | .conditional consequent alternate => consequent.SeenError ∨ alternate.SeenError

def Sequences.SeenError : Sequences → Prop
  | .nil => False
  | .cons head tail => head.SeenError ∨ tail.SeenError

end

mutual

/-- Every sequence inside the operand is clean. -/
def Operand.Clean : Operand → Prop
  | .identifier _ | .member _ | .operand _ => True
  | .unary _ argument | .update _ argument | .await argument => argument.Clean
  | .parenthesized first others => first.Clean ∧ others.Clean

/-- No operator has an assignment or an arrow function as its right operand, no `await` stands
before `**`, no `&&` before `|`, and `??` is not mixed with `||` or `&&`, here or inside. -/
def Sequence.Clean : Sequence → Prop
  | .operand first rest =>
    first.Clean ∧ rest.PartsClean first.isAwaitExpression ∧ NoAndBeforeOr rest.operators ∧
      Unmixed rest.operators
  | .assignment target _ value => target.Clean ∧ value.Clean
  | .arrowFunction _ body => body.Clean
  | .blockFunction _ _ => True

/-- `afterAwait`: the operand before is an `await`. -/
def Rest.PartsClean (afterAwait : Bool) : Rest → Prop
  | .done => True
  | .binary op right => (op = .exponentiation → afterAwait = false) ∧ right.PartsClean
  | .conditional consequent alternate => consequent.Clean ∧ alternate.Clean

/-- The sequence as a right operand and what follows it. -/
def Sequence.PartsClean : Sequence → Prop
  | .operand first rest => first.Clean ∧ rest.PartsClean first.isAwaitExpression
  | _ => False

def Sequences.Clean : Sequences → Prop
  | .nil => True
  | .cons head tail => head.Clean ∧ tail.Clean

end

/-! ### What an operand is parsed to -/

theorem isIdentifier_setGrouped (e : Expression) :
    e.setGrouped.isIdentifier = e.isIdentifier ∧
      e.setGrouped.isMemberExpression = e.isMemberExpression := by
  cases e <;> exact ⟨rfl, rfl⟩

theorem isIdentifier_wrap (τ : Tail) {amend : BinaryOperator → BinaryOperator → Prop}
    [DecidableRel amend] (x : Expression) (entry : BinaryOperator × Expression) (word : Word) :
    (wrap τ (toExpression (build amend x (entry :: word)))).isIdentifier = false ∧
      (wrap τ (toExpression (build amend x (entry :: word)))).isMemberExpression = false ∧
      (wrap τ (toExpression (build amend x (entry :: word)))).isGrouped = false := by
  rcases τ with _ | ⟨c, a⟩
  · rw [wrap]
    cases hTree : build amend x (entry :: word) with
    | leaf e =>
      have hRest : (build amend x (entry :: word)).rest = [] := by rw [hTree]; rfl
      simp at hRest
    | node op l r => exact ⟨rfl, rfl, rfl⟩
  · exact ⟨rfl, rfl, rfl⟩

/-- An expression that is parsed as a single operand, or is no target of an assignment. -/
theorem Sequence.ParsesTo.kind {s : Sequence} {e : Expression} (h : s.ParsesTo e) :
    (∃ o, s = .operand o .done ∧ o.ParsesTo e) ∨
      (∀ o, s ≠ .operand o .done) ∧ e.isIdentifier = false ∧ e.isMemberExpression = false ∧
        e.isGrouped = false := by
  obtain ⟨x, word, τ, hWord, hTail, rfl⟩ := Sequence.parsed_view h
  cases s with
  | operand first rest =>
    cases rest with
    | done =>
      obtain ⟨hFirst, rfl⟩ := hWord
      obtain rfl : τ = none := hTail
      exact .inl ⟨first, rfl, hFirst⟩
    | binary op right =>
      obtain ⟨-, y, after, -, rfl⟩ := hWord
      exact .inr ⟨by simp, isIdentifier_wrap τ x (op, y) after⟩
    | conditional consequent alternate =>
      obtain ⟨c, a, -, -, rfl⟩ := hTail
      exact .inr ⟨by simp, rfl, rfl, rfl⟩
  | assignment target op value =>
    obtain ⟨hSelf, rfl⟩ := hWord
    obtain rfl : τ = none := hTail
    obtain ⟨t, -, h⟩ := bind_ok hSelf
    obtain ⟨u, -, h⟩ := bind_ok h
    obtain ⟨v, -, h⟩ := bind_ok h
    cases h
    exact .inr ⟨by simp, rfl, rfl, rfl⟩
  | arrowFunction n body =>
    obtain ⟨hSelf, rfl⟩ := hWord
    obtain rfl : τ = none := hTail
    obtain ⟨b, -, h⟩ := bind_ok hSelf
    cases h
    exact .inr ⟨by simp, rfl, rfl, rfl⟩
  | blockFunction n block =>
    obtain ⟨hSelf, rfl⟩ := hWord
    obtain rfl : τ = none := hTail
    cases hSelf
    exact .inr ⟨by simp, rfl, rfl, rfl⟩

theorem Sequence.Derives.kind {s : Sequence} {e : Expression} (h : s.Derives e) :
    (∃ o, s = .operand o .done ∧ o.Derives e) ∨
      (∀ o, s ≠ .operand o .done) ∧ e.isIdentifier = false ∧ e.isMemberExpression = false ∧
        e.isGrouped = false := by
  cases s with
  | operand first rest =>
    obtain ⟨x, word, τ, hFirst, hWord, hTail, -, -, rfl⟩ :=
      (Sequence.derives_operand_iff first rest e).mp h
    cases rest with
    | done =>
      obtain rfl : word = [] := hWord
      obtain rfl : τ = none := hTail
      exact .inl ⟨first, rfl, hFirst⟩
    | binary op right =>
      obtain ⟨y, after, -, rfl⟩ := hWord
      exact .inr ⟨by simp, isIdentifier_wrap τ x (op, y) after⟩
    | conditional consequent alternate =>
      obtain ⟨c, a, -, -, rfl⟩ := hTail
      exact .inr ⟨by simp, rfl, rfl, rfl⟩
  | assignment target op value =>
    obtain ⟨t, v, -, -, rfl, -⟩ := h
    exact .inr ⟨by simp, rfl, rfl, rfl⟩
  | arrowFunction n body =>
    obtain ⟨b, -, rfl⟩ := h
    exact .inr ⟨by simp, rfl, rfl, rfl⟩
  | blockFunction n block =>
    obtain rfl : e = _ := h
    exact .inr ⟨by simp, rfl, rfl, rfl⟩

namespace Operand

theorem isIdentifier_parenthesized {s : Sequence} (h : ∀ o, s ≠ .operand o .done) :
    (parenthesized s .nil).isIdentifier = false ∧
      (parenthesized s .nil).isMemberExpression = false := by
  cases s with
  | operand first rest =>
    cases rest with
    | done => exact absurd rfl (h first)
    | _ => exact ⟨rfl, rfl⟩
  | _ => exact ⟨rfl, rfl⟩

theorem ParsesTo.kind : ∀ {o : Operand} {e : Expression}, o.ParsesTo e →
    e.isIdentifier = o.isIdentifier ∧ e.isMemberExpression = o.isMemberExpression
  | .identifier _, _, h | .member _, _, h | .operand _, _, h => by
    cases h
    exact ⟨rfl, rfl⟩
  | .unary _ _, _, h | .update _ _, _, h => by
    obtain ⟨x, -, h⟩ := bind_ok h
    split at h <;> cases h
    exact ⟨rfl, rfl⟩
  | .await _, _, h => by
    obtain ⟨x, -, h⟩ := bind_ok h
    cases h
    exact ⟨rfl, rfl⟩
  | .parenthesized first .nil, _, h => by
    obtain ⟨x, hFirst, h⟩ := bind_ok h
    cases h
    obtain ⟨hIdentifier, hMember⟩ := isIdentifier_setGrouped x
    rw [parenthesize, hIdentifier, hMember]
    obtain ⟨o, rfl, ho⟩ | ⟨hNot, hx, hx', -⟩ := Sequence.ParsesTo.kind hFirst
    · exact ho.kind
    · obtain ⟨hIdentifier, hMember⟩ := isIdentifier_parenthesized hNot
      rw [hIdentifier, hMember]
      exact ⟨hx, hx'⟩
  | .parenthesized _ (.cons _ _), _, h => by
    obtain ⟨x, -, h⟩ := bind_ok h
    obtain ⟨xs, hOthers, h⟩ := bind_ok h
    obtain ⟨y, -, hOthers⟩ := bind_ok hOthers
    obtain ⟨ys, -, hOthers⟩ := bind_ok hOthers
    cases hOthers
    cases h
    exact ⟨by simp [parenthesize, isIdentifier, Expression.isIdentifier],
      by simp [parenthesize, isMemberExpression, Expression.isMemberExpression]⟩

theorem Derives.kind : ∀ {o : Operand} {e : Expression}, o.Derives e →
    e.isIdentifier = o.isIdentifier ∧ e.isMemberExpression = o.isMemberExpression
  | .identifier _, _, h | .member _, _, h | .operand _, _, h => by
    cases h
    exact ⟨rfl, rfl⟩
  | .unary _ _, _, h | .update _ _, _, h => by
    obtain ⟨x, -, rfl, -⟩ := h
    exact ⟨rfl, rfl⟩
  | .await _, _, h => by
    obtain ⟨x, -, rfl⟩ := h
    exact ⟨rfl, rfl⟩
  | .parenthesized first .nil, _, h => by
    obtain ⟨x, xs, hFirst, hOthers, rfl⟩ := h
    obtain rfl : xs = .nil := hOthers
    obtain ⟨hIdentifier, hMember⟩ := isIdentifier_setGrouped x
    rw [parenthesize, hIdentifier, hMember]
    obtain ⟨o, rfl, ho⟩ | ⟨hNot, hx, hx', -⟩ := Sequence.Derives.kind hFirst
    · exact ho.kind
    · obtain ⟨hIdentifier, hMember⟩ := isIdentifier_parenthesized hNot
      rw [hIdentifier, hMember]
      exact ⟨hx, hx'⟩
  | .parenthesized _ (.cons _ _), _, h => by
    obtain ⟨x, xs, -, ⟨y, ys, -, -, rfl⟩, rfl⟩ := h
    exact ⟨by simp [parenthesize, isIdentifier, Expression.isIdentifier],
      by simp [parenthesize, isMemberExpression, Expression.isMemberExpression]⟩

variable {e : Expression} {o : Operand}

attribute [simp] Operand.isUnaryExpression

/-- What stands before `**` is seen on the operand. -/
theorem ParsesTo.isUnaryExpression (h : o.ParsesTo e) :
    (e.isUnaryExpression ∧ ¬ e.isGrouped) ↔ o.isUnaryExpression := by
  cases o with
  | identifier n | member n | operand n =>
    cases h
    simp [Expression.isUnaryExpression]
  | unary op argument | update op argument =>
    obtain ⟨x, -, h⟩ := bind_ok h
    split at h <;> cases h
    simp [Expression.isUnaryExpression, Expression.isGrouped]
  | await argument =>
    obtain ⟨x, -, h⟩ := bind_ok h
    cases h
    simp [Expression.isUnaryExpression]
  | parenthesized first others =>
    obtain ⟨x, -, h⟩ := bind_ok h
    obtain ⟨xs, -, h⟩ := bind_ok h
    cases h
    simp

theorem ParsesTo.isUnaryOnly (h : o.ParsesTo e) :
    e.isUnaryOnly = (o.isUnaryExpression || o.isAwaitExpression) := by
  cases o with
  | identifier n | member n | operand n =>
    cases h
    rfl
  | unary op argument | update op argument =>
    obtain ⟨x, -, h⟩ := bind_ok h
    split at h <;> cases h
    rfl
  | await argument =>
    obtain ⟨x, -, h⟩ := bind_ok h
    cases h
    rfl
  | parenthesized first others =>
    obtain ⟨x, -, h⟩ := bind_ok h
    obtain ⟨xs, -, h⟩ := bind_ok h
    cases h
    simp [Expression.isUnaryOnly, Operand.isAwaitExpression]

def isParenthesized : Operand → Bool
  | parenthesized .. => true
  | _ => false

theorem ParsesTo.isGrouped (h : o.ParsesTo e) :
    e.isGrouped = o.isParenthesized := by
  cases o with
  | identifier n | member n | operand n =>
    cases h
    rfl
  | unary op argument | update op argument =>
    obtain ⟨x, -, h⟩ := bind_ok h
    split at h <;> cases h
    rfl
  | await argument =>
    obtain ⟨x, -, h⟩ := bind_ok h
    cases h
    rfl
  | parenthesized first others =>
    obtain ⟨x, -, h⟩ := bind_ok h
    obtain ⟨xs, -, h⟩ := bind_ok h
    cases h
    exact isGrouped_parenthesize x xs

theorem Derives.isGrouped (h : o.Derives e) :
    e.isGrouped = o.isParenthesized := by
  cases o with
  | identifier n | member n | operand n =>
    cases h
    rfl
  | unary op argument | update op argument =>
    obtain ⟨x, -, rfl, -⟩ := h
    rfl
  | await argument =>
    obtain ⟨x, -, rfl⟩ := h
    rfl
  | parenthesized first others =>
    obtain ⟨x, xs, -, -, rfl⟩ := h
    exact isGrouped_parenthesize x xs

theorem Derives.isUnaryOnly (h : o.Derives e) :
    e.isUnaryOnly = (o.isUnaryExpression || o.isAwaitExpression) := by
  cases o with
  | identifier n | member n | operand n =>
    cases h
    rfl
  | unary op argument | update op argument =>
    obtain ⟨x, -, rfl, -⟩ := h
    rfl
  | await argument =>
    obtain ⟨x, -, rfl⟩ := h
    rfl
  | parenthesized first others =>
    obtain ⟨x, xs, -, -, rfl⟩ := h
    simp [Expression.isUnaryOnly, Operand.isAwaitExpression]

end Operand

/-! ### What the parser rejects -/

/-- The parser rejects when `P` holds and builds something when it does not. -/
def Outcome {α : Type} (P : Prop) (r : Parse α) : Prop :=
  (P ∧ ∃ m, r = throwSyntaxError m) ∨ ¬ P ∧ ∃ a, r = .ok a

namespace Outcome

variable {α β : Type} {P Q : Prop}

theorem pure (a : α) : Outcome False (.ok a : Parse α) := .inr ⟨not_false, a, rfl⟩

theorem congr {r : Parse α} (h : Outcome P r) (hIff : P ↔ Q) : Outcome Q r := by
  rwa [propext hIff] at h

theorem bind {x : Parse α} {f : α → Parse β} (hx : Outcome P x)
    (hf : ∀ a, x = .ok a → Outcome Q (f a)) : Outcome (P ∨ Q) (x >>= f) := by
  obtain ⟨hP, m, rfl⟩ | ⟨hP, a, rfl⟩ := hx
  · exact .inl ⟨.inl hP, m, rfl⟩
  · obtain ⟨hQ, h⟩ | ⟨hQ, h⟩ := hf a rfl
    · exact .inl ⟨.inr hQ, h⟩
    · exact .inr ⟨by simp [hP, hQ], h⟩

theorem check {c : Prop} [Decidable c] (m : String) (a : α) :
    Outcome c (if c then throwSyntaxError m else .ok a : Parse α) := by
  by_cases h : c
  · exact .inl ⟨h, m, if_pos h⟩
  · exact .inr ⟨h, a, if_neg h⟩

end Outcome

theorem outcome_validateLvalueAssignmentTarget (e : Expression) :
    Outcome (¬ (e.isIdentifier ∨ e.isMemberExpression)) (validateLvalueAssignmentTarget e) := by
  cases e <;> first | exact .inr ⟨by simp [Expression.isIdentifier,
    Expression.isMemberExpression], _, rfl⟩ | exact .inl ⟨by simp [Expression.isIdentifier,
    Expression.isMemberExpression], _, rfl⟩

mutual

theorem Operand.outcome : ∀ o : Operand, Outcome o.SeenError o.parsed
  | .identifier n => .pure _
  | .member n => .pure _
  | .operand n => .pure _
  | .unary op argument => by
    refine argument.outcome.bind fun x hx => ?_
    have hKind := (Operand.ParsesTo.kind hx).1
    exact (Outcome.check _ _).congr (by rw [hKind])
  | .update op argument => by
    refine argument.outcome.bind fun x hx => ?_
    obtain ⟨hIdentifier, hMember⟩ := Operand.ParsesTo.kind hx
    rw [← hIdentifier, ← hMember]
    by_cases h : x.isIdentifier ∨ x.isMemberExpression
    · exact .inr ⟨by simp [h], _, if_pos (by simpa using h)⟩
    · exact .inl ⟨h, _, if_neg (by simpa using h)⟩
  | .await argument => by
    refine (argument.outcome.bind fun x _ => Outcome.pure _).congr ?_
    simp [Operand.SeenError]
  | .parenthesized first others => by
    refine first.outcome.bind fun x _ => ?_
    exact (others.outcome.bind fun xs _ => .pure _).congr (by simp)

theorem Sequence.outcome : ∀ s : Sequence, Outcome s.SeenError s.parsed
  | .operand first rest => by
    refine first.outcome.bind fun x hx => ?_
    refine (rest.outcome x).congr ?_
    rw [Operand.ParsesTo.isUnaryExpression hx]
  | .assignment target op value => by
    refine target.outcome.bind fun x hx => ?_
    obtain ⟨hIdentifier, hMember⟩ := Operand.ParsesTo.kind hx
    rw [← hIdentifier, ← hMember]
    refine (outcome_validateLvalueAssignmentTarget x).bind fun u _ => ?_
    exact (value.outcome.bind fun v _ => .pure _).congr (by simp)
  | .arrowFunction n body => (body.outcome.bind fun b _ => .pure _).congr (by
    simp [Sequence.SeenError])
  | .blockFunction n block => .pure _

theorem Rest.outcome (lhs : Expression) : ∀ r : Rest,
    Outcome (r.SeenError ∨ r.startsWithPower ∧ lhs.isUnaryExpression ∧ ¬ lhs.isGrouped)
      (r.parsed lhs)
  | .done => (Outcome.pure _).congr (by simp [Rest.SeenError, Rest.startsWithPower])
  | .conditional consequent alternate => by
    refine (consequent.outcome.bind fun c _ =>
      (alternate.outcome.bind fun a _ => .pure _)).congr ?_
    simp [Rest.SeenError, Rest.startsWithPower]
  | .binary op right => by
    have hPower : (Rest.binary op right).startsWithPower = true ↔ op = .exponentiation := by
      cases op <;> simp [Rest.startsWithPower]
    rw [hPower, Rest.parsed]
    by_cases hUnary : op = .exponentiation ∧ lhs.isUnaryExpression ∧ ¬ lhs.isGrouped
    · rw [if_pos hUnary]
      exact .inl ⟨.inr hUnary, _, rfl⟩
    · rw [if_neg hUnary]
      refine (right.outcome.bind (Q := MixSeen op right.operators) fun e he => ?_).congr ?_
      · obtain ⟨x, word, τ, hWord, -, rfl⟩ := Sequence.parsed_view he
        obtain ⟨hx, hLeaves⟩ := hWord.leaves (fun _ _ h => Operand.ParsesTo.isLeaf h)
          (fun _ hs _ h => Sequence.ParsesTo.isLeaf hs h)
        rw [← hWord.operators_eq, ← mixes_iff op x word]
        obtain ⟨hMixes, h⟩ | ⟨hMixes, h⟩ := attachRight_wrap lhs op τ
          (leaves_build Amends hx hLeaves)
        · exact .inl ⟨hMixes, h⟩
        · exact .inr ⟨hMixes, _, h⟩
      · exact ⟨.inl, fun h => h.resolve_right hUnary⟩

theorem Sequences.outcome : ∀ ss : Sequences, Outcome ss.SeenError ss.parsed
  | .nil => .pure _
  | .cons head tail => by
    refine head.outcome.bind fun x _ => ?_
    exact (tail.outcome.bind fun xs _ => .pure _).congr (by simp)

end

/-! ### The grammar rejects what the parser rejects -/

theorem MixSeen.not_unmixed {op : BinaryOperator} {ops : List BinaryOperator}
    (h : MixSeen op ops) : ¬ Unmixed (op :: ops) := by
  intro hUnmixed
  obtain ⟨rfl | rfl, hNullish⟩ | ⟨rfl, -, hOr | hAnd⟩ := h
  · exact (hUnmixed (List.mem_cons_of_mem _ hNullish)).1 List.mem_cons_self
  · exact (hUnmixed (List.mem_cons_of_mem _ hNullish)).2 List.mem_cons_self
  · exact (hUnmixed List.mem_cons_self).1 (List.mem_cons_of_mem _ hOr)
  · exact (hUnmixed List.mem_cons_self).2 (List.mem_cons_of_mem _ hAnd.mem)

/-- An operand before `**` is no unary expression. -/
theorem Rest.not_power {D : Operand → Expression → Prop} {S : Sequence → Expression → Prop}
    {r : Rest} {word : Parser.Word} {x : Expression} (hWord : r.Word D S word)
    (hPowers : PowersOfUpdates x word) (hStart : r.startsWithPower) : x.isUnaryOnly = false := by
  cases r with
  | binary op right =>
    obtain ⟨y, after, -, rfl⟩ := hWord
    refine hPowers.1 ?_
    cases op <;> first | rfl | cases hStart
  | _ => cases hStart

mutual

theorem Operand.not_seenError : ∀ {o : Operand} {e : Expression}, o.Derives e → ¬ o.SeenError
  | .identifier _, _, _ | .member _, _, _ | .operand _, _, _ => not_false
  | .unary op argument, e, h => by
    obtain ⟨x, hx, -, hDelete⟩ := h
    rw [(Operand.Derives.kind hx).1] at hDelete
    exact not_or.mpr ⟨Operand.not_seenError hx, hDelete⟩
  | .update op argument, e, h => by
    obtain ⟨x, hx, -, hTarget⟩ := h
    obtain ⟨hIdentifier, hMember⟩ := Operand.Derives.kind hx
    rw [hIdentifier, hMember] at hTarget
    exact not_or.mpr ⟨Operand.not_seenError hx, not_not.mpr hTarget⟩
  | .await argument, e, h => by
    obtain ⟨x, hx, -⟩ := h
    exact Operand.not_seenError (o := argument) hx
  | .parenthesized first others, e, h => by
    obtain ⟨x, xs, hFirst, hOthers, -⟩ := h
    exact not_or.mpr ⟨Sequence.not_seenError hFirst, Sequences.not_seenError hOthers⟩

theorem Sequence.not_seenError : ∀ {s : Sequence} {e : Expression}, s.Derives e → ¬ s.SeenError
  | .operand first rest, e, h => by
    obtain ⟨x, word, τ, hFirst, hWord, hTail, hUnmixed, hPowers, -⟩ :=
      (Sequence.derives_operand_iff first rest e).mp h
    refine not_or.mpr ⟨Operand.not_seenError hFirst,
      not_or.mpr ⟨Rest.not_seenError hWord hTail hUnmixed hPowers, ?_⟩⟩
    rintro ⟨hStart, hUnary⟩
    have hUpdate := Rest.not_power hWord hPowers hStart
    rw [Operand.Derives.isUnaryOnly hFirst, hUnary] at hUpdate
    cases hUpdate
  | .assignment target op value, e, h => by
    obtain ⟨t, v, hTarget, hValue, -, hKind⟩ := h
    obtain ⟨hIdentifier, hMember⟩ := Operand.Derives.kind hTarget
    rw [hIdentifier, hMember] at hKind
    exact not_or.mpr ⟨Operand.not_seenError hTarget,
      not_or.mpr ⟨not_not.mpr hKind, Sequence.not_seenError hValue⟩⟩
  | .arrowFunction n body, e, h => by
    obtain ⟨b, hBody, -⟩ := h
    exact Sequence.not_seenError (s := body) hBody
  | .blockFunction _ _, _, _ => not_false

theorem Rest.not_seenError : ∀ {r : Rest} {word : Parser.Word} {τ : Parser.Tail}
    {x : Expression}, r.Word Operand.Derives NoSequence word → r.Tail Sequence.Derives τ →
      Unmixed r.operators → PowersOfUpdates x word → ¬ r.SeenError
  | .done, _, _, _, _, _, _, _ => not_false
  | .conditional consequent alternate, word, τ, x, hWord, hTail, hUnmixed, hPowers => by
    obtain ⟨c, a, hThen, hElse, -⟩ := hTail
    exact not_or.mpr ⟨Sequence.not_seenError hThen, Sequence.not_seenError hElse⟩
  | .binary op (.operand first rest), word, τ, x, hWord, hTail, hUnmixed, hPowers => by
    obtain ⟨y, after, ⟨hFirst, hWord⟩, rfl⟩ := hWord
    refine not_or.mpr ⟨not_or.mpr ⟨Operand.not_seenError hFirst, not_or.mpr
      ⟨Rest.not_seenError hWord hTail (hUnmixed.mono (List.subset_cons_self op _)) hPowers.2, ?_⟩⟩,
      fun hMix => hMix.not_unmixed hUnmixed⟩
    rintro ⟨hStart, hUnary⟩
    have hUpdate := Rest.not_power hWord hPowers.2 hStart
    rw [Operand.Derives.isUnaryOnly hFirst, hUnary] at hUpdate
    cases hUpdate
  | .binary op (.assignment ..), word, τ, x, hWord, hTail, hUnmixed, hPowers => by
    obtain ⟨y, after, ⟨hNot, -⟩, -⟩ := hWord
    exact hNot.elim
  | .binary op (.arrowFunction ..), word, τ, x, hWord, hTail, hUnmixed, hPowers => by
    obtain ⟨y, after, ⟨hNot, -⟩, -⟩ := hWord
    exact hNot.elim
  | .binary op (.blockFunction ..), word, τ, x, hWord, hTail, hUnmixed, hPowers => by
    obtain ⟨y, after, ⟨hNot, -⟩, -⟩ := hWord
    exact hNot.elim

theorem Sequences.not_seenError : ∀ {ss : Sequences} {es : Expressions}, ss.Derives es →
    ¬ ss.SeenError
  | .nil, _, _ => not_false
  | .cons head tail, es, h => by
    obtain ⟨x, xs, hHead, hTail, -⟩ := h
    exact not_or.mpr ⟨Sequence.not_seenError hHead, Sequences.not_seenError hTail⟩

end

/-! ### One tree -/

mutual

theorem Operand.derives_unique : ∀ {o : Operand} {e e' : Expression}, o.Derives e →
    o.Derives e' → e = e'
  | .identifier _, _, _, h, h' | .member _, _, _, h, h' | .operand _, _, _, h, h' => by
    rw [show _ = _ from h, show _ = _ from h']
  | .unary op argument, e, e', h, h' => by
    obtain ⟨x, hx, rfl, -⟩ := h
    obtain ⟨x', hx', rfl, -⟩ := h'
    rw [Operand.derives_unique hx hx']
  | .update op argument, e, e', h, h' => by
    obtain ⟨x, hx, rfl, -⟩ := h
    obtain ⟨x', hx', rfl, -⟩ := h'
    rw [Operand.derives_unique hx hx']
  | .await argument, e, e', h, h' => by
    obtain ⟨x, hx, rfl⟩ := h
    obtain ⟨x', hx', rfl⟩ := h'
    rw [Operand.derives_unique hx hx']
  | .parenthesized first others, e, e', h, h' => by
    obtain ⟨x, xs, hx, hxs, rfl⟩ := h
    obtain ⟨x', xs', hx', hxs', rfl⟩ := h'
    rw [Sequence.derives_unique hx hx', Sequences.derives_unique hxs hxs']

theorem Sequence.derives_unique : ∀ {s : Sequence} {e e' : Expression}, s.Derives e →
    s.Derives e' → e = e'
  | .operand first rest, e, e', h, h' => by
    obtain ⟨x, word, τ, hx, hWord, hTail, -, -, rfl⟩ :=
      (Sequence.derives_operand_iff first rest e).mp h
    obtain ⟨x', word', τ', hx', hWord', hTail', -, -, rfl⟩ :=
      (Sequence.derives_operand_iff first rest e').mp h'
    rw [Operand.derives_unique hx hx', Rest.word_unique hWord hWord',
      Rest.tail_unique hTail hTail']
  | .assignment target op value, e, e', h, h' => by
    obtain ⟨t, v, ht, hv, rfl, -⟩ := h
    obtain ⟨t', v', ht', hv', rfl, -⟩ := h'
    rw [Operand.derives_unique ht ht', Sequence.derives_unique hv hv']
  | .arrowFunction n body, e, e', h, h' => by
    obtain ⟨b, hb, rfl⟩ := h
    obtain ⟨b', hb', rfl⟩ := h'
    rw [Sequence.derives_unique hb hb']
  | .blockFunction n block, e, e', h, h' => by
    rw [show _ = _ from h, show _ = _ from h']

theorem Rest.word_unique : ∀ {r : Rest} {word word' : Parser.Word},
    r.Word Operand.Derives NoSequence word → r.Word Operand.Derives NoSequence word' →
      word = word'
  | .done, _, _, h, h' | .conditional _ _, _, _, h, h' => by
    rw [show _ = _ from h, show _ = _ from h']
  | .binary op (.operand first rest), word, word', h, h' => by
    obtain ⟨x, after, ⟨hx, hAfter⟩, rfl⟩ := h
    obtain ⟨x', after', ⟨hx', hAfter'⟩, rfl⟩ := h'
    rw [Operand.derives_unique hx hx', Rest.word_unique hAfter hAfter']
  | .binary op (.assignment ..), _, _, h, _ => by
    obtain ⟨x, after, ⟨hNot, -⟩, -⟩ := h
    exact hNot.elim
  | .binary op (.arrowFunction ..), _, _, h, _ => by
    obtain ⟨x, after, ⟨hNot, -⟩, -⟩ := h
    exact hNot.elim
  | .binary op (.blockFunction ..), _, _, h, _ => by
    obtain ⟨x, after, ⟨hNot, -⟩, -⟩ := h
    exact hNot.elim

theorem Rest.tail_unique : ∀ {r : Rest} {τ τ' : Parser.Tail},
    r.Tail Sequence.Derives τ → r.Tail Sequence.Derives τ' → τ = τ'
  | .done, _, _, h, h' => by rw [show _ = _ from h, show _ = _ from h']
  | .conditional consequent alternate, τ, τ', h, h' => by
    obtain ⟨c, a, hc, ha, rfl⟩ := h
    obtain ⟨c', a', hc', ha', rfl⟩ := h'
    rw [Sequence.derives_unique hc hc', Sequence.derives_unique ha ha']
  | .binary op (.operand first rest), τ, τ', h, h' => Rest.tail_unique (r := rest) h h'
  | .binary op (.assignment ..), _, _, h, h' => by rw [show _ = _ from h, show _ = _ from h']
  | .binary op (.arrowFunction ..), _, _, h, h' => by rw [show _ = _ from h, show _ = _ from h']
  | .binary op (.blockFunction ..), _, _, h, h' => by rw [show _ = _ from h, show _ = _ from h']

theorem Sequences.derives_unique : ∀ {ss : Sequences} {es es' : Expressions}, ss.Derives es →
    ss.Derives es' → es = es'
  | .nil, _, _, h, h' => by rw [show _ = _ from h, show _ = _ from h']
  | .cons head tail, es, es', h, h' => by
    obtain ⟨x, xs, hx, hxs, rfl⟩ := h
    obtain ⟨x', xs', hx', hxs', rfl⟩ := h'
    rw [Sequence.derives_unique hx hx', Sequences.derives_unique hxs hxs']

end

/-! ### Where the parser and the grammar agree -/

theorem setGrouped_injective {e e' : Expression} (h : e.setGrouped = e'.setGrouped)
    (hGrouped : e.isGrouped = e'.isGrouped) : e = e' := by
  cases e <;> cases e' <;> simp_all [Expression.setGrouped, Expression.isGrouped]

theorem Sequence.isGrouped_eq {s : Sequence} {e e' : Expression} (h : s.ParsesTo e)
    (h' : s.Derives e') : e.isGrouped = e'.isGrouped := by
  obtain ⟨o, rfl, ho⟩ | ⟨hNot, -, -, hGrouped⟩ := h.kind
  · obtain ⟨o', hEq, ho'⟩ | ⟨hNot, -⟩ := h'.kind
    · obtain ⟨rfl, -⟩ := Sequence.operand.inj hEq
      rw [ho.isGrouped, ho'.isGrouped]
    · exact absurd rfl (hNot o)
  · obtain ⟨o', hEq, -⟩ | ⟨-, -, -, hGrouped'⟩ := h'.kind
    · exact absurd hEq (hNot o')
    · rw [hGrouped, hGrouped']

theorem wrap_build_injective {amend : BinaryOperator → BinaryOperator → Prop} [DecidableRel amend]
    {x x' : Expression} {word word' : Word} {τ τ' : Tail} (hx : x.IsLeaf) (hx' : x'.IsLeaf)
    (hWord : ∀ entry ∈ word, entry.2.IsLeaf) (hWord' : ∀ entry ∈ word', entry.2.IsLeaf)
    (h : wrap τ (toExpression (build Amends x word)) =
      wrap τ' (toExpression (build amend x' word'))) :
    τ = τ' ∧ x = x' ∧ word = word' ∧ build Amends x word = build amend x word := by
  have hLeaves := leaves_build Amends hx hWord
  have hLeaves' := leaves_build amend hx' hWord'
  obtain ⟨rfl, hTest⟩ := wrap_injective (isTest_toExpression hLeaves)
    (isTest_toExpression hLeaves') h
  have hTree := toExpression_injective hLeaves hLeaves' hTest
  have hFirst := congrArg Tree.first hTree
  have hRest := congrArg Tree.rest hTree
  rw [first_build, first_build] at hFirst
  rw [rest_build, rest_build] at hRest
  subst hFirst hRest
  exact ⟨rfl, rfl, rfl, hTree⟩

theorem Sequence.ParsesTo.not_seenError {s : Sequence} {e : Expression} (h : s.ParsesTo e) :
    ¬ s.SeenError := by
  obtain ⟨-, m, hError⟩ | ⟨hSeen, -⟩ := s.outcome
  · rw [ParsesTo, hError] at h
    cases h
  · exact hSeen

mutual

theorem Operand.derives_iff_clean : ∀ {o : Operand} {e : Expression}, o.ParsesTo e →
    (o.Derives e ↔ o.Clean)
  | .identifier _, _, h | .member _, _, h | .operand _, _, h => by
    cases h
    exact iff_of_true rfl trivial
  | .unary op argument, e, h => by
    obtain ⟨x, hx, h⟩ := bind_ok h
    split at h
    case isTrue => cases h
    case isFalse hDelete =>
      cases h
      refine Iff.trans ?_ (Operand.derives_iff_clean (o := argument) hx)
      constructor
      · rintro ⟨x', hx', hEq, -⟩
        obtain ⟨-, -, rfl⟩ := Expression.unary.inj hEq
        exact hx'
      · exact fun hx' => ⟨x, hx', rfl, hDelete⟩
  | .update op argument, e, h => by
    obtain ⟨x, hx, h⟩ := bind_ok h
    split at h
    case isFalse => cases h
    case isTrue hTarget =>
      cases h
      refine Iff.trans ?_ (Operand.derives_iff_clean (o := argument) hx)
      constructor
      · rintro ⟨x', hx', hEq, -⟩
        obtain ⟨-, -, rfl⟩ := Expression.update.inj hEq
        exact hx'
      · exact fun hx' => ⟨x, hx', rfl, by simpa using hTarget⟩
  | .await argument, e, h => by
    obtain ⟨x, hx, h⟩ := bind_ok h
    cases h
    refine Iff.trans ?_ (Operand.derives_iff_clean (o := argument) hx)
    constructor
    · rintro ⟨x', hx', hEq⟩
      obtain ⟨-, rfl⟩ := Expression.await.inj hEq
      exact hx'
    · exact fun hx' => ⟨x, hx', rfl⟩
  | .parenthesized first others, e, h => by
    obtain ⟨x, hx, h⟩ := bind_ok h
    obtain ⟨xs, hxs, h⟩ := bind_ok h
    refine Iff.trans ?_
      (and_congr (Sequence.derives_iff_clean hx) (Sequences.derives_iff_clean hxs))
    cases h
    constructor
    · rintro ⟨x', xs', hx', hxs', hEq⟩
      cases others with
      | nil =>
        cases hxs
        obtain rfl : xs' = .nil := hxs'
        rw [setGrouped_injective hEq (Sequence.isGrouped_eq hx hx')]
        exact ⟨hx', rfl⟩
      | cons head tail =>
        obtain ⟨y', ys', hy', hys', rfl⟩ := hxs'
        obtain ⟨y, -, h⟩ := bind_ok hxs
        obtain ⟨ys, -, h⟩ := bind_ok h
        cases h
        obtain ⟨rfl, rfl, rfl⟩ : x = x' ∧ y = y' ∧ ys = ys' := by
          simpa [parenthesize] using hEq
        exact ⟨hx', y, ys, hy', hys', rfl⟩
    · rintro ⟨hx', hxs'⟩
      exact ⟨x, xs, hx', hxs', rfl⟩

/-- The grammar derives what the parser builds iff the sequence is clean. -/
theorem Sequence.derives_iff_clean : ∀ {s : Sequence} {e : Expression}, s.ParsesTo e →
    (s.Derives e ↔ s.Clean)
  | .operand first rest, e, h => by
    have hSeen := Sequence.ParsesTo.not_seenError h
    obtain ⟨x, word, τ, ⟨hFirst, hWord⟩, hTail, rfl⟩ := Sequence.parsed_view h
    have hLeaves := Rest.Word.leaves (fun _ _ h => Operand.ParsesTo.isLeaf h)
      (fun _ hs _ h => Sequence.ParsesTo.isLeaf hs h) hWord
    rw [Sequence.SeenError, not_or, not_or, not_and] at hSeen
    have hRest := Rest.derives_iff_clean first hWord hTail hSeen.2.1
      (Operand.ParsesTo.isUnaryOnly hFirst) (by simpa using hSeen.2.2)
    rw [Sequence.derives_operand_iff]
    constructor
    · rintro ⟨x', word', τ', hFirst', hWord', hTail', hUnmixed, hPowers, hEq⟩
      have hLeaves' := Rest.Word.leaves (fun _ _ h => Operand.Derives.isLeaf h)
        (fun _ _ _ h => h.elim) hWord'
      obtain ⟨rfl, rfl, rfl, hBuild⟩ := wrap_build_injective (Operand.ParsesTo.isLeaf hFirst)
        (Operand.Derives.isLeaf hFirst') hLeaves hLeaves' hEq
      refine ⟨(Operand.derives_iff_clean hFirst).mp hFirst',
        hRest.mp ⟨hWord', hTail', hPowers⟩, ?_, hUnmixed⟩
      rw [← hWord.operators_eq]
      exact (build_eq_build_iff x word).mp hBuild
    · rintro ⟨hClean, hParts, hAnd, hUnmixed⟩
      obtain ⟨hWord', hTail', hPowers⟩ := hRest.mpr hParts
      rw [← hWord.operators_eq] at hAnd
      refine ⟨x, word, τ, (Operand.derives_iff_clean hFirst).mpr hClean, hWord', hTail', hUnmixed,
        hPowers, ?_⟩
      rw [(build_eq_build_iff x word).mpr hAnd]
  | .assignment target op value, e, h => by
    obtain ⟨t, ht, h⟩ := bind_ok h
    obtain ⟨u, hu, h⟩ := bind_ok h
    obtain ⟨v, hv, h⟩ := bind_ok h
    cases h
    refine Iff.trans ?_ (and_congr (Operand.derives_iff_clean ht) (Sequence.derives_iff_clean hv))
    constructor
    · rintro ⟨t', v', ht', hv', hEq, -⟩
      obtain ⟨-, -, rfl, rfl⟩ := Expression.assignment.inj hEq
      exact ⟨ht', hv'⟩
    · rintro ⟨ht', hv'⟩
      refine ⟨t, v, ht', hv', rfl, ?_⟩
      cases t <;> simp_all [validateLvalueAssignmentTarget, throwSyntaxError,
        Expression.isIdentifier, Expression.isMemberExpression]
  | .arrowFunction n body, e, h => by
    obtain ⟨b, hb, h⟩ := bind_ok h
    cases h
    refine Iff.trans ?_ (Sequence.derives_iff_clean (s := body) hb)
    constructor
    · rintro ⟨b', hb', hEq⟩
      obtain ⟨-, -, rfl⟩ := Expression.arrowFunction.inj hEq
      exact hb'
    · exact fun hb' => ⟨b, hb', rfl⟩
  | .blockFunction n block, e, h => by
    cases h
    exact iff_of_true rfl trivial

/-- The operands, the tail and the powers behind an operand `first` that is parsed to `x`. -/
theorem Rest.derives_iff_clean : ∀ (first : Operand) {r : Rest} {word : Parser.Word}
    {τ : Parser.Tail} {x : Expression}, r.Word Operand.ParsesTo Sequence.ParsesTo word →
      r.Tail Sequence.ParsesTo τ → ¬ r.SeenError →
      x.isUnaryOnly = (first.isUnaryExpression || first.isAwaitExpression) →
      (r.startsWithPower → first.isUnaryExpression = false) →
      ((r.Word Operand.Derives NoSequence word ∧ r.Tail Sequence.Derives τ ∧
          PowersOfUpdates x word) ↔ r.PartsClean first.isAwaitExpression)
  | first, .done, word, τ, x, hWord, hTail, _, _, _ => by
    obtain rfl : word = [] := hWord
    exact iff_of_true ⟨rfl, hTail, trivial⟩ trivial
  | first, .conditional consequent alternate, word, τ, x, hWord, hTail, _, _, _ => by
    obtain rfl : word = [] := hWord
    obtain ⟨c, a, hc, ha, rfl⟩ := hTail
    refine Iff.trans ?_ (and_congr (Sequence.derives_iff_clean hc) (Sequence.derives_iff_clean ha))
    constructor
    · rintro ⟨-, ⟨c', a', hc', ha', hEq⟩, -⟩
      obtain ⟨rfl, rfl⟩ : c = c' ∧ a = a' := by simpa using hEq
      exact ⟨hc', ha'⟩
    · exact fun ⟨hc', ha'⟩ => ⟨rfl, ⟨c, a, hc', ha', rfl⟩, trivial⟩
  | first, .binary op (.operand second rest), word, τ, x, hWord, hTail, hSeen, hUnary, hStart => by
    obtain ⟨y, after, ⟨hSecond, hAfter⟩, rfl⟩ := hWord
    rw [Rest.SeenError, not_or, Sequence.SeenError, not_or, not_or, not_and] at hSeen
    have hRest := Rest.derives_iff_clean second hAfter hTail hSeen.1.2.1
      (Operand.ParsesTo.isUnaryOnly hSecond) (by simpa using hSeen.1.2.2)
    have hOperand := Operand.derives_iff_clean hSecond
    have hPower : (op = .exponentiation → x.isUnaryOnly = false) ↔
        (op = .exponentiation → first.isAwaitExpression = false) := by
      refine imp_congr_right fun hOp => ?_
      subst hOp
      rw [hUnary, hStart rfl, Bool.false_or]
    constructor
    · rintro ⟨⟨y', after', ⟨hSecond', hAfter'⟩, hEq⟩, hTail', hPowers⟩
      obtain ⟨rfl, rfl⟩ : y = y' ∧ after = after' := by simpa using hEq
      exact ⟨hPower.mp hPowers.1, hOperand.mp hSecond', hRest.mp ⟨hAfter', hTail', hPowers.2⟩⟩
    · rintro ⟨hAwait, hClean, hParts⟩
      obtain ⟨hAfter', hTail', hPowers⟩ := hRest.mpr hParts
      exact ⟨⟨y, after, ⟨hOperand.mpr hClean, hAfter'⟩, rfl⟩, hTail',
        ⟨hPower.mpr hAwait, hPowers⟩⟩
  | first, .binary op (.assignment ..), word, τ, x, _, _, _, _, _ => by
    refine iff_of_false ?_ fun h => h.2
    rintro ⟨⟨y, after, ⟨hNot, -⟩, -⟩, -⟩
    exact hNot
  | first, .binary op (.arrowFunction ..), word, τ, x, _, _, _, _, _ => by
    refine iff_of_false ?_ fun h => h.2
    rintro ⟨⟨y, after, ⟨hNot, -⟩, -⟩, -⟩
    exact hNot
  | first, .binary op (.blockFunction ..), word, τ, x, _, _, _, _, _ => by
    refine iff_of_false ?_ fun h => h.2
    rintro ⟨⟨y, after, ⟨hNot, -⟩, -⟩, -⟩
    exact hNot

theorem Sequences.derives_iff_clean : ∀ {ss : Sequences} {es : Expressions},
    ss.parsed = .ok es → (ss.Derives es ↔ ss.Clean)
  | .nil, es, h => by
    cases h
    exact iff_of_true rfl trivial
  | .cons head tail, es, h => by
    obtain ⟨x, hx, h⟩ := bind_ok h
    obtain ⟨xs, hxs, h⟩ := bind_ok h
    cases h
    refine Iff.trans ?_
      (and_congr (Sequence.derives_iff_clean hx) (Sequences.derives_iff_clean hxs))
    constructor
    · rintro ⟨x', xs', hx', hxs', hEq⟩
      cases hEq
      exact ⟨hx', hxs'⟩
    · exact fun ⟨hx', hxs'⟩ => ⟨x, xs, hx', hxs', rfl⟩

end

namespace Sequence

/-- The parser builds the one tree that the grammar derives, or rejects when there is none. -/
def ParsedByGrammar (s : Sequence) : Prop :=
  (∃ e, s.parse = .ok (e, []) ∧ s.Derives e ∧ ∀ e', s.Derives e' → e' = e) ∨
    (∃ message, s.parse = throwSyntaxError message) ∧ ∀ e, ¬ s.Derives e

theorem parse_of_parsesTo {s : Sequence} {e : Expression} (h : s.ParsesTo e) :
    s.parse = .ok (e, []) := by
  rw [parse_eq, show s.parsed = .ok e from h]
  rfl

theorem parsesTo_of_parse {s : Sequence} {e : Expression} (h : s.parse = .ok (e, [])) :
    s.ParsesTo e := by
  rw [parse_eq] at h
  cases hParsed : s.parsed with
  | error f =>
    rw [hParsed] at h
    cases h
  | ok e' =>
    rw [hParsed] at h
    cases h
    exact hParsed

theorem ParsedByGrammar.clean {s : Sequence} (h : s.ParsedByGrammar) (hSeen : ¬ s.SeenError) :
    s.Clean := by
  obtain ⟨hSeen', -⟩ | ⟨-, e, he⟩ := s.outcome
  · exact absurd hSeen' hSeen
  · obtain ⟨e', hParse, hDerives, -⟩ | ⟨⟨m, hParse⟩, -⟩ := h
    · exact (derives_iff_clean (parsesTo_of_parse hParse)).mp hDerives
    · rw [parse_of_parsesTo he] at hParse
      cases hParse

end Sequence

end ArkTs2abc.Es2panda.Parser
