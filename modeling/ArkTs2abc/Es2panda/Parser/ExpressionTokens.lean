import ArkTs2abc.Es2panda.Parser.ExpressionGrammar
import Mathlib.Tactic.Common

/-!
# The parser on the tokens of a sequence

The tokens of a sequence are read to their end, and what is built is given by recursion on the
sequence.

## Main definitions

* `Sequence.parsed` — what the parser builds.
* `Sequence.parse` — the parser run on the tokens.

## Main results

* `Sequence.parse_eq` — both agree.
-/

namespace ArkTs2abc.Es2panda.Parser

/-- What `ParseBinaryExpression` does with a right side. -/
def attachRight (left : Expression) (op : BinaryOperator) : Expression → Parse Expression
  | .conditional false test consequent alternate => do
    let e ← attachLeft left op test
    .ok (.conditional false e consequent alternate)
  | e => attachLeft left op e

theorem attachRight_conditional (left : Expression) (op : BinaryOperator)
    (test consequent alternate : Expression) :
    attachRight left op (.conditional false test consequent alternate) = (do
      let e ← attachLeft left op test
      .ok (.conditional false e consequent alternate)) := rfl

theorem attachRight_of_ne {left : Expression} {op : BinaryOperator} {e : Expression}
    (h : ∀ test consequent alternate, e ≠ .conditional false test consequent alternate) :
    attachRight left op e = attachLeft left op e := by
  unfold attachRight
  split
  · exact absurd rfl (h _ _ _)
  · rfl

mutual

def Operand.parsed : Operand → Parse Expression
  | .identifier n => .ok (.identifier false n)
  | .member n => .ok (.member false n)
  | .operand n => .ok (.operand false n)
  | .unary op argument => do
    let x ← argument.parsed
    if op = .keywDelete ∧ x.isIdentifier then
      throwSyntaxError "Deleting local variable in strict mode"
    else .ok (.unary false op x)
  | .update op argument => do
    let x ← argument.parsed
    if x.isIdentifier || x.isMemberExpression then .ok (.update false op x)
    else throwSyntaxError "Invalid left-hand side in prefix operation"
  | .await argument => do
    let x ← argument.parsed
    .ok (.await false x)
  | .parenthesized first others => do
    let x ← first.parsed
    let xs ← others.parsed
    .ok (parenthesize x xs)

def Sequence.parsed : Sequence → Parse Expression
  | .operand first rest => do
    let x ← first.parsed
    rest.parsed x
  | .assignment target op value => do
    let t ← target.parsed
    validateLvalueAssignmentTarget t
    let v ← value.parsed
    .ok (.assignment false op t v)
  | .arrowFunction n body => do
    let b ← body.parsed
    .ok (.arrowFunction false (.cons (.identifier false n) .nil) b)
  | .blockFunction n block =>
    .ok (.blockFunction false (.cons (.identifier false n) .nil) block)

def Rest.parsed (lhs : Expression) : Rest → Parse Expression
  | .done => .ok lhs
  | .binary op right => do
    if op = .exponentiation ∧ lhs.isUnaryExpression ∧ ¬ lhs.isGrouped then
      throwSyntaxError ("Illegal expression. Wrap left hand side or entire " ++
        "exponentiation in parentheses.")
    let r ← right.parsed
    attachRight lhs op r
  | .conditional consequent alternate => do
    let c ← consequent.parsed
    let a ← alternate.parsed
    .ok (.conditional false lhs c a)

def Sequences.parsed : Sequences → Parse Expressions
  | .nil => .ok .nil
  | .cons head tail => do
    let x ← head.parsed
    let xs ← tail.parsed
    .ok (.cons x xs)

end

/-! ### Checks that always pass -/

theorem convertibleToAssignmentPattern_eq (e : Expression) :
    e.convertibleToAssignmentPattern = true := by
  fun_induction Expression.convertibleToAssignmentPattern e <;> first | assumption | rfl

theorem validateParenthesized_eq (e : Expression) : validateParenthesized e = .ok () := by
  unfold validateParenthesized
  split <;> simp [convertibleToAssignmentPattern_eq]

theorem validateParenthesizedAll_eq : ∀ es : Expressions, validateParenthesizedAll es = .ok ()
  | .nil => rfl
  | .cons e es => by
    rw [validateParenthesizedAll, validateParenthesized_eq, validateParenthesizedAll_eq es]
    rfl

@[simp] theorem validateGrouped_eq (e : Expression) (tokens : List Token) :
    validateGrouped e tokens = .ok () := by
  unfold validateGrouped
  split
  · split
    · exact validateParenthesizedAll_eq _
    · exact validateParenthesized_eq _
  · rfl

/-! ### Tokens -/

namespace Token

/-- The tokens that `ParseAssignmentExpression` goes on with. -/
def continues : Token → Bool
  | binary _ | assignment _ | questionMark | arrow => true
  | _ => false

/-- The first tokens of operands. -/
def startsOperand : Token → Bool
  | identifier _ | member _ | operand _ | leftParenthesis => true
  | token => token.isUnary

end Token

def Stops (tokens : List Token) : Prop :=
  ∀ t ∈ tokens.head?, t.continues = false

theorem UnaryOperator.isUnary_token (op : UnaryOperator) : op.token.isUnary := by
  cases op <;> rfl

theorem UnaryOperator.unaryOperator?_token (op : UnaryOperator) :
    op.token.unaryOperator? = some op := by
  cases op <;> rfl

theorem Operand.tokens_eq_cons (o : Operand) :
    ∃ t ts, o.tokens = t :: ts ∧ t.startsOperand := by
  cases o with
  | unary op argument =>
    refine ⟨op.token, argument.tokens, rfl, ?_⟩
    cases op <;> rfl
  | _ => exact ⟨_, _, rfl, rfl⟩

theorem Sequence.tokens_eq_cons (s : Sequence) :
    ∃ t ts, s.tokens = t :: ts ∧ t.startsOperand := by
  cases s with
  | operand first rest =>
    obtain ⟨t, ts, h, ht⟩ := first.tokens_eq_cons
    exact ⟨t, ts ++ rest.tokens, by simp [tokens, h], ht⟩
  | assignment target op value =>
    obtain ⟨t, ts, h, ht⟩ := target.tokens_eq_cons
    exact ⟨t, ts ++ .assignment op :: value.tokens, by simp [tokens, h], ht⟩
  | _ => exact ⟨_, _, rfl, rfl⟩

/-! ### Reading an operand -/

/-- A result before the tokens `rest`. -/
def before {α : Type} (rest : List Token) (r : Parse α) : Parse (α × List Token) :=
  r.map fun e => (e, rest)

@[simp] theorem before_ok {α : Type} (rest : List Token) (e : α) :
    before rest (.ok e : Parse α) = .ok (e, rest) := rfl

@[simp] theorem before_error {α : Type} (rest : List Token) (f : Failure) :
    before rest (.error f : Parse α) = .error f := rfl

@[simp] theorem ok_bind {α β : Type} (a : α) (f : α → Parse β) :
    ((.ok a : Parse α) >>= f) = f a := rfl

@[simp] theorem error_bind {α β : Type} (e : Failure) (f : α → Parse β) :
    ((.error e : Parse α) >>= f) = .error e := rfl

namespace Operand

def startsUnary : Operand → Bool
  | unary .. | update .. | await .. => true
  | _ => false

theorem isUnary_head (o : Operand) :
    ∃ t ts, o.tokens = t :: ts ∧ t.isUnary = o.startsUnary := by
  cases o with
  | unary op argument => exact ⟨op.token, argument.tokens, rfl, op.isUnary_token⟩
  | _ => exact ⟨_, _, rfl, rfl⟩

/-- The tokens of an operand are read, by the function that its first token selects. -/
def Reads (o : Operand) : Prop :=
  if o.startsUnary then
    ∀ fuel rest, 4 * o.tokens.length ≤ fuel + 2 →
      parseUnaryOrPrefixUpdateExpression fuel (o.tokens ++ rest) = before rest o.parsed
  else
    ∀ fuel rest, 4 * o.tokens.length ≤ fuel + 3 →
      parseLeftHandSideExpression fuel (o.tokens ++ rest) = before rest o.parsed

theorem Reads.unaryOrPrefixUpdate {o : Operand} (h : o.Reads) {fuel : ℕ} (rest : List Token)
    (hFuel : 4 * o.tokens.length ≤ fuel + 2) :
    parseUnaryOrPrefixUpdateExpression fuel (o.tokens ++ rest) = before rest o.parsed := by
  unfold Reads at h
  split at h
  case isTrue => exact h fuel rest hFuel
  case isFalse hStart =>
    obtain ⟨t, ts, hTokens, hUnary⟩ := o.isUnary_head
    cases fuel with
    | zero =>
      rw [hTokens] at hFuel
      simp only [List.length_cons] at hFuel
      omega
    | succ fuel =>
      have hPrimary := h fuel rest (by omega)
      rw [hTokens] at hPrimary ⊢
      simp_all [parseUnaryOrPrefixUpdateExpression]

theorem Reads.argument {o : Operand} (h : o.Reads) (fuel : ℕ) (rest : List Token)
    (hFuel : 4 * o.tokens.length ≤ fuel + 2) :
    (if ((o.tokens ++ rest).head?.map Token.isUnary).getD false then
        parseUnaryOrPrefixUpdateExpression fuel (o.tokens ++ rest)
      else parseLeftHandSideExpression fuel (o.tokens ++ rest)) = before rest o.parsed := by
  obtain ⟨t, ts, hTokens, hUnary⟩ := o.isUnary_head
  have hHead : ((o.tokens ++ rest).head?.map Token.isUnary).getD false = o.startsUnary := by
    simp [hTokens, hUnary]
  unfold Reads at h
  split at h
  case isTrue hStart =>
    rw [hHead, if_pos hStart]
    exact h fuel rest hFuel
  case isFalse hStart =>
    rw [hHead, if_neg hStart]
    exact h fuel rest (by omega)

theorem reads_of_token {o : Operand} (t : Token) (hTokens : o.tokens = [t])
    (hStart : o.startsUnary = false)
    (h : ∀ fuel rest, parseLeftHandSideExpression (fuel + 1) (t :: rest) = before rest o.parsed) :
    o.Reads := by
  unfold Reads
  rw [hStart, hTokens]
  intro fuel rest hFuel
  obtain ⟨fuel, rfl⟩ : ∃ f, fuel = f + 1 := by
    simp only [List.length_singleton] at hFuel
    exact ⟨fuel - 1, by omega⟩
  exact h fuel rest

theorem reads_unary {op : UnaryOperator} {argument : Operand} (h : argument.Reads) :
    (unary op argument).Reads := by
  intro fuel rest hFuel
  cases fuel with
  | zero =>
    simp only [tokens, List.length_cons] at hFuel
    omega
  | succ fuel =>
    have hArgument := h.argument fuel rest (by simp [tokens] at hFuel; omega)
    simp only [tokens, List.cons_append, parseUnaryOrPrefixUpdateExpression, op.isUnary_token,
      hArgument, parsed]
    cases hParsed : argument.parsed with
    | error e => simp
    | ok x =>
      cases op <;> simp [UnaryOperator.token, Token.unaryOperator?]
      -- the operator `delete`
      split <;> rfl

theorem reads_update {op : UpdateOperator} {argument : Operand} (h : argument.Reads) :
    (update op argument).Reads := by
  intro fuel rest hFuel
  cases fuel with
  | zero =>
    simp only [tokens, List.length_cons] at hFuel
    omega
  | succ fuel =>
    have hArgument := h.argument fuel rest (by simp [tokens] at hFuel; omega)
    simp only [tokens, List.cons_append, parseUnaryOrPrefixUpdateExpression, Token.isUnary,
      hArgument, parsed]
    cases hParsed : argument.parsed with
    | error e => simp
    | ok x =>
      simp only [before_ok, ok_bind, Bool.not_true, Bool.false_eq_true, if_false]
      split <;> rfl

theorem reads_await {argument : Operand} (h : argument.Reads) : (await argument).Reads := by
  intro fuel rest hFuel
  cases fuel with
  | zero =>
    simp only [tokens, List.length_cons] at hFuel
    omega
  | succ fuel =>
    have hArgument := h.argument fuel rest (by simp [tokens] at hFuel; omega)
    simp only [tokens, List.cons_append, parseUnaryOrPrefixUpdateExpression, Token.isUnary,
      hArgument, parsed]
    cases hParsed : argument.parsed <;> simp

end Operand

/-! ### Reading a sequence -/

/-- `parseExpression` without what follows a comma. -/
def readAssignment (fuel : ℕ) (tokens : List Token) : Parse (Expression × List Token) := do
  let (unaryExpressionNode, tokens) ← parseUnaryOrPrefixUpdateExpression fuel tokens
  parseAssignmentExpression fuel unaryExpressionNode tokens

@[simp] theorem parseExpression_succ_false (fuel : ℕ) (tokens : List Token) :
    parseExpression (fuel + 1) false tokens = readAssignment fuel tokens := by
  unfold readAssignment
  rw [parseExpression]
  cases parseUnaryOrPrefixUpdateExpression fuel tokens with
  | error e => rfl
  | ok r =>
    simp only [ok_bind]
    cases parseAssignmentExpression fuel r.1 r.2 <;> rfl

theorem parseExpression_succ_true {fuel : ℕ} {tokens rest : List Token} {r : Parse Expression}
    (h : readAssignment fuel tokens = before rest r) :
    parseExpression (fuel + 1) true tokens = (do
      let e ← r
      match rest with
      | .comma :: _ => do
        let (tail, rest) ← parseSequenceExpression fuel rest
        .ok (.sequence false (.cons e tail), rest)
      | _ => .ok (e, rest)) := by
  unfold readAssignment at h
  rw [parseExpression]
  cases hUnary : parseUnaryOrPrefixUpdateExpression fuel tokens with
  | error e =>
    cases r <;> simp_all
  | ok u =>
    simp only [hUnary, ok_bind] at h ⊢
    rw [h]
    cases r with
    | error e => rfl
    | ok e =>
      simp only [before_ok, ok_bind]
      rcases rest with _ | ⟨t, rest⟩
      · rfl
      · cases t <;> rfl

def Sequence.Reads (s : Sequence) : Prop :=
  ∀ fuel rest, Stops rest → 4 * s.tokens.length ≤ fuel + 2 →
    readAssignment fuel (s.tokens ++ rest) = before rest s.parsed

def Rest.Reads (r : Rest) : Prop :=
  ∀ fuel lhs rest, Stops rest → 4 * r.tokens.length + 1 ≤ fuel →
    parseAssignmentExpression fuel lhs (r.tokens ++ rest) = before rest (r.parsed lhs)

def Sequences.Reads (ss : Sequences) : Prop :=
  ∀ fuel rest, 4 * ss.tokens.length + 1 ≤ fuel →
    parseSequenceExpression fuel (ss.tokens ++ .rightParenthesis :: rest) =
      before (.rightParenthesis :: rest) ss.parsed

theorem Sequence.Reads.parseExpression {s : Sequence} (h : s.Reads) (fuel : ℕ)
    {rest : List Token} (hStops : Stops rest) (hFuel : 4 * s.tokens.length ≤ fuel + 1) :
    parseExpression fuel false (s.tokens ++ rest) = before rest s.parsed := by
  cases fuel with
  | zero =>
    obtain ⟨t, ts, hTokens, -⟩ := s.tokens_eq_cons
    rw [hTokens, List.length_cons] at hFuel
    omega
  | succ fuel =>
    rw [parseExpression_succ_false]
    exact h fuel rest hStops (by omega)

@[simp] theorem stops_nil : Stops [] := by simp [Stops]

@[simp] theorem stops_cons (t : Token) (rest : List Token) :
    Stops (t :: rest) ↔ t.continues = false := by
  simp [Stops]

/-- What stops the parser is what `ParseAssignmentExpression` returns at. -/
theorem parseAssignmentExpression_of_stops {fuel : ℕ} {lhs : Expression} {rest : List Token}
    (hStops : Stops rest) : parseAssignmentExpression (fuel + 1) lhs rest = .ok (lhs, rest) := by
  rcases rest with _ | ⟨t, rest⟩
  · simp [parseAssignmentExpression]
  · cases t <;> simp_all [Token.continues, parseAssignmentExpression]

namespace Rest

theorem reads_done : done.Reads := by
  intro fuel lhs rest hStops hFuel
  obtain ⟨fuel, rfl⟩ : ∃ f, fuel = f + 1 := ⟨fuel - 1, by omega⟩
  simpa [tokens, parsed] using parseAssignmentExpression_of_stops hStops

theorem reads_conditional {consequent alternate : Sequence} (hConsequent : consequent.Reads)
    (hAlternate : alternate.Reads) : (conditional consequent alternate).Reads := by
  intro fuel lhs rest hStops hFuel
  simp only [tokens, List.length_cons, List.length_append] at hFuel
  obtain ⟨fuel, rfl⟩ : ∃ f, fuel = f + 1 := ⟨fuel - 1, by omega⟩
  have hThen := hConsequent.parseExpression fuel
    ((stops_cons .colon (alternate.tokens ++ rest)).mpr rfl) (by omega)
  have hElse := hAlternate.parseExpression fuel hStops (by omega)
  simp only [tokens, List.cons_append, List.append_assoc, parseAssignmentExpression,
    validateGrouped_eq, ok_bind, hThen, parsed]
  cases consequent.parsed with
  | error e => rfl
  | ok c =>
    simp only [before_ok, ok_bind, hElse]
    cases alternate.parsed <;> rfl

/-- `parseBinaryExpression` behind the right side. -/
theorem parseBinaryExpression_right (left : Expression) (op : BinaryOperator) {fuel : ℕ}
    {tokens rest : List Token} {right : Sequence}
    (h : parseExpression fuel false tokens = before rest right.parsed) :
    parseBinaryExpression (fuel + 1) left op tokens =
      before rest ((binary op right).parsed left) := by
  simp only [parseBinaryExpression, parsed]
  split
  · rfl
  · rw [h]
    cases right.parsed with
    | error e => rfl
    | ok r =>
      simp only [before_ok, ok_bind]
      split
      case h_1 test consequent alternate =>
        rw [attachRight_conditional]
        cases attachLeft left op test <;> rfl
      case h_2 hNot =>
        rw [attachRight_of_ne hNot]
        cases attachLeft left op r <;> rfl

theorem reads_binary {op : BinaryOperator} {right : Sequence} (hRight : right.Reads) :
    (binary op right).Reads := by
  intro fuel lhs rest hStops hFuel
  simp only [tokens, List.length_cons] at hFuel
  obtain ⟨fuel, rfl⟩ : ∃ f, fuel = f + 3 := ⟨fuel - 3, by omega⟩
  have hBinary := parseBinaryExpression_right lhs op
    (hRight.parseExpression (fuel + 1) hStops (by omega))
  simp only [tokens, List.cons_append]
  rw [parseAssignmentExpression]
  simp only [validateGrouped_eq, ok_bind, hBinary]
  cases (binary op right).parsed lhs with
  | error e => rfl
  | ok e =>
    simp only [before_ok, ok_bind]
    exact parseAssignmentExpression_of_stops hStops

end Rest

namespace Sequence

theorem reads_operand {first : Operand} {rest : Rest} (hFirst : first.Reads)
    (hRest : rest.Reads) : (operand first rest).Reads := by
  intro fuel following hStops hFuel
  obtain ⟨t, ts, hTokens, -⟩ := first.tokens_eq_cons
  have hLength : 0 < first.tokens.length := by simp [hTokens]
  simp only [tokens, List.length_append] at hFuel
  unfold readAssignment
  simp only [tokens, List.append_assoc, parsed]
  rw [hFirst.unaryOrPrefixUpdate (rest.tokens ++ following) (by omega)]
  cases first.parsed with
  | error e => rfl
  | ok x =>
    simp only [before_ok, ok_bind]
    exact hRest fuel x following hStops (by omega)

theorem reads_assignment {target : Operand} {op : AssignmentOperator} {value : Sequence}
    (hTarget : target.Reads) (hValue : value.Reads) : (assignment target op value).Reads := by
  intro fuel following hStops hFuel
  obtain ⟨t, ts, hTokens, -⟩ := target.tokens_eq_cons
  have hLength : 0 < target.tokens.length := by simp [hTokens]
  simp only [tokens, List.length_append, List.length_cons] at hFuel
  obtain ⟨fuel, rfl⟩ : ∃ f, fuel = f + 1 := ⟨fuel - 1, by omega⟩
  unfold readAssignment
  simp only [tokens, List.append_assoc, List.cons_append, parsed]
  rw [hTarget.unaryOrPrefixUpdate (.assignment op :: (value.tokens ++ following)) (by omega)]
  cases target.parsed with
  | error e => rfl
  | ok x =>
    simp only [before_ok, ok_bind]
    rw [parseAssignmentExpression]
    simp only [validateGrouped_eq, ok_bind]
    cases validateLvalueAssignmentTarget x with
    | error e => rfl
    | ok u =>
      simp only [ok_bind]
      rw [hValue.parseExpression fuel hStops (by omega)]
      cases value.parsed <;> rfl

theorem readAssignment_arrow (fuel n : ℕ) (rest : List Token) :
    readAssignment (fuel + 2) (.identifier n :: .arrow :: rest) =
      parseArrowFunctionExpressionBody (fuel + 1) (.cons (.identifier false n) .nil) rest := by
  simp [readAssignment, parseUnaryOrPrefixUpdateExpression, parseLeftHandSideExpression,
    parseAssignmentExpression, convertToArrowParameter, validateArrowParameter, Token.isUnary,
    Token.unaryOperator?]

theorem reads_arrowFunction {n : ℕ} {body : Sequence} (hBody : body.Reads) :
    (arrowFunction n body).Reads := by
  intro fuel following hStops hFuel
  obtain ⟨t, ts, hTokens, hStart⟩ := body.tokens_eq_cons
  simp only [tokens, List.length_cons] at hFuel
  obtain ⟨fuel, rfl⟩ : ∃ f, fuel = f + 2 := ⟨fuel - 2, by omega⟩
  have hExpression := hBody.parseExpression fuel hStops (by omega)
  simp only [tokens, List.cons_append, readAssignment_arrow, parsed]
  rw [hTokens] at hExpression ⊢
  -- the body is no block
  have hBlock : ∀ block, t ≠ .block block := by
    rintro block rfl
    cases hStart
  rw [List.cons_append, parseArrowFunctionExpressionBody]
  · rw [← List.cons_append, hExpression]
    cases body.parsed <;> rfl
  · intro block rest h
    exact hBlock block (List.cons.inj h).1

theorem reads_blockFunction (n block : ℕ) : (blockFunction n block).Reads := by
  intro fuel following hStops hFuel
  simp only [tokens, List.length_cons] at hFuel
  obtain ⟨fuel, rfl⟩ : ∃ f, fuel = f + 2 := ⟨fuel - 2, by omega⟩
  simp only [tokens, List.cons_append, readAssignment_arrow, parsed]
  rw [List.nil_append, parseArrowFunctionExpressionBody]
  rfl

end Sequence

namespace Sequences

theorem reads_nil : nil.Reads := by
  intro fuel rest hFuel
  obtain ⟨fuel, rfl⟩ : ∃ f, fuel = f + 1 := ⟨fuel - 1, by omega⟩
  simp [tokens, parseSequenceExpression, parsed]

theorem stops_tokens (ss : Sequences) (rest : List Token) :
    Stops (ss.tokens ++ .rightParenthesis :: rest) := by
  cases ss <;> simp [tokens, Token.continues]

theorem reads_cons {head : Sequence} {tail : Sequences} (hHead : head.Reads)
    (hTail : tail.Reads) : (cons head tail).Reads := by
  intro fuel rest hFuel
  obtain ⟨t, ts, hTokens, hStart⟩ := head.tokens_eq_cons
  simp only [tokens, List.length_cons, List.length_append] at hFuel
  obtain ⟨fuel, rfl⟩ : ∃ f, fuel = f + 1 := ⟨fuel - 1, by omega⟩
  have hExpression := hHead.parseExpression fuel (tail.stops_tokens rest) (by omega)
  simp only [tokens, List.cons_append, List.append_assoc, parsed]
  rw [hTokens] at hExpression ⊢
  -- the comma is not the last one before a closing parenthesis
  have hParenthesis : t ≠ .rightParenthesis := by
    rintro rfl
    cases hStart
  rw [List.cons_append] at hExpression ⊢
  rw [parseSequenceExpression]
  · rw [hExpression]
    cases head.parsed with
    | error e => rfl
    | ok x =>
      simp only [before_ok, ok_bind]
      rw [hTail fuel rest (by omega)]
      cases tail.parsed <;> rfl
  · intro tokens h
    exact hParenthesis (List.cons.inj h).1

end Sequences

namespace Operand

theorem reads_parenthesized {first : Sequence} {others : Sequences} (hFirst : first.Reads)
    (hOthers : others.Reads) : (parenthesized first others).Reads := by
  intro fuel rest hFuel
  obtain ⟨t, ts, hTokens, hStart⟩ := first.tokens_eq_cons
  simp only [tokens, List.length_cons, List.length_append, List.length_nil] at hFuel
  obtain ⟨fuel, rfl⟩ : ∃ f, fuel = f + 2 := ⟨fuel - 2, by omega⟩
  have hAssignment := parseExpression_succ_true
    (hFirst fuel (others.tokens ++ .rightParenthesis :: rest) (others.stops_tokens rest)
      (by omega))
  simp only [tokens, List.cons_append, List.append_assoc, List.nil_append, parsed]
  rw [hTokens] at hAssignment ⊢
  have hParenthesis : t ≠ .rightParenthesis := by
    rintro rfl
    cases hStart
  rw [List.cons_append] at hAssignment ⊢
  rw [parseLeftHandSideExpression]
  · rw [hAssignment]
    cases first.parsed with
    | error e => rfl
    | ok x =>
      cases others with
      | nil => simp [Sequences.tokens, Sequences.parsed, parenthesize]
      | cons head tail =>
        have hSequence := hOthers fuel rest (by omega)
        simp only [Sequences.tokens, List.cons_append, ok_bind] at hSequence ⊢
        rw [hSequence]
        simp only [Sequences.parsed]
        cases head.parsed with
        | error e => rfl
        | ok y => cases tail.parsed <;> rfl
  · intro tokens h
    exact hParenthesis (List.cons.inj h).1

end Operand

mutual

theorem Operand.reads : ∀ o : Operand, o.Reads
  | .identifier n => Operand.reads_of_token (.identifier n) rfl rfl fun _ _ => rfl
  | .member n => Operand.reads_of_token (.member n) rfl rfl fun _ _ => rfl
  | .operand n => Operand.reads_of_token (.operand n) rfl rfl fun _ _ => rfl
  | .unary _ argument => Operand.reads_unary argument.reads
  | .update _ argument => Operand.reads_update argument.reads
  | .await argument => Operand.reads_await argument.reads
  | .parenthesized first others => Operand.reads_parenthesized first.reads others.reads

theorem Sequence.reads : ∀ s : Sequence, s.Reads
  | .operand first rest => Sequence.reads_operand first.reads rest.reads
  | .assignment target _ value => Sequence.reads_assignment target.reads value.reads
  | .arrowFunction _ body => Sequence.reads_arrowFunction body.reads
  | .blockFunction n block => Sequence.reads_blockFunction n block

theorem Rest.reads : ∀ r : Rest, r.Reads
  | .done => Rest.reads_done
  | .binary _ right => Rest.reads_binary right.reads
  | .conditional consequent alternate =>
    Rest.reads_conditional consequent.reads alternate.reads

theorem Sequences.reads : ∀ ss : Sequences, ss.Reads
  | .nil => Sequences.reads_nil
  | .cons head tail => Sequences.reads_cons head.reads tail.reads

end

/-- The parser run on the tokens of a sequence, with enough fuel. -/
def Sequence.parse (s : Sequence) : Parse (Expression × List Token) :=
  parseExpression (4 * s.tokens.length) false s.tokens

theorem Sequence.parse_eq (s : Sequence) : s.parse = before [] s.parsed := by
  have h := s.reads.parseExpression (4 * s.tokens.length) stops_nil (by omega)
  simpa [parse] using h

end ArkTs2abc.Es2panda.Parser
