import Mathlib.Data.Nat.Notation
import Mathlib.Tactic.Common

/-!
# Arguments

`ParseCallExpression` and `ParseNewExpression` read the same list with two loops. The functions for an
expression and for a type are parameters; what they leave of the tokens is all that the loops look at.

## Main definitions

* `callArguments`, `newArguments` — the two loops.
* `parseCallExpression`, `parseNewExpression` — what is around them.
* `Arguments` — the argument lists of the grammar.
* `LooseArguments` — lists in which commas may be missing and types may follow a spread.

## Main results

* `readsArguments_iff` — where both loops read just the lists of the grammar.
-/

namespace ArkTs2abc.Es2panda.Parser.Call

inductive Token where
  | punctuatorLeftParenthesis
  | punctuatorRightParenthesis
  | punctuatorComma
  | punctuatorPeriodPeriodPeriod
  | punctuatorColon
  | other (text : String)
  deriving DecidableEq, Repr

/-- `ParseExpression`, with `ALLOW_TS_PARAM_TOKEN` or without, and `ParseTsTypeAnnotation`, outside
TypeScript. -/
structure ExpressionParser (E T : Type) where
  parseExpression : Bool → List Token → Option (E × List Token)
  parseTsType : List Token → Option (T × List Token)
  /-- The flag is for TypeScript. -/
  flag : ∀ tokens, parseExpression true tokens = parseExpression false tokens
  parseExpression_lt : ∀ {tsParam tokens e rest},
    parseExpression tsParam tokens = some (e, rest) → rest.length < tokens.length
  parseTsType_le : ∀ {tokens t rest},
    parseTsType tokens = some (t, rest) → rest.length ≤ tokens.length
  parseExpression_rightParenthesis : ∀ tsParam rest,
    parseExpression tsParam (.punctuatorRightParenthesis :: rest) = none
  parseExpression_periodPeriodPeriod : ∀ tsParam rest,
    parseExpression tsParam (.punctuatorPeriodPeriodPeriod :: rest) = none

inductive Argument (E T : Type) where
  | expression (e : E)
  | spreadElement (argument : E) (tsType : Option T)
  deriving DecidableEq

def Argument.tsType {E T : Type} : Argument E T → Option T
  | .expression _ => none
  | .spreadElement _ tsType => tsType

variable {E T : Type} (P : ExpressionParser E T)

/-- `ParseSpreadElement` outside patterns, from behind the three dots on. -/
def parseSpreadElement (tokens : List Token) : Option (Argument E T × List Token) := do
  let (argument, tokens) ← P.parseExpression false tokens
  if tokens.head? = some .punctuatorColon then do
    let (tsType, tokens) ← P.parseTsType tokens.tail
    some (.spreadElement argument (some tsType), tokens)
  else some (.spreadElement argument none, tokens)

def parseArgument (tsParam : Bool) (tokens : List Token) : Option (Argument E T × List Token) :=
  if tokens.head? = some .punctuatorPeriodPeriodPeriod then parseSpreadElement P tokens.tail
  else (P.parseExpression tsParam tokens).map fun (e, rest) => (.expression e, rest)

/-- The loop over the arguments of `ParseCallExpression`, for at most `n` rounds: the arguments, and what
is behind the right parenthesis. -/
def callArguments (isAsync : Bool) : ℕ → List Token → Option (List (Argument E T) × List Token)
  | 0, _ => none
  | n + 1, tokens =>
    if tokens.head? = some .punctuatorRightParenthesis then some ([], tokens.tail)
    else do
      let (argument, tokens) ← parseArgument P isAsync tokens
      if tokens.head? = some .punctuatorComma then do
        let (arguments, rest) ← callArguments isAsync n tokens.tail
        some (argument :: arguments, rest)
      else if tokens.head? ≠ some .punctuatorRightParenthesis then none  -- "Expected a ')'"
      else do
        let (arguments, rest) ← callArguments isAsync n tokens
        some (argument :: arguments, rest)

/-- The loop of `ParseNewExpression`. -/
def newArguments : ℕ → List Token → Option (List (Argument E T) × List Token)
  | 0, _ => none
  | n + 1, tokens =>
    if tokens.head? = some .punctuatorRightParenthesis then some ([], tokens.tail)
    else do
      let (argument, tokens) ← parseArgument P false tokens
      let tokens := if tokens.head? = some .punctuatorComma then tokens.tail else tokens
      if tokens = [] then none  -- "Unexpected token in argument parsing"
      else do
        let (arguments, rest) ← newArguments n tokens
        some (argument :: arguments, rest)

/-- `ParseCallExpression` from behind its left parenthesis on, for at most `n` calls: the arguments of
each call, the inner one first. -/
def parseCallExpression (isAsync : Bool) :
    ℕ → List Token → Option (List (List (Argument E T)) × List Token)
  | 0, _ => none
  | n + 1, tokens => do
    let (arguments, tokens) ← callArguments P isAsync (tokens.length + 1) tokens
    if tokens.head? ≠ some .punctuatorLeftParenthesis then some ([arguments], tokens)
    else do
      let (calls, rest) ← parseCallExpression isAsync n tokens.tail
      some (arguments :: calls, rest)

/-- `ParseNewExpression` from behind its callee on. -/
def parseNewExpression (tokens : List Token) : Option (List (Argument E T) × List Token) :=
  if tokens.head? ≠ some .punctuatorLeftParenthesis then some ([], tokens)
  else newArguments P (tokens.tail.length + 1) tokens.tail

/-! ## The grammar -/

/-- An element of an argument list: what it is, and what is behind it. -/
inductive ReadsArgument : List Token → Argument E T → List Token → Prop where
  | expression {tokens rest : List Token} {e : E}
      (h : P.parseExpression false tokens = some (e, rest)) : ReadsArgument tokens (.expression e) rest
  | spreadElement {tokens rest : List Token} {e : E}
      (h : P.parseExpression false tokens = some (e, rest)) :
      ReadsArgument (.punctuatorPeriodPeriodPeriod :: tokens) (.spreadElement e none) rest

inductive ArgumentList : List Token → List (Argument E T) → List Token → Prop where
  | last {tokens rest : List Token} {argument : Argument E T}
      (h : ReadsArgument P tokens argument rest) : ArgumentList tokens [argument] rest
  | more {tokens tail rest : List Token} {argument : Argument E T} {arguments : List (Argument E T)}
      (h : ReadsArgument P tokens argument (.punctuatorComma :: tail)) :
      ArgumentList tail arguments rest → ArgumentList tokens (argument :: arguments) rest

/-- What may follow a left parenthesis, up to the matching one. -/
inductive Arguments : List Token → List (Argument E T) → List Token → Prop where
  | empty (rest : List Token) : Arguments (.punctuatorRightParenthesis :: rest) [] rest
  | list {tokens rest : List Token} {arguments : List (Argument E T)}
      (h : ArgumentList P tokens arguments (.punctuatorRightParenthesis :: rest)) :
      Arguments tokens arguments rest
  | trailingComma {tokens rest : List Token} {arguments : List (Argument E T)}
      (h : ArgumentList P tokens arguments (.punctuatorComma :: .punctuatorRightParenthesis :: rest)) :
      Arguments tokens arguments rest

/-- One list of arguments after the other, with what is behind the last one. -/
inductive Calls : List Token → List (List (Argument E T)) → List Token → Prop where
  | last {tokens rest : List Token} {arguments : List (Argument E T)} (h : Arguments P tokens arguments rest)
      (hrest : rest.head? ≠ some .punctuatorLeftParenthesis) : Calls tokens [arguments] rest
  | more {tokens tail rest : List Token} {arguments : List (Argument E T)}
      {calls : List (List (Argument E T))}
      (h : Arguments P tokens arguments (.punctuatorLeftParenthesis :: tail)) :
      Calls tail calls rest → Calls tokens (arguments :: calls) rest

/-- Lists of arguments that may have a type behind a spread, and nothing between two arguments. The flag
says that a comma is missing. -/
inductive LooseArguments : List Token → List (Argument E T) → Bool → List Token → Prop where
  | empty (rest : List Token) : LooseArguments (.punctuatorRightParenthesis :: rest) [] false rest
  | last {tokens rest : List Token} {argument : Argument E T}
      (h : parseArgument P false tokens = some (argument, .punctuatorRightParenthesis :: rest)) :
      LooseArguments tokens [argument] false rest
  | comma {tokens tail rest : List Token} {argument : Argument E T} {arguments : List (Argument E T)}
      {missing : Bool}
      (h : parseArgument P false tokens = some (argument, .punctuatorComma :: tail)) :
      LooseArguments tail arguments missing rest →
      LooseArguments tokens (argument :: arguments) missing rest
  | missing {tokens tail rest : List Token} {argument : Argument E T} {arguments : List (Argument E T)}
      {missing : Bool} (h : parseArgument P false tokens = some (argument, tail))
      (hcomma : tail.head? ≠ some .punctuatorComma)
      (hclose : tail.head? ≠ some .punctuatorRightParenthesis) :
      LooseArguments tail arguments missing rest →
      LooseArguments tokens (argument :: arguments) true rest

/-- Behind a left parenthesis, both functions read just the lists of the grammar. -/
def ReadsArguments (tokens : List Token) : Prop :=
  ∀ isAsync arguments rest,
    (callArguments P isAsync (tokens.length + 1) tokens = some (arguments, rest) ↔
      Arguments P tokens arguments rest) ∧
    (parseNewExpression P (.punctuatorLeftParenthesis :: tokens) = some (arguments, rest) ↔
      Arguments P tokens arguments rest)

/-- No comma is missing, and no type follows a spread. -/
def Strict (tokens : List Token) : Prop :=
  ∀ arguments missing rest, LooseArguments P tokens arguments missing rest →
    missing = false ∧ ∀ argument ∈ arguments, argument.tsType = none

/-- The places behind the left parentheses of a chain of calls. -/
inductive CallStart : List Token → List Token → Prop where
  | first (tokens : List Token) : CallStart tokens tokens
  | next {tokens tail start : List Token} {arguments : List (Argument E T)}
      (h : Arguments P tokens arguments (.punctuatorLeftParenthesis :: tail)) :
      CallStart tail start → CallStart tokens start

/-! ## One argument -/

variable {P} {argument : Argument E T} {rest tokens : List Token} {arguments : List (Argument E T)}

theorem parseSpreadElement_lt (h : parseSpreadElement P tokens = some (argument, rest)) :
    rest.length < tokens.length := by
  rw [parseSpreadElement, Option.bind_eq_bind, Option.bind_eq_some_iff] at h
  obtain ⟨⟨e, tokens'⟩, he, h⟩ := h
  have hlt := P.parseExpression_lt he
  dsimp only at h
  split at h
  next hcolon =>
    obtain ⟨⟨t, tokens''⟩, ht, h⟩ := Option.bind_eq_some_iff.mp h
    have hle := P.parseTsType_le ht
    dsimp only at h
    obtain ⟨-, rfl⟩ := Prod.mk.inj (Option.some.inj h)
    rw [List.length_tail] at hle
    omega
  next =>
    obtain ⟨-, rfl⟩ := Prod.mk.inj (Option.some.inj h)
    exact hlt

theorem parseArgument_lt {tsParam : Bool}
    (h : parseArgument P tsParam tokens = some (argument, rest)) : rest.length < tokens.length := by
  unfold parseArgument at h
  split at h
  next hspread =>
    have hlt := parseSpreadElement_lt h
    rw [List.length_tail] at hlt
    omega
  next =>
    obtain ⟨⟨e, rest'⟩, he, heq⟩ := Option.map_eq_some_iff.mp h
    obtain ⟨-, rfl⟩ := Prod.mk.inj heq
    exact P.parseExpression_lt he

theorem parseArgument_flag (tsParam : Bool) (tokens : List Token) :
    parseArgument P tsParam tokens = parseArgument P false tokens := by
  cases tsParam with
  | false => rfl
  | true => rw [parseArgument, parseArgument, P.flag]

theorem parseArgument_rightParenthesis (rest : List Token) :
    parseArgument P false (.punctuatorRightParenthesis :: rest) = none := by
  simp [parseArgument, P.parseExpression_rightParenthesis]

/-- The grammar has the arguments without a type. -/
theorem readsArgument_iff (hcolon : rest.head? ≠ some .punctuatorColon) :
    ReadsArgument P tokens argument rest ↔
      parseArgument P false tokens = some (argument, rest) ∧ argument.tsType = none := by
  constructor
  · rintro (⟨h⟩ | @⟨tokens, _, e, h⟩)
    · refine ⟨?_, rfl⟩
      have hne : tokens.head? ≠ some .punctuatorPeriodPeriodPeriod := by
        intro hhead
        obtain ⟨tail, rfl⟩ := List.head?_eq_some_iff.mp hhead
        rw [P.parseExpression_periodPeriodPeriod] at h
        cases h
      rw [parseArgument, if_neg hne, h]
      rfl
    · refine ⟨?_, rfl⟩
      rw [parseArgument, List.head?_cons, if_pos rfl, List.tail_cons, parseSpreadElement, h]
      simp [hcolon]
  · rintro ⟨h, htype⟩
    unfold parseArgument at h
    split at h
    next hspread =>
      obtain ⟨tail, rfl⟩ := List.head?_eq_some_iff.mp hspread
      rw [List.tail_cons, parseSpreadElement, Option.bind_eq_bind, Option.bind_eq_some_iff] at h
      obtain ⟨⟨e, tokens'⟩, he, h⟩ := h
      dsimp only at h
      split at h
      next =>
        obtain ⟨⟨t, tokens''⟩, -, h⟩ := Option.bind_eq_some_iff.mp h
        obtain ⟨rfl, -⟩ := Prod.mk.inj (Option.some.inj h)
        cases htype
      next =>
        cases h
        exact .spreadElement he
    next =>
      obtain ⟨⟨e, rest'⟩, he, heq⟩ := Option.map_eq_some_iff.mp h
      cases heq
      exact .expression he

/-! ## The two loops -/

theorem head?_ne_of_parseArgument (h : parseArgument P false tokens = some (argument, rest)) :
    tokens.head? ≠ some .punctuatorRightParenthesis := by
  intro hhead
  obtain ⟨tail, rfl⟩ := List.head?_eq_some_iff.mp hhead
  cases (parseArgument_rightParenthesis tail).symm.trans h

theorem LooseArguments.eq_nil {rest' : List Token} {missing : Bool}
    (h : LooseArguments P (.punctuatorRightParenthesis :: rest) arguments missing rest') :
    arguments = [] ∧ missing = false ∧ rest' = rest := by
  cases h with
  | empty => exact ⟨rfl, rfl, rfl⟩
  | last h => exact absurd rfl (head?_ne_of_parseArgument h)
  | comma h => exact absurd rfl (head?_ne_of_parseArgument h)
  | missing h => exact absurd rfl (head?_ne_of_parseArgument h)

/-- The loop of `ParseCallExpression` misses no comma. -/
theorem callArguments_iff (isAsync : Bool) {n : ℕ} (hn : tokens.length < n)
    (arguments : List (Argument E T)) (rest : List Token) :
    callArguments P isAsync n tokens = some (arguments, rest) ↔
      LooseArguments P tokens arguments false rest := by
  induction n generalizing tokens arguments with
  | zero => exact absurd hn (Nat.not_lt_zero _)
  | succ n ih =>
    rw [callArguments, parseArgument_flag]
    constructor
    · intro h
      split at h
      next hclose =>
        obtain ⟨tail, rfl⟩ := List.head?_eq_some_iff.mp hclose
        cases h
        exact .empty tail
      next hclose =>
        rw [Option.bind_eq_bind, Option.bind_eq_some_iff] at h
        obtain ⟨⟨argument, tokens'⟩, hargument, h⟩ := h
        have hlt := parseArgument_lt hargument
        dsimp only at h
        split at h
        next hcomma =>
          obtain ⟨tail, rfl⟩ := List.head?_eq_some_iff.mp hcomma
          obtain ⟨⟨arguments', rest'⟩, hrec, h⟩ := Option.bind_eq_some_iff.mp h
          cases h
          rw [List.tail_cons] at hrec
          rw [List.length_cons] at hlt
          exact .comma hargument ((ih (by omega) _).mp hrec)
        next =>
          split at h
          next => cases h
          next hnext =>
            obtain ⟨tail, rfl⟩ := List.head?_eq_some_iff.mp (not_not.mp hnext)
            obtain ⟨⟨arguments', rest'⟩, hrec, h⟩ := Option.bind_eq_some_iff.mp h
            cases h
            obtain ⟨rfl, -, rfl⟩ := ((ih (by omega) _).mp hrec).eq_nil
            exact .last hargument
    · intro h
      cases h with
      | empty => rfl
      | @last _ _ argument h =>
        have hlt := parseArgument_lt h
        have hrec := (ih (by omega) []).mpr (.empty rest)
        rw [if_neg (head?_ne_of_parseArgument h), h]
        simp [hrec]
      | @comma _ tail _ argument arguments _ h htail =>
        have hlt := parseArgument_lt h
        rw [List.length_cons] at hlt
        have hrec := (ih (by omega) arguments).mpr htail
        rw [if_neg (head?_ne_of_parseArgument h), h]
        simp [hrec]

/-- The loop of `ParseNewExpression` goes on without one. -/
theorem newArguments_iff {n : ℕ} (hn : tokens.length < n) (arguments : List (Argument E T))
    (rest : List Token) :
    newArguments P n tokens = some (arguments, rest) ↔
      ∃ missing, LooseArguments P tokens arguments missing rest := by
  induction n generalizing tokens arguments with
  | zero => exact absurd hn (Nat.not_lt_zero _)
  | succ n ih =>
    rw [newArguments]
    constructor
    · intro h
      split at h
      next hclose =>
        obtain ⟨tail, rfl⟩ := List.head?_eq_some_iff.mp hclose
        cases h
        exact ⟨false, .empty tail⟩
      next hclose =>
        rw [Option.bind_eq_bind, Option.bind_eq_some_iff] at h
        obtain ⟨⟨argument, tokens'⟩, hargument, h⟩ := h
        have hlt := parseArgument_lt hargument
        dsimp only at h
        generalize hnext : (if tokens'.head? = some .punctuatorComma then tokens'.tail else tokens') =
          next at h
        split at h
        next => cases h
        next hend =>
          obtain ⟨⟨arguments', rest'⟩, hrec, h⟩ := Option.bind_eq_some_iff.mp h
          cases h
          by_cases hcomma : tokens'.head? = some .punctuatorComma
          · obtain ⟨tail, rfl⟩ := List.head?_eq_some_iff.mp hcomma
            rw [if_pos hcomma, List.tail_cons] at hnext
            subst hnext
            rw [List.length_cons] at hlt
            obtain ⟨missing, htail⟩ := (ih (by omega) _).mp hrec
            exact ⟨missing, .comma hargument htail⟩
          · rw [if_neg hcomma] at hnext
            subst hnext
            obtain ⟨missing, htail⟩ := (ih (by omega) _).mp hrec
            by_cases hclosed : tokens'.head? = some .punctuatorRightParenthesis
            · obtain ⟨tail, rfl⟩ := List.head?_eq_some_iff.mp hclosed
              obtain ⟨rfl, -, rfl⟩ := htail.eq_nil
              exact ⟨false, .last hargument⟩
            · exact ⟨true, .missing hargument hcomma hclosed htail⟩
    · rintro ⟨missing, h⟩
      -- what is left of the tokens for the next round is not empty
      have hgoesOn {tokens' rest : List Token} {arguments : List (Argument E T)} {missing : Bool}
          (h : LooseArguments P tokens' arguments missing rest) : tokens' ≠ [] := by
        rintro rfl
        cases h with
        | last h => exact absurd (parseArgument_lt h) (Nat.not_lt_zero _)
        | comma h => exact absurd (parseArgument_lt h) (Nat.not_lt_zero _)
        | missing h => exact absurd (parseArgument_lt h) (Nat.not_lt_zero _)
      cases h with
      | empty => rfl
      | @last _ _ argument h =>
        have hlt := parseArgument_lt h
        have hrec := (ih (by omega) []).mpr ⟨false, .empty rest⟩
        rw [if_neg (head?_ne_of_parseArgument h), h]
        simp [hrec]
      | @comma _ tail _ argument arguments _ h htail =>
        have hlt := parseArgument_lt h
        rw [List.length_cons] at hlt
        have hrec := (ih (by omega) arguments).mpr ⟨missing, htail⟩
        rw [if_neg (head?_ne_of_parseArgument h), h]
        simp [hrec, hgoesOn htail]
      | @missing _ tail _ argument arguments missing h hcomma hclose htail =>
        have hlt := parseArgument_lt h
        have hrec := (ih (by omega) arguments).mpr ⟨missing, htail⟩
        rw [if_neg (head?_ne_of_parseArgument h), h]
        simp [hrec, hcomma, hgoesOn htail]

/-! ## The lists of the grammar -/

theorem LooseArguments.of_argumentList {next : Token}
    (h : ArgumentList P tokens arguments (next :: rest)) :
    ∀ {rest'}, (next = .punctuatorRightParenthesis ∧ rest' = rest) ∨
      (next = .punctuatorComma ∧ rest = .punctuatorRightParenthesis :: rest') →
    LooseArguments P tokens arguments false rest' ∧
      ∀ argument ∈ arguments, argument.tsType = none := by
  generalize hafter : next :: rest = after at h
  intro rest' hnext
  induction h with
  | @last tokens _ argument h =>
    subst hafter
    obtain ⟨rfl, rfl⟩ | ⟨rfl, rfl⟩ := hnext
    · obtain ⟨hread, htype⟩ := (readsArgument_iff (by simp)).mp h
      exact ⟨.last hread, by simpa using htype⟩
    · obtain ⟨hread, htype⟩ := (readsArgument_iff (by simp)).mp h
      exact ⟨.comma hread (.empty rest'), by simpa using htype⟩
  | @more tokens tail _ argument arguments h _ ih =>
    obtain ⟨hread, htype⟩ := (readsArgument_iff (by simp)).mp h
    obtain ⟨htail, htypes⟩ := ih hafter
    exact ⟨.comma hread htail, List.forall_mem_cons.mpr ⟨htype, htypes⟩⟩

theorem arguments_iff :
    Arguments P tokens arguments rest ↔ LooseArguments P tokens arguments false rest ∧
      ∀ argument ∈ arguments, argument.tsType = none := by
  constructor
  · intro h
    cases h with
    | empty => exact ⟨.empty rest, nofun⟩
    | list h => exact LooseArguments.of_argumentList h (.inl ⟨rfl, rfl⟩)
    | trailingComma h => exact LooseArguments.of_argumentList h (.inr ⟨rfl, rfl⟩)
  · rintro ⟨h, htypes⟩
    generalize hmissing : false = missing at h
    induction h with
    | empty rest => exact .empty rest
    | last h =>
      exact .list (.last ((readsArgument_iff (by simp)).mpr ⟨h, by simpa using htypes⟩))
    | @comma tokens tail rest argument arguments missing h htail ih =>
      obtain ⟨htype, htypes⟩ := List.forall_mem_cons.mp htypes
      have hread := (readsArgument_iff (by simp)).mpr ⟨h, htype⟩
      cases ih htypes hmissing with
      | empty => exact .trailingComma (.last hread)
      | list hlist => exact .list (.more hread hlist)
      | trailingComma hlist => exact .trailingComma (.more hread hlist)
    | missing => cases hmissing

/-- A list of tokens is read in one way only. -/
theorem LooseArguments.missing_unique {rest' : List Token} {arguments' : List (Argument E T)}
    {missing missing' : Bool} (h : LooseArguments P tokens arguments missing rest)
    (h' : LooseArguments P tokens arguments' missing' rest') : missing = missing' := by
  induction h generalizing arguments' missing' with
  | empty => exact h'.eq_nil.2.1.symm
  | last h =>
    cases h' with
    | empty => rfl
    | last => rfl
    | comma h' => cases h.symm.trans h'
    | missing h' _ hclose =>
      cases h.symm.trans h'
      exact absurd rfl hclose
  | comma h _ ih =>
    cases h' with
    | empty => exact absurd rfl (head?_ne_of_parseArgument h)
    | last h' => cases h.symm.trans h'
    | comma h' htail' =>
      cases h.symm.trans h'
      exact ih htail'
    | missing h' hcomma =>
      cases h.symm.trans h'
      exact absurd rfl hcomma
  | missing h hcomma hclose =>
    cases h' with
    | empty => exact absurd rfl (head?_ne_of_parseArgument h)
    | last h' =>
      cases h.symm.trans h'
      exact absurd rfl hclose
    | comma h' =>
      cases h.symm.trans h'
      exact absurd rfl hcomma
    | missing => rfl

theorem parseNewExpression_iff (tokens : List Token) (arguments : List (Argument E T)) (rest : List Token) :
    parseNewExpression P (.punctuatorLeftParenthesis :: tokens) = some (arguments, rest) ↔
      ∃ missing, LooseArguments P tokens arguments missing rest := by
  rw [parseNewExpression, if_neg (by simp)]
  exact newArguments_iff (Nat.lt_succ_self _) arguments rest

theorem readsArguments_iff_strict (tokens : List Token) : ReadsArguments P tokens ↔ Strict P tokens := by
  constructor
  · intro h arguments missing rest hloose
    obtain ⟨-, hnew⟩ := h false arguments rest
    have hgrammar := hnew.mp ((parseNewExpression_iff _ _ _).mpr ⟨missing, hloose⟩)
    obtain ⟨hstrict, htypes⟩ := arguments_iff.mp hgrammar
    exact ⟨hloose.missing_unique hstrict, htypes⟩
  · intro h isAsync arguments rest
    rw [callArguments_iff isAsync (Nat.lt_succ_self _), parseNewExpression_iff, arguments_iff]
    constructor
    · exact ⟨fun hloose => ⟨hloose, (h _ _ _ hloose).2⟩, fun hloose => hloose.1⟩
    · constructor
      · rintro ⟨missing, hloose⟩
        obtain ⟨rfl, htypes⟩ := h _ _ _ hloose
        exact ⟨hloose, htypes⟩
      · exact fun hloose => ⟨false, hloose.1⟩

/-! ## Chains of calls -/

theorem LooseArguments.length_lt {missing : Bool}
    (h : LooseArguments P tokens arguments missing rest) : rest.length < tokens.length := by
  induction h with
  | empty => simp
  | last h =>
    have hlt := parseArgument_lt h
    rw [List.length_cons] at hlt
    omega
  | comma h _ ih =>
    have hlt := parseArgument_lt h
    rw [List.length_cons] at hlt
    omega
  | missing h _ _ _ ih =>
    have hlt := parseArgument_lt h
    omega

theorem parseCallExpression_iff (isAsync : Bool) {n : ℕ} (hn : tokens.length < n)
    (h : ∀ start, CallStart P tokens start → Strict P start) (calls : List (List (Argument E T)))
    (rest : List Token) :
    parseCallExpression P isAsync n tokens = some (calls, rest) ↔ Calls P tokens calls rest := by
  induction n generalizing tokens calls with
  | zero => exact absurd hn (Nat.not_lt_zero _)
  | succ n ih =>
    have hread := (readsArguments_iff_strict tokens).mpr (h tokens (.first tokens))
    -- the calls behind the first one
    have hnext {arguments : List (Argument E T)} {tail : List Token}
        (hargs : Arguments P tokens arguments (.punctuatorLeftParenthesis :: tail)) :=
      have hlt := (arguments_iff.mp hargs).1.length_lt
      ih (show tail.length < n by rw [List.length_cons] at hlt; omega)
        fun start hstart => h start (.next hargs hstart)
    rw [parseCallExpression]
    constructor
    · intro hparse
      rw [Option.bind_eq_bind, Option.bind_eq_some_iff] at hparse
      obtain ⟨⟨arguments, tokens'⟩, hargs, hparse⟩ := hparse
      have hargs := (hread isAsync arguments tokens').1.mp hargs
      dsimp only at hparse
      split at hparse
      next hparen =>
        cases hparse
        exact .last hargs hparen
      next hparen =>
        obtain ⟨tail, rfl⟩ := List.head?_eq_some_iff.mp (not_not.mp hparen)
        obtain ⟨⟨calls', rest'⟩, hrec, hparse⟩ := Option.bind_eq_some_iff.mp hparse
        cases hparse
        exact .more hargs ((hnext hargs _).mp hrec)
    · intro hcalls
      cases hcalls with
      | last hargs hrest =>
        rw [(hread isAsync _ _).1.mpr hargs]
        simp [hrest]
      | more hargs hcalls =>
        have hrec := (hnext hargs _).mpr hcalls
        rw [(hread isAsync _ _).1.mpr hargs]
        simp [hrec]

/-- Both functions read just the argument lists of the grammar where no comma is missing between two
arguments and no type follows a spread, and so do chains of calls. -/
theorem readsArguments_iff (P : ExpressionParser E T) :
    (∀ tokens, ReadsArguments P tokens ↔ Strict P tokens) ∧
    ∀ tokens, (∀ start, CallStart P tokens start → Strict P start) →
      ∀ n, tokens.length < n → ∀ isAsync calls rest,
        parseCallExpression P isAsync n tokens = some (calls, rest) ↔ Calls P tokens calls rest :=
  ⟨readsArguments_iff_strict, fun _ h _ hn isAsync => parseCallExpression_iff isAsync hn h⟩

theorem LooseArguments.strict (hcall : LooseArguments P tokens arguments false rest)
    (htypes : ∀ argument ∈ arguments, argument.tsType = none) : Strict P tokens := by
  intro arguments' missing rest' h
  have hnew := (parseNewExpression_iff tokens arguments rest).mpr ⟨false, hcall⟩
  have hnew' := (parseNewExpression_iff tokens arguments' rest').mpr ⟨missing, h⟩
  cases hnew.symm.trans hnew'
  exact ⟨h.missing_unique hcall, htypes⟩

/-- Expressions and types of one word. -/
def words : ExpressionParser String String where
  parseExpression _ tokens := match tokens with
    | .other text :: rest => some (text, rest)
    | _ => none
  parseTsType tokens := match tokens with
    | .other text :: rest => some (text, rest)
    | _ => none
  flag _ := rfl
  parseExpression_lt h := by
    split at h
    · cases h
      simp
    · cases h
  parseTsType_le h := by
    split at h
    · cases h
      simp
    · cases h
  parseExpression_rightParenthesis _ _ := rfl
  parseExpression_periodPeriodPeriod _ _ := rfl

/-- The calls `(a, ...b)(c)`. -/
theorem readsArguments_example : ∀ calls rest,
    parseCallExpression words false 9 [.other "a", .punctuatorComma, .punctuatorPeriodPeriodPeriod,
      .other "b", .punctuatorRightParenthesis, .punctuatorLeftParenthesis, .other "c",
      .punctuatorRightParenthesis] = some (calls, rest) ↔
    Calls words [.other "a", .punctuatorComma, .punctuatorPeriodPeriodPeriod,
      .other "b", .punctuatorRightParenthesis, .punctuatorLeftParenthesis, .other "c",
      .punctuatorRightParenthesis] calls rest := by
  have hfirst : LooseArguments words [.other "a", .punctuatorComma, .punctuatorPeriodPeriodPeriod,
      .other "b", .punctuatorRightParenthesis, .punctuatorLeftParenthesis, .other "c",
      .punctuatorRightParenthesis] [.expression "a", .spreadElement "b" none] false
      [.punctuatorLeftParenthesis, .other "c", .punctuatorRightParenthesis] := .comma rfl (.last rfl)
  have hsecond : LooseArguments words [.other "c", .punctuatorRightParenthesis] [.expression "c"] false [] :=
    .last rfl
  -- where the argument lists of the chain start
  have hstart {tokens rest start : List Token} {arguments : List (Argument String String)}
      (h : CallStart words tokens start) (hcall : LooseArguments words tokens arguments false rest) :
      start = tokens ∨ ∃ tail, rest = .punctuatorLeftParenthesis :: tail ∧ CallStart words tail start := by
    cases h with
    | first => exact .inl rfl
    | next hargs hnext =>
      have hnew := (parseNewExpression_iff _ _ _).mpr ⟨false, hcall⟩
      have hnew' := (parseNewExpression_iff _ _ _).mpr ⟨false, (arguments_iff.mp hargs).1⟩
      cases hnew.symm.trans hnew'
      exact .inr ⟨_, rfl, hnext⟩
  refine (readsArguments_iff words).2 _ (fun start h => ?_) 9 (by decide) false
  obtain rfl | ⟨tail, htail, h⟩ := hstart h hfirst
  · exact LooseArguments.strict hfirst (by simp [Argument.tsType])
  obtain rfl := (List.cons.inj htail).2
  obtain rfl | ⟨_, h, -⟩ := hstart h hsecond
  · exact LooseArguments.strict hsecond (by simp [Argument.tsType])
  · cases h

/-- In `new f(a b)` no comma is missed. -/
theorem missing_comma_accepted :
    ¬ ReadsArguments words [.other "a", .other "b", .punctuatorRightParenthesis] := by
  intro h
  have hloose : LooseArguments words [.other "a", .other "b", .punctuatorRightParenthesis]
      [.expression "a", .expression "b"] true [] := .missing rfl (by decide) (by decide) (.last rfl)
  have hgrammar := (h false _ _).2.mp ((parseNewExpression_iff _ _ _).mpr ⟨true, hloose⟩)
  cases hloose.missing_unique (arguments_iff.mp hgrammar).1

end ArkTs2abc.Es2panda.Parser.Call
