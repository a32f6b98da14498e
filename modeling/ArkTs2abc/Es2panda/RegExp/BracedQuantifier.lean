import ArkTs2abc.Es2panda.RegExp.Termination
import ArkTs2abc.Number.WrappedDigits

/-!
# Braced quantifiers

The bounds of a quantifier are accumulated in 32 bits. A bound for which a wrap is seen counts as
the greatest number; other wraps are not seen.

## Main definitions

* `RegExpParser.BracedQuantifier` — the texts of a quantifier, with its bounds.
* `RegExpParser.QuantifierRight` — the parser accepts a quantifier just if its bounds are in order.

## Main results

* `RegExpParser.quantifierRight_iff` — where it does.
-/

namespace ArkTs2abc.Es2panda.RegExpParser

open Lexer (isDecimalDigit)
open WrappedDigits (accumulate number residue Falls push)

/-- A text of one or more digits. -/
structure DigitText (ds : List Char) : Prop where
  ne_nil : ds ≠ []
  digits : ∀ c ∈ ds, isDecimalDigit c.toNat = true

/-- `{n}`, `{n,}` and `{n,m}`. -/
inductive BracedQuantifier : List Char → ℕ → Option ℕ → Prop where
  | times {ds : List Char} (hds : DigitText ds) :
      BracedQuantifier ('\x7b' :: (ds ++ ['\x7d'])) (number ds) none
  | atLeast {ds : List Char} (hds : DigitText ds) :
      BracedQuantifier ('\x7b' :: (ds ++ [',', '\x7d'])) (number ds) none
  | between {ds es : List Char} (hds : DigitText ds) (hes : DigitText es) :
      BracedQuantifier ('\x7b' :: (ds ++ ',' :: (es ++ ['\x7d']))) (number ds) (some (number es))

/-- Behind a term: a quantifier in order is read, with the question mark behind it, one out of order is
an error, and any other text that starts with a brace is left. -/
structure QuantifierRight (iter : List Char) : Prop where
  shape : ∀ text rest n m, iter = text ++ rest → BracedQuantifier text n m → parseQuantifier iter =
    if ∀ k ∈ m, n ≤ k then .ok (skipLazy rest) else .error "Quantifier range out of order"
  other : iter.head? = some '\x7b' → (¬ ∃ text rest n m, iter = text ++ rest ∧ BracedQuantifier text n m) →
    parseQuantifier iter = .ok iter

/-! ## The digits -/

/-- The value that the parser keeps of a bound. -/
def stored (ds : List Char) : ℕ := if Falls 32 ds then 2 ^ 32 - 1 else residue 32 ds

variable {ds rest : List Char}

/-- Once it is the greatest number the value stays so. -/
theorem quantifierDigits_top (hds : ∀ c ∈ ds, isDecimalDigit c.toNat = true)
    (hrest : isDecimalDigit (next rest).1 = false) :
    quantifierDigits (2 ^ 32 - 1) (ds ++ rest) = (2 ^ 32 - 1, rest) := by
  induction ds with
  | nil =>
    cases rest with
    | nil => rfl
    | cons c rest => rw [List.nil_append, quantifierDigits, isDecimalDigit_peek, hrest, if_neg Bool.false_ne_true]
  | cons c ds ih =>
    obtain ⟨hc, hds⟩ := List.forall_mem_cons.mp hds
    rw [List.cons_append, quantifierDigits, isDecimalDigit_peek, next_fst, if_pos hc]
    dsimp only
    have hdigit : digitValue c.toNat ≤ 9 := by
      simp only [isDecimalDigit, decide_eq_true_eq] at hc
      have hnine : '9'.toNat = 57 := rfl
      rw [hnine] at hc
      rw [digitValue, show '0'.toNat = 48 from rfl]
      omega
    split
    · exact ih hds
    next hnot =>
      have hmax : uint32 ((2 ^ 32 - 1) * 10 + digitValue c.toNat) = 2 ^ 32 - 1 := by
        rw [uint32] at hnot ⊢
        omega
      rw [hmax]
      exact ih hds

theorem quantifierDigits_append (v : ℕ) (hds : ∀ c ∈ ds, isDecimalDigit c.toNat = true)
    (hrest : isDecimalDigit (next rest).1 = false) :
    quantifierDigits v (ds ++ rest) = ((accumulate 32 v ds).getD (2 ^ 32 - 1), rest) := by
  induction ds generalizing v with
  | nil =>
    cases rest with
    | nil => rfl
    | cons c rest =>
      rw [List.nil_append, quantifierDigits, isDecimalDigit_peek, hrest, if_neg Bool.false_ne_true]
      rfl
  | cons c ds ih =>
    obtain ⟨hc, hds⟩ := List.forall_mem_cons.mp hds
    rw [List.cons_append, quantifierDigits, isDecimalDigit_peek, next_fst, if_pos hc, accumulate,
      List.foldlM_cons, push]
    dsimp only
    rw [uint32, digitValue]
    split
    · exact quantifierDigits_top hds hrest
    · exact ih _ hds

theorem quantifierDigits_eq (hds : ∀ c ∈ ds, isDecimalDigit c.toNat = true)
    (hrest : isDecimalDigit (next rest).1 = false) :
    quantifierDigits 0 (ds ++ rest) = (stored ds, rest) := by
  rw [quantifierDigits_append 0 hds hrest, WrappedDigits.accumulate_eq, stored]
  split <;> rfl

theorem exists_digits (iter : List Char) : ∃ ds rest, iter = ds ++ rest ∧
    (∀ c ∈ ds, isDecimalDigit c.toNat = true) ∧ isDecimalDigit (next rest).1 = false := by
  induction iter with
  | nil => exact ⟨[], [], rfl, by simp, by decide⟩
  | cons c iter ih =>
    cases hc : isDecimalDigit c.toNat with
    | false => exact ⟨[], c :: iter, rfl, by simp, hc⟩
    | true =>
      obtain ⟨ds, rest, rfl, hds, hrest⟩ := ih
      exact ⟨c :: ds, rest, rfl, List.forall_mem_cons.mpr ⟨hc, hds⟩, hrest⟩

/-! ## The shapes -/

theorem parseQuantifier_brace {iter : List Char} (h : iter.head? = some '\x7b') :
    parseQuantifier iter = (parseBracedQuantifier iter >>= fun (found, iter) =>
      if found then .ok (skipLazy iter) else .ok iter) := by
  obtain ⟨iter, rfl⟩ := List.head?_eq_some_iff.mp h
  have hpeek : peek ('\x7b' :: iter) = '\x7b'.toNat := peek_ascii (by decide) iter
  rw [parseQuantifier, hpeek, if_neg (by decide), if_pos rfl]

section

variable (hds : DigitText ds)
include hds

theorem parseBracedQuantifier_digits (hrest : isDecimalDigit (next rest).1 = false) :
    parseBracedQuantifier ('\x7b' :: (ds ++ rest)) =
      let behind := if peek rest = ','.toNat then skip rest else rest
      if peek behind = '\x7d'.toNat then .ok (true, skip behind)
      else if isDecimalDigit (peek behind) then
        let (rightValue, iter) := quantifierDigits 0 behind
        if peek iter = '\x7d'.toNat then
          if rightValue < stored ds then .error "Quantifier range out of order"
          else .ok (true, skip iter)
        else .ok (false, '\x7b' :: (ds ++ rest))
      else .ok (false, '\x7b' :: (ds ++ rest)) := by
  have hfirst : isDecimalDigit (next (ds ++ rest)).1 = true := by
    obtain ⟨c, ds', rfl⟩ := List.exists_cons_of_ne_nil hds.ne_nil
    exact hds.digits c List.mem_cons_self
  rw [parseBracedQuantifier, if_neg (not_not.mpr (peek_ascii (by decide) _)), skip_cons]
  dsimp only
  rw [isDecimalDigit_peek, hfirst, if_neg (by decide), quantifierDigits_eq hds.digits hrest]

theorem DigitText.first : isDecimalDigit (next (ds ++ rest)).1 = true := by
  obtain ⟨c, ds', rfl⟩ := List.exists_cons_of_ne_nil hds.ne_nil
  exact hds.digits c List.mem_cons_self

theorem DigitText.peek_ne {d : Char} (hdigit : isDecimalDigit d.toNat = false)
    (rest : List Char) : peek (ds ++ rest) ≠ d.toNat := by
  intro h
  have hnext : isDecimalDigit (next (ds ++ rest)).1 = true := hds.first
  rw [← isDecimalDigit_peek, h, hdigit] at hnext
  exact absurd hnext (by decide)

theorem parseBracedQuantifier_times (rest : List Char) :
    parseBracedQuantifier ('\x7b' :: (ds ++ '\x7d' :: rest)) = .ok (true, rest) := by
  have hpeek : peek ('\x7d' :: rest) = '\x7d'.toNat := peek_ascii (by decide) rest
  rw [parseBracedQuantifier_digits hds rfl]
  dsimp only
  have hcomma : peek ('\x7d' :: rest) ≠ ','.toNat := by
    rw [hpeek]
    decide
  rw [if_neg hcomma, if_pos hpeek, skip_cons]

theorem parseBracedQuantifier_atLeast (rest : List Char) :
    parseBracedQuantifier ('\x7b' :: (ds ++ ',' :: '\x7d' :: rest)) = .ok (true, rest) := by
  have hcomma : peek (',' :: '\x7d' :: rest) = ','.toNat := peek_ascii (by decide) _
  have hbrace : peek ('\x7d' :: rest) = '\x7d'.toNat := peek_ascii (by decide) rest
  rw [parseBracedQuantifier_digits hds rfl]
  dsimp only
  rw [if_pos hcomma, skip_cons, if_pos hbrace, skip_cons]

theorem parseBracedQuantifier_between {es : List Char} (hes : DigitText es)
    (rest : List Char) : parseBracedQuantifier ('\x7b' :: (ds ++ ',' :: (es ++ '\x7d' :: rest))) =
      if stored es < stored ds then .error "Quantifier range out of order" else .ok (true, rest) := by
  have hcomma : peek (',' :: (es ++ '\x7d' :: rest)) = ','.toNat := peek_ascii (by decide) _
  have hbrace : peek ('\x7d' :: rest) = '\x7d'.toNat := peek_ascii (by decide) rest
  have hne : peek (es ++ '\x7d' :: rest) ≠ '\x7d'.toNat := hes.peek_ne (by decide) _
  rw [parseBracedQuantifier_digits hds rfl]
  dsimp only
  rw [if_pos hcomma, skip_cons, if_neg hne, isDecimalDigit_peek, hes.first, if_pos rfl,
    quantifierDigits_eq hes.digits rfl]
  dsimp only
  rw [if_pos hbrace, skip_cons]

end

/-- A text that starts with a brace starts with one of the shapes, or is left. -/
theorem shape_or_left {iter : List Char} (h : iter.head? = some '\x7b') :
    (∃ text rest n m, iter = text ++ rest ∧ BracedQuantifier text n m) ∨
      parseBracedQuantifier iter = .ok (false, iter) := by
  obtain ⟨iter, rfl⟩ := List.head?_eq_some_iff.mp h
  obtain ⟨ds, rest, rfl, hds, hrest⟩ := exists_digits iter
  by_cases hnil : ds = []
  · right
    rw [hnil, List.nil_append, parseBracedQuantifier, if_neg (not_not.mpr (peek_ascii (by decide) _)), skip_cons]
    dsimp only
    rw [isDecimalDigit_peek, hrest, if_pos rfl]
  have hds : DigitText ds := ⟨hnil, hds⟩
  have hread := parseBracedQuantifier_digits hds hrest
  by_cases hbrace : rest.head? = some '\x7d'
  · obtain ⟨rest, rfl⟩ := List.head?_eq_some_iff.mp hbrace
    exact .inl ⟨_, rest, _, _, by simp, .times hds⟩
  have hbrace' : peek rest ≠ '\x7d'.toNat := mt (peek_eq_iff (by decide) rest).mp hbrace
  by_cases hcomma : rest.head? = some ','
  · obtain ⟨rest, rfl⟩ := List.head?_eq_some_iff.mp hcomma
    have hpeek : peek (',' :: rest) = ','.toNat := peek_ascii (by decide) rest
    dsimp only at hread
    rw [if_pos hpeek, skip_cons] at hread
    obtain ⟨es, rest, rfl, hes, hrest⟩ := exists_digits rest
    by_cases hclose : rest.head? = some '\x7d'
    · obtain ⟨rest, rfl⟩ := List.head?_eq_some_iff.mp hclose
      by_cases hes' : es = []
      · subst hes'
        exact .inl ⟨_, rest, _, _, by simp, .atLeast hds⟩
      · exact .inl ⟨_, rest, _, _, by simp, .between hds ⟨hes', hes⟩⟩
    have hclose' : peek rest ≠ '\x7d'.toNat := mt (peek_eq_iff (by decide) rest).mp hclose
    right
    rw [hread]
    by_cases hes' : es = []
    · rw [hes', List.nil_append, if_neg hclose', isDecimalDigit_peek, hrest, if_neg Bool.false_ne_true]
    · have hes : DigitText es := ⟨hes', hes⟩
      rw [if_neg (hes.peek_ne (by decide) rest), isDecimalDigit_peek, hes.first, if_pos rfl,
        quantifierDigits_eq hes.digits hrest]
      dsimp only
      rw [if_neg hclose']
  · have hcomma' : peek rest ≠ ','.toNat := mt (peek_eq_iff (by decide) rest).mp hcomma
    right
    rw [hread]
    dsimp only
    rw [if_neg hcomma', if_neg hbrace', isDecimalDigit_peek, hrest, if_neg Bool.false_ne_true]

/-- The parser judges a quantifier right just if the values that it keeps of the two bounds are in the
order of the bounds. -/
theorem quantifierRight_iff (iter : List Char) : QuantifierRight iter ↔
    ∀ ds es rest, DigitText ds → DigitText es → iter = '\x7b' :: (ds ++ ',' :: (es ++ '\x7d' :: rest)) →
      (stored ds ≤ stored es ↔ number ds ≤ number es) := by
  constructor
  · rintro h ds es rest hds hes rfl
    have hshape := h.shape _ rest _ _ (by simp) (.between hds hes)
    rw [parseQuantifier_brace rfl, parseBracedQuantifier_between hds hes] at hshape
    simp only [Option.mem_def, Option.some.injEq, forall_eq'] at hshape
    by_cases hstored : stored es < stored ds
    · by_cases hnumber : number ds ≤ number es
      · rw [if_pos hstored, if_pos hnumber] at hshape
        cases hshape
      · exact iff_of_false (Nat.not_le.mpr hstored) hnumber
    · by_cases hnumber : number ds ≤ number es
      · exact iff_of_true (Nat.not_lt.mp hstored) hnumber
      · rw [if_neg hstored, if_neg hnumber] at hshape
        cases hshape
  · intro h
    refine ⟨fun text rest n m hiter hshape => ?_, fun hhead hnone => ?_⟩
    · subst hiter
      rw [parseQuantifier_brace (by cases hshape <;> rfl)]
      cases hshape with
      | times hds =>
        rw [List.cons_append, List.append_assoc, List.singleton_append, parseBracedQuantifier_times hds]
        simp [bind, Except.bind]
      | atLeast hds =>
        rw [List.cons_append, List.append_assoc, List.cons_append, List.singleton_append,
          parseBracedQuantifier_atLeast hds]
        simp [bind, Except.bind]
      | @between ds es hds hes =>
        have horder := h ds es rest hds hes (by simp)
        rw [List.cons_append, List.append_assoc, List.cons_append, List.append_assoc, List.singleton_append,
          parseBracedQuantifier_between hds hes]
        simp only [Option.mem_def, Option.some.injEq, forall_eq']
        by_cases hnumber : number ds ≤ number es
        · rw [if_pos hnumber, if_neg (Nat.not_lt.mpr (horder.mpr hnumber))]
          rfl
        · rw [if_neg hnumber, if_pos (Nat.not_le.mp (mt horder.mp hnumber))]
          rfl
    · rw [parseQuantifier_brace hhead, (shape_or_left hhead).resolve_left hnone]
      rfl

def tenBillion : List Char := '1' :: List.replicate 10 '0'

def twoBillion : List Char := '2' :: List.replicate 9 '0'

/-- `/a{10000000000,2000000000}/` is accepted: the residue of the first bound is 1410065408. -/
theorem wrapped_bound_accepted :
    DigitText tenBillion ∧ DigitText twoBillion ∧ number twoBillion < number tenBillion ∧
      (asciiParser false).parsePattern 9
        ('a' :: '\x7b' :: (tenBillion ++ ',' :: (twoBillion ++ ['\x7d']))) = .ok (State.start []) :=
  ⟨⟨by decide, by decide⟩, ⟨by decide, by decide⟩, by decide, by decide +kernel⟩

end ArkTs2abc.Es2panda.RegExpParser
