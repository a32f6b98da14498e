import ArkTs2abc.Es2panda.Lexer.NumericLiteral

/-!
# The parts of a number

What the scanners of numbers pass over: digits, a fraction, an exponent and the suffix, and that each scanner
passes over all that the grammar has there.

## Main definitions

* `NumberParts` — the parts that `scanNumber` passes over.

## Main results

* `scanDecimalNumbers_eq_some_iff`, `scanNumberRadix_eq_some_iff`, `scanNumber_eq_some_iff`
-/

namespace ArkTs2abc.Es2panda.Lexer

/-- The place of a sign that is missing from the exponent in front of `rest`. -/
def exponentSignPosOf (start ex rest : List Char) : Option ℕ :=
  match ex with
  | [] => none
  | _ :: ds =>
    if ds.head? = some '+' ∨ ds.head? = some '-' then none else some (start.length - (ds ++ rest).length)

/-- A run of digits does not go on here. -/
def Stops (P : ℕ → Bool) (rest : List Char) : Prop := ∀ c ∈ rest.head?, ¬(P c.toNat ∨ c = '_')

/-- What may follow where a digit was passed, or has to come. -/
def DigitsOn (P : ℕ → Bool) (allowNumericOnNext : Bool) (ds : List Char) : Prop :=
  if allowNumericOnNext then ds = [] ∨ Digits P ds ∨ ∃ ds', ds = '_' :: ds' ∧ Digits P ds'
  else Digits P ds

/-- The parts that `scanNumber` passes over behind the character `prev`. -/
structure NumberParts (idStart : ℕ → Bool) (allowNumericSeparator allowBigInt : Bool) (prev : Char)
    (ds f e suffix rest : List Char) : Prop where
  digits : DigitsOn isDecimalDigit true ds
  prevDot : ¬(prev = '.' ∧ ds.head? = some '_')
  fraction : Fraction f
  exponent : Exponent e
  bigInt : suffix = [] ∨ suffix = ['n'] ∧ allowBigInt ∧ f = [] ∧ e = []
  separators : '_' ∈ ds ++ f ++ e → allowNumericSeparator
  noDot : f ++ e ++ suffix = [] → rest.head? ≠ some '.'
  ends : numberEnds idStart rest

section Digits

variable {P : ℕ → Bool} {c : Char} {ds rest : List Char} {allowNumericOnNext : Bool}

theorem digits_cons_iff (hc : P c.toNat) : Digits P (c :: ds) ↔ DigitsOn P true ds := by
  simp only [DigitsOn, if_true]
  constructor
  · intro h
    cases h with
    | single => exact .inl rfl
    | cons _ h => exact .inr (.inl h)
    | separator _ h => exact .inr (.inr ⟨_, rfl, h⟩)
  · rintro (rfl | h | ⟨ds', rfl, h⟩)
    · exact .single hc
    · exact .cons hc h
    · exact .separator hc h

theorem digitsOn_nil_iff : DigitsOn P allowNumericOnNext [] ↔ allowNumericOnNext := by
  have hnil : ¬Digits P [] := fun h => h.ne_nil rfl
  cases allowNumericOnNext <;> simp [DigitsOn, hnil]

theorem digitsOn_cons_iff (hP : ¬P '_'.toNat) :
    DigitsOn P allowNumericOnNext (c :: ds) ↔
      (P c.toNat ∧ DigitsOn P true ds) ∨ (c = '_' ∧ allowNumericOnNext ∧ DigitsOn P false ds) := by
  have hhead : Digits P (c :: ds) ↔ P c.toNat ∧ DigitsOn P true ds := by
    constructor
    · intro h
      have hc : P c.toNat := by cases h <;> assumption
      exact ⟨hc, (digits_cons_iff hc).mp h⟩
    · rintro ⟨hc, h⟩
      exact (digits_cons_iff hc).mpr h
  have hfalse : DigitsOn P false ds ↔ Digits P ds := by simp [DigitsOn]
  have hc : c = '_' → ¬P c.toNat := by
    rintro rfl
    exact hP
  rw [hfalse]
  cases allowNumericOnNext with
  | false => simpa [DigitsOn] using hhead
  | true =>
    rw [← hhead]
    simp only [DigitsOn, if_true, reduceCtorEq, List.cons.injEq, false_or, true_and]
    refine or_congr_right ?_
    constructor
    · rintro ⟨ds', ⟨rfl, rfl⟩, h⟩
      exact ⟨rfl, h⟩
    · rintro ⟨rfl, h⟩
      exact ⟨ds, ⟨rfl, rfl⟩, h⟩

theorem exists_split_cons_iff {Q : List Char → Prop} {cs : List Char} :
    (∃ ds, c :: cs = ds ++ rest ∧ Q ds) ↔
      (rest = c :: cs ∧ Q []) ∨ ∃ ds, cs = ds ++ rest ∧ Q (c :: ds) := by
  constructor
  · rintro ⟨ds, hds, hQ⟩
    rcases ds with _ | ⟨d, ds⟩
    · exact .inl ⟨hds.symm, hQ⟩
    · obtain ⟨rfl, hcs⟩ := List.cons.inj hds
      exact .inr ⟨ds, hcs, hQ⟩
  · rintro (⟨rfl, hQ⟩ | ⟨ds, rfl, hQ⟩)
    · exact ⟨[], rfl, hQ⟩
    · exact ⟨c :: ds, rfl, hQ⟩

theorem scanNumberRadixLoop_eq_some_iff (hP : ¬P '_'.toNat) (allowNumericOnNext : Bool) {cs : List Char} :
    scanNumberRadixLoop P allowNumericOnNext cs = some rest ↔
      ∃ ds, cs = ds ++ rest ∧ DigitsOn P allowNumericOnNext ds ∧ Stops P rest := by
  induction cs generalizing allowNumericOnNext with
  | nil =>
    rw [scanNumberRadixLoop]
    constructor
    · intro h
      obtain ⟨hallow, rfl⟩ : allowNumericOnNext ∧ rest = [] := by grind
      exact ⟨[], rfl, digitsOn_nil_iff.mpr hallow, by simp [Stops]⟩
    · rintro ⟨ds, hds, hon, -⟩
      obtain ⟨rfl, rfl⟩ : ds = [] ∧ rest = [] := by simpa using hds.symm
      simp [digitsOn_nil_iff.mp hon]
  | cons c cs ih =>
    rw [scanNumberRadixLoop, exists_split_cons_iff, digitsOn_nil_iff]
    simp only [digitsOn_cons_iff hP]
    by_cases hstops : P c.toNat ∨ c = '_'
    · have hnot : ¬(rest = c :: cs ∧ Stops P rest) := by
        rintro ⟨rfl, hrest⟩
        exact hrest c rfl hstops
      by_cases hc : P c.toNat
      · have hne : c ≠ '_' := by
          rintro rfl
          exact hP hc
        rw [if_pos hc, ih true]
        grind
      · obtain rfl := hstops.resolve_left hc
        rw [if_neg hc, if_pos rfl]
        have hseparator := ih false
        grind
    · have hrest : rest = c :: cs → Stops P rest := by
        rintro rfl d hd
        obtain rfl : c = d := by simpa using hd
        exact hstops
      grind

/-- The separator is looked at with the character before it. -/
theorem scanDecimalNumbers_eq_some_iff {allowNumericSeparator : Bool} (prev : Char)
    (allowNumericOnNext hasUnderscore : Bool) {cs : List Char} :
    scanDecimalNumbers allowNumericSeparator prev allowNumericOnNext cs = some (hasUnderscore, rest) ↔
      ∃ ds, cs = ds ++ rest ∧ (DigitsOn isDecimalDigit allowNumericOnNext ds ∧ Stops isDecimalDigit rest ∧
        hasUnderscore = decide ('_' ∈ ds) ∧ ('_' ∈ ds → allowNumericSeparator) ∧
        ¬(prev = '.' ∧ ds.head? = some '_')) := by
  have hP : ¬isDecimalDigit '_'.toNat := by decide
  induction cs generalizing prev allowNumericOnNext hasUnderscore with
  | nil =>
    rw [scanDecimalNumbers]
    constructor
    · intro h
      obtain ⟨hallow, hflag, hrest⟩ : allowNumericOnNext ∧ hasUnderscore = false ∧ rest = [] := by grind
      exact ⟨[], by simp [hrest], digitsOn_nil_iff.mpr hallow, by simp [Stops, hrest], by simp [hflag],
        by simp, by simp⟩
    · rintro ⟨ds, hds, hon, -, hflag, -⟩
      obtain ⟨rfl, rfl⟩ : ds = [] ∧ rest = [] := by simpa using hds.symm
      simp [digitsOn_nil_iff.mp hon, hflag]
  | cons c cs ih =>
    rw [scanDecimalNumbers, exists_split_cons_iff, digitsOn_nil_iff]
    simp only [digitsOn_cons_iff hP, List.mem_cons, List.head?_cons, Option.some.injEq]
    by_cases hstops : isDecimalDigit c.toNat ∨ c = '_'
    · have hnot : ¬(rest = c :: cs ∧ Stops isDecimalDigit rest) := by
        rintro ⟨rfl, hrest⟩
        exact hrest c rfl hstops
      have hdot : c ≠ '.' := by
        rintro rfl
        revert hstops
        decide
      by_cases hc : isDecimalDigit c.toNat
      · have hne : '_' ≠ c := by
          rintro rfl
          exact hP hc
        rw [if_pos (show isDigit c by exact hc)]
        refine (ih c true hasUnderscore).trans ?_
        grind
      · obtain rfl := hstops.resolve_left hc
        have hseparator := ih '_' false
        have hnotDigit : isDigit '_' = false := by decide
        rw [if_neg (by simp [hnotDigit]), if_pos rfl]
        constructor
        · intro h
          split at h
          · cases h
          · next hallow =>
            obtain ⟨⟨flag, rest'⟩, hscan, heq⟩ := Option.map_eq_some_iff.mp h
            cases heq
            obtain ⟨ds, hcs, hds⟩ := (hseparator flag).mp hscan
            refine .inr ⟨ds, hcs, .inr ⟨rfl, ?_, hds.1⟩, hds.2.1, ?_, ?_, ?_⟩ <;> grind
        · rintro (⟨hrest, -, hrest', -⟩ | ⟨ds, hcs, hon, hrest, hflag, hallow, hprev⟩)
          · exact absurd ⟨hrest, hrest'⟩ hnot
          · obtain ⟨-, hnext, hds⟩ := hon.resolve_left (fun h => hP h.1)
            have hscan := (hseparator (decide ('_' ∈ ds))).mpr
              ⟨ds, hcs, hds, hrest, rfl, fun _ => hallow (.inl rfl), by simp⟩
            rw [if_neg (by grind), hscan]
            simp [hflag]
    · have hrest : rest = c :: cs → Stops isDecimalDigit rest := by
        rintro rfl d hd
        obtain rfl : c = d := by simpa using hd
        exact hstops
      have hdigit : isDigit c = false := by simp_all [isDigit]
      grind

end Digits

section Parts

variable {idStart : ℕ → Bool} {allowNumericSeparator : Bool} {cs rest : List Char} {ds : List Char}
  {hasUnderscore : Bool}

theorem digits_of_digitsOn (h : DigitsOn isDecimalDigit true ds) {c : Char} (hc : ds.head? = some c)
    (hdigit : isDecimalDigit c.toNat) : Digits isDecimalDigit ds := by
  simp only [DigitsOn, if_true] at h
  rcases h with rfl | h | ⟨ds', rfl, -⟩
  · simp at hc
  · exact h
  · obtain rfl : '_' = c := by simpa using hc
    exact absurd hdigit (by decide)

theorem Digits.head? {P : ℕ → Bool} (h : Digits P ds) : ∃ c ∈ ds.head?, P c.toNat := by
  cases h with
  | single hc => exact ⟨_, rfl, hc⟩
  | cons hc _ => exact ⟨_, rfl, hc⟩
  | separator hc _ => exact ⟨_, rfl, hc⟩

theorem scanNumberDot_eq_some_iff {hasDot parseExponent : Bool} :
    scanNumberDot allowNumericSeparator cs = some (hasDot, parseExponent, hasUnderscore, rest) ↔
      ∃ f, cs = f ++ rest ∧ (Fraction f ∧ hasDot = decide (f ≠ []) ∧ parseExponent = true ∧
        hasUnderscore = decide ('_' ∈ f) ∧ ('_' ∈ f → allowNumericSeparator) ∧
        (f = [] → rest.head? ≠ some '.') ∧ (f ≠ [] → Stops isDecimalDigit rest)) := by
  rw [scanNumberDot]
  by_cases hdot : cs.head? = some '.'
  · obtain ⟨cs, rfl⟩ := List.head?_eq_some_iff.mp hdot
    have hconst : LEX_CHAR_UPPERCASE_E ≠ 0 := by decide
    rw [if_pos hdot, List.tail_cons, if_pos (.inr (.inr hconst))]
    constructor
    · intro h
      obtain ⟨⟨flag, rest'⟩, hscan, heq⟩ := Option.map_eq_some_iff.mp h
      obtain ⟨rfl, rfl, rfl, rfl⟩ : true = hasDot ∧ true = parseExponent ∧ flag = hasUnderscore ∧
        rest' = rest := by simpa using heq
      obtain ⟨ds, hcs, hon, hstops, hflag, hallow, hprev⟩ := (scanDecimalNumbers_eq_some_iff _ _ _).mp hscan
      refine ⟨'.' :: ds, by rw [hcs, List.cons_append], ?_, by simp, rfl, by simpa using hflag,
        by simpa using hallow, by simp, fun _ => hstops⟩
      simp only [DigitsOn, if_true] at hon
      rcases hon with rfl | hds | ⟨ds', rfl, -⟩
      · exact .dot
      · exact .digits hds
      · exact absurd ⟨rfl, rfl⟩ hprev
    · rintro ⟨f, hcs, hf, rfl, rfl, rfl, hallow, hnone, hstops⟩
      have hscan (ds : List Char) (hds : ds = [] ∨ Digits isDecimalDigit ds) (hf : f = '.' :: ds) :
          scanDecimalNumbers allowNumericSeparator '.' true cs = some (decide ('_' ∈ f), rest) := by
        have hunderscore : ds.head? ≠ some '_' := by
          rcases hds with rfl | hds
          · simp
          · obtain ⟨c, hc, hdigit⟩ := hds.head?
            rintro heq
            obtain rfl : '_' = c := by simpa [heq] using hc
            exact absurd hdigit (by decide)
        subst hf
        refine (scanDecimalNumbers_eq_some_iff _ _ _).mpr ⟨ds, by simpa using hcs, ?_, hstops (by simp),
          by simp, by simpa using hallow, fun h => hunderscore h.2⟩
        simp only [DigitsOn, if_true]
        exact hds.imp_right .inl
      cases hf with
      | none => exact absurd (show rest.head? = some '.' by rw [← List.nil_append rest, ← hcs]; rfl) (hnone rfl)
      | dot =>
        rw [hscan [] (.inl rfl) rfl]
        rfl
      | digits hds =>
        rw [hscan _ (.inr hds) rfl]
        rfl
  · rw [if_neg hdot]
    constructor
    · intro h
      obtain ⟨rfl, rfl, rfl, rfl⟩ : false = hasDot ∧ true = parseExponent ∧ false = hasUnderscore ∧
        cs = rest := by simpa using h
      exact ⟨[], rfl, .none, rfl, rfl, rfl, by simp, fun _ => hdot, by simp⟩
    · rintro ⟨f, hcs, hf, rfl, rfl, rfl, -, -, -⟩
      cases hf with
      | none => simpa using hcs
      | dot => simp [hcs] at hdot
      | digits hds => simp [hcs] at hdot

theorem scanDecimalNumbers_of_digits {prev : Char} (h : Digits isDecimalDigit ds)
    (hstops : Stops isDecimalDigit rest) (hallow : '_' ∈ ds → allowNumericSeparator) :
    scanDecimalNumbers allowNumericSeparator prev true (ds ++ rest) = some (decide ('_' ∈ ds), rest) := by
  refine (scanDecimalNumbers_eq_some_iff _ _ _).mpr ⟨ds, rfl, .inr (.inl h), hstops, rfl, hallow, ?_⟩
  rintro ⟨-, hunderscore⟩
  obtain ⟨c, hc, hdigit⟩ := h.head?
  obtain rfl : '_' = c := by simpa [hunderscore] using hc
  exact absurd hdigit (by decide)

theorem digits_of_scanDecimalNumbers {prev : Char} (hpeek : isDecimalDigit (peekCp cs))
    (h : scanDecimalNumbers allowNumericSeparator prev true cs = some (hasUnderscore, rest)) :
    ∃ ds, cs = ds ++ rest ∧ Digits isDecimalDigit ds ∧ Stops isDecimalDigit rest ∧
      hasUnderscore = decide ('_' ∈ ds) ∧ ('_' ∈ ds → allowNumericSeparator) := by
  obtain ⟨ds, hcs, hon, hstops, hflag, hallow, -⟩ := (scanDecimalNumbers_eq_some_iff _ _ _).mp h
  rcases ds with _ | ⟨d, ds⟩
  · rcases rest with _ | ⟨c, rest⟩
    · rw [hcs] at hpeek
      exact absurd hpeek (by decide)
    · rw [hcs] at hpeek
      exact absurd (.inl hpeek) (hstops c rfl)
  · rw [hcs] at hpeek
    exact ⟨d :: ds, hcs, digits_of_digitsOn hon rfl hpeek, hstops, hflag, hallow⟩

theorem peekCp_digits (h : Digits isDecimalDigit ds) (rest : List Char) :
    isDecimalDigit (peekCp (ds ++ rest)) := by
  cases h <;> simpa [peekCp]

theorem Digits.head?_ne_sign (h : Digits isDecimalDigit ds) (rest : List Char) :
    ¬((ds ++ rest).head? = some '_' ∨ (ds ++ rest).head? = some '+' ∨ (ds ++ rest).head? = some '-') := by
  have hpeek := peekCp_digits h rest
  rcases hds : ds ++ rest with _ | ⟨c, cs⟩
  · simp
  · rw [hds] at hpeek
    simp only [List.head?_cons, Option.some.injEq]
    rintro (rfl | rfl | rfl) <;> simp [peekCp, isDecimalDigit] at hpeek

theorem scanExponentDigits_eq_some_iff {hasExponent : Bool} {signPos exponentSignPos : Option ℕ} :
    scanExponentDigits allowNumericSeparator signPos cs =
        some (hasExponent, exponentSignPos, hasUnderscore, rest) ↔
      ∃ ds, cs = ds ++ rest ∧ Digits isDecimalDigit ds ∧ Stops isDecimalDigit rest ∧ hasExponent = true ∧
        exponentSignPos = signPos ∧ hasUnderscore = decide ('_' ∈ ds) ∧ ('_' ∈ ds → allowNumericSeparator) := by
  rw [scanExponentDigits]
  constructor
  · intro h
    split at h
    · cases h
    · next hpeek =>
      obtain ⟨⟨flag, rest'⟩, hscan, heq⟩ := Option.map_eq_some_iff.mp h
      obtain ⟨rfl, rfl, rfl, rfl⟩ : true = hasExponent ∧ signPos = exponentSignPos ∧ flag = hasUnderscore ∧
        rest' = rest := by simpa using heq
      obtain ⟨ds, hcs, hds, hstops, hflag, hallow⟩ :=
        digits_of_scanDecimalNumbers (by simpa using hpeek) hscan
      exact ⟨ds, hcs, hds, hstops, rfl, rfl, hflag, hallow⟩
  · rintro ⟨ds, rfl, hds, hstops, rfl, rfl, rfl, hallow⟩
    rw [if_neg (by simp [peekCp_digits hds rest]), scanDecimalNumbers_of_digits hds hstops hallow]
    rfl

theorem scanExponentSign_digits {start : List Char} (h : Digits isDecimalDigit ds) :
    scanExponentSign start (ds ++ rest) = (some (start.length - (ds ++ rest).length), ds ++ rest) := by
  have hhead := h.head?_ne_sign rest
  rw [scanExponentSign]
  split <;> simp_all

theorem scanNumberExponent_eq_some_iff (start : List Char) {hasExponent : Bool}
    {exponentSignPos : Option ℕ} :
    scanNumberExponent start allowNumericSeparator true cs =
        some (hasExponent, exponentSignPos, hasUnderscore, rest) ↔
      ∃ e, cs = e ++ rest ∧ (Exponent e ∧ hasExponent = decide (e ≠ []) ∧
        exponentSignPos = exponentSignPosOf start e rest ∧ hasUnderscore = decide ('_' ∈ e) ∧
        ('_' ∈ e → allowNumericSeparator) ∧
        (e = [] → rest.head? ≠ some 'e' ∧ rest.head? ≠ some 'E') ∧ (e ≠ [] → Stops isDecimalDigit rest)) := by
  rw [scanNumberExponent]
  by_cases hexponent : cs.head? = some 'e' ∨ cs.head? = some 'E'
  · obtain ⟨c, cs, rfl, hc⟩ : ∃ c cs', cs = c :: cs' ∧ (c = 'e' ∨ c = 'E') := by
      rcases cs with _ | ⟨c, cs⟩ <;> simp_all
    have hne : '_' ≠ c := by
      rintro rfl
      revert hc
      decide
    rw [if_pos hexponent, if_neg (by simp), List.tail_cons]
    change scanExponentDigits allowNumericSeparator (scanExponentSign start cs).1
      (scanExponentSign start cs).2 = _ ↔ _
    constructor
    · intro h
      obtain ⟨ds, hcs, hds, hstops, rfl, rfl, rfl, hallow⟩ := scanExponentDigits_eq_some_iff.mp h
      by_cases hsign : ∃ s, cs.head? = some s ∧ (s = '+' ∨ s = '-')
      · obtain ⟨s, hhead, hs⟩ := hsign
        obtain ⟨cs, rfl⟩ := List.head?_eq_some_iff.mp hhead
        have hne' : '_' ≠ s := by
          rintro rfl
          revert hs
          decide
        have heq : scanExponentSign start (s :: cs) = (none, cs) := by
          rcases hs with rfl | rfl <;> rfl
        rw [heq] at hcs ⊢
        obtain rfl : cs = ds ++ rest := hcs
        refine ⟨c :: s :: ds, rfl, .part hc (.signed hs hds), rfl, ?_, by simp [hne, hne'],
          by simpa [hne, hne'] using hallow, by simp, fun _ => hstops⟩
        simp [exponentSignPosOf, hs]
      · have hcs' : cs = ds ++ rest := by
          rw [← hcs, scanExponentSign]
          split <;> simp_all
        subst hcs'
        rw [scanExponentSign_digits hds]
        refine ⟨c :: ds, rfl, .part hc (.unsigned hds), rfl, ?_, by simp [hne], by simpa [hne] using hallow,
          by simp, fun _ => hstops⟩
        have hhead := hds.head?_ne_sign []
        rw [List.append_nil] at hhead
        simp only [exponentSignPosOf]
        rw [if_neg (fun h => hhead (.inr h))]
    · rintro ⟨e, hcs, he, rfl, rfl, rfl, hallow, hnone, hstops⟩
      cases he with
      | none => grind
      | @part c' ds hc' h =>
        obtain ⟨rfl, rfl⟩ : c = c' ∧ cs = ds ++ rest := by simpa using hcs
        refine scanExponentDigits_eq_some_iff.mpr ?_
        cases h with
        | unsigned hds =>
          have hhead := hds.head?_ne_sign []
          rw [List.append_nil] at hhead
          rw [scanExponentSign_digits hds]
          refine ⟨ds, rfl, hds, hstops (by simp), by simp, ?_, by simp [hne], by simpa [hne] using hallow⟩
          simp only [exponentSignPosOf]
          rw [if_neg (fun h => hhead (.inr h))]
        | @signed s ds hs hds =>
          have hne' : '_' ≠ s := by
            rintro rfl
            revert hs
            decide
          have heq : scanExponentSign start (s :: ds ++ rest) = (none, ds ++ rest) := by
            rcases hs with rfl | rfl <;> rfl
          rw [heq]
          refine ⟨ds, rfl, hds, hstops (by simp), by simp, ?_, by simp [hne, hne'],
            by simpa [hne, hne'] using hallow⟩
          simp [exponentSignPosOf, hs]
  · rw [if_neg hexponent]
    constructor
    · intro h
      obtain ⟨rfl, rfl, rfl, rfl⟩ : false = hasExponent ∧ none = exponentSignPos ∧ false = hasUnderscore ∧
        cs = rest := by simpa using h
      exact ⟨[], rfl, .none, rfl, rfl, rfl, by simp, fun _ => not_or.mp hexponent, by simp⟩
    · rintro ⟨e, hcs, he, rfl, rfl, rfl, -, -, -⟩
      cases he with
      | none => simpa [exponentSignPosOf] using hcs
      | part hc h => simp [hcs, hc] at hexponent

theorem checkNumberLiteralEnd_eq_some_iff {isBigInt : Bool} :
    checkNumberLiteralEnd idStart cs = some (isBigInt, rest) ↔
      ∃ suffix, cs = suffix ++ rest ∧ (suffix = [] ∨ suffix = ['n']) ∧ isBigInt = decide (suffix = ['n']) ∧
        numberEnds idStart rest := by
  rw [checkNumberLiteralEnd]
  by_cases hn : cs.head? = some 'n'
  · obtain ⟨cs, rfl⟩ := List.head?_eq_some_iff.mp hn
    constructor
    · intro h
      obtain ⟨hends, rfl, rfl⟩ : numberEnds idStart cs ∧ true = isBigInt ∧ cs = rest := by simpa using h
      exact ⟨['n'], rfl, .inr rfl, by simp, hends⟩
    · rintro ⟨suffix, hcs, rfl | rfl, rfl, hends⟩
      · rw [← List.nil_append rest, ← hcs] at hends
        simp [numberEnds, peekCp, isIdentifierStart, asciiIdStart] at hends
      · simp_all
  · constructor
    · intro h
      obtain ⟨hends, rfl, rfl⟩ : numberEnds idStart cs ∧ false = isBigInt ∧ cs = rest := by simpa [hn] using h
      exact ⟨[], rfl, .inl rfl, by simp, hends⟩
    · rintro ⟨suffix, rfl, rfl | rfl, rfl, hends⟩
      · simp_all
      · simp at hn

theorem stops_of_numberEnds (h : numberEnds idStart rest) : Stops isDecimalDigit rest := by
  rintro c hc (hdigit | rfl)
  · obtain ⟨cs, rfl⟩ := List.head?_eq_some_iff.mp hc
    simp [numberEnds, peekCp, hdigit] at h
  · obtain ⟨cs, rfl⟩ := List.head?_eq_some_iff.mp hc
    simp [numberEnds, peekCp, isIdentifierStart, asciiIdStart] at h

theorem head?_ne_of_numberEnds (h : numberEnds idStart rest) :
    rest.head? ≠ some 'e' ∧ rest.head? ≠ some 'E' := by
  constructor <;>
  · intro hhead
    obtain ⟨cs, rfl⟩ := List.head?_eq_some_iff.mp hhead
    simp [numberEnds, peekCp, isIdentifierStart, asciiIdStart] at h

theorem stops_of_head? (c : Char) (h : cs.head? = some c) (hc : c ∈ ['.', 'e', 'E', 'n']) :
    Stops isDecimalDigit cs := by
  rintro d hd
  obtain rfl : c = d := by simpa [h] using hd
  clear * - hc
  revert c
  decide

theorem Exponent.head? {e : List Char} (h : Exponent e) (he : e ≠ []) :
    e.head? = some 'e' ∨ e.head? = some 'E' := by
  cases h with
  | none => exact absurd rfl he
  | part hc _ => simpa using hc

theorem Fraction.head? {f : List Char} (h : Fraction f) (hf : f ≠ []) : f.head? = some '.' := by
  cases h with
  | none => exact absurd rfl hf
  | dot => rfl
  | digits => rfl

section Stops

variable {f e suffix : List Char} (hf : Fraction f) (he : Exponent e) (hsuffix : suffix = [] ∨ suffix = ['n'])
  (hends : numberEnds idStart rest)

include hsuffix hends

theorem stops_suffix : Stops isDecimalDigit (suffix ++ rest) := by
  rcases hsuffix with rfl | rfl
  · exact stops_of_numberEnds hends
  · exact stops_of_head? 'n' rfl (by decide)

include he

theorem stops_exponent : Stops isDecimalDigit (e ++ (suffix ++ rest)) := by
  by_cases hnil : e = []
  · simpa [hnil] using stops_suffix hsuffix hends
  · rcases he.head? hnil with h | h
    · exact stops_of_head? 'e' (by simp [h]) (by decide)
    · exact stops_of_head? 'E' (by simp [h]) (by decide)

include hf

theorem stops_fraction : Stops isDecimalDigit (f ++ (e ++ (suffix ++ rest))) := by
  by_cases hnil : f = []
  · simpa [hnil] using stops_exponent he hsuffix hends
  · exact stops_of_head? '.' (by simp [hf.head? hnil]) (by decide)

end Stops

/-- What the scanner leaves of a number, and what it passes over. -/
theorem scanNumber_eq_some_iff {start : List Char} {allowBigInt : Bool} {prev : Char} {token : NumberToken} :
    scanNumber idStart start allowNumericSeparator allowBigInt prev cs = some token ↔
      ∃ ds f e suffix, cs = ds ++ (f ++ (e ++ (suffix ++ token.rest))) ∧
        NumberParts idStart allowNumericSeparator allowBigInt prev ds f e suffix token.rest ∧
        token.hasUnderscore = decide ('_' ∈ ds ++ f ++ e) ∧ token.isBigInt = decide (suffix = ['n']) ∧
        token.exponentSignPos = exponentSignPosOf start e (suffix ++ token.rest) := by
  constructor
  · intro h
    rw [scanNumber, Option.bind_eq_bind, Option.bind_eq_some_iff] at h
    obtain ⟨⟨flag, cs₁⟩, hdigits, h⟩ := h
    obtain ⟨⟨hasDot, parseExponent, flag', cs₂⟩, hdot, h⟩ := Option.bind_eq_some_iff.mp h
    obtain ⟨⟨hasExponent, pos, flag'', cs₃⟩, hexponent, h⟩ := Option.bind_eq_some_iff.mp h
    obtain ⟨⟨isBigInt, rest⟩, hend, h⟩ := Option.bind_eq_some_iff.mp h
    obtain ⟨f, rfl, hf, rfl, rfl, rfl, hallow', hdot, -⟩ := scanNumberDot_eq_some_iff.mp hdot
    obtain ⟨ds, rfl, hds, -, rfl, hallow, hprev⟩ := (scanDecimalNumbers_eq_some_iff _ _ _).mp hdigits
    obtain ⟨e, rfl, he, rfl, rfl, rfl, hallow'', -, -⟩ := (scanNumberExponent_eq_some_iff _).mp hexponent
    obtain ⟨suffix, rfl, hsuffix, rfl, hends⟩ := checkNumberLiteralEnd_eq_some_iff.mp hend
    dsimp only at h
    split at h
    · cases h
    · next hbig =>
      cases h
      refine ⟨ds, f, e, suffix, rfl, ⟨hds, hprev, hf, he, ?_, ?_, ?_, hends⟩, ?_, rfl, rfl⟩
      · rcases hsuffix with rfl | rfl
        · exact .inl rfl
        · simp_all
      · simp only [List.mem_append]
        rintro ((h | h) | h)
        exacts [hallow h, hallow' h, hallow'' h]
      · intro hnil
        obtain ⟨rfl, rfl, rfl⟩ : f = [] ∧ e = [] ∧ suffix = [] := by simpa using hnil
        exact hdot rfl
      · simp [Bool.or_assoc]
  · rintro ⟨ds, f, e, suffix, rfl, hparts, hflag, hbig, hpos⟩
    obtain ⟨hdigits, hprev, hf, he, hbigInt, hseparators, hnoDot, hends⟩ := hparts
    simp only [List.mem_append] at hseparators
    have hsuffix : suffix = [] ∨ suffix = ['n'] := hbigInt.imp_right And.left
    have hstops₃ := stops_suffix hsuffix hends
    have hstops₂ := stops_exponent he hsuffix hends
    have hstops₁ := stops_fraction hf he hsuffix hends
    have hdot : f = [] → (e ++ (suffix ++ token.rest)).head? ≠ some '.' := by
      intro hf
      by_cases hnil : e = []
      · rcases hsuffix with rfl | rfl
        · simpa [hnil] using hnoDot (by simp [hf, hnil])
        · simp [hnil]
      · rcases he.head? hnil with h | h <;> simp [h]
    have hletter : e = [] → (suffix ++ token.rest).head? ≠ some 'e' ∧ (suffix ++ token.rest).head? ≠ some 'E' := by
      rintro -
      rcases hsuffix with rfl | rfl
      · exact head?_ne_of_numberEnds hends
      · simp
    have hscan := (scanDecimalNumbers_eq_some_iff prev true (decide ('_' ∈ ds))).mpr
      ⟨ds, rfl, hdigits, hstops₁, rfl, fun h => hseparators (.inl (.inl h)), hprev⟩
    have hscanDot := scanNumberDot_eq_some_iff.mpr
      ⟨f, rfl, hf, rfl, rfl, rfl, fun h => hseparators (.inl (.inr h)), hdot, fun _ => hstops₂⟩
    have hscanExponent := (scanNumberExponent_eq_some_iff start).mpr
      ⟨e, rfl, he, rfl, rfl, rfl, fun h => hseparators (.inr h), hletter, fun _ => hstops₃⟩
    have hscanEnd := checkNumberLiteralEnd_eq_some_iff.mpr ⟨suffix, rfl, hsuffix, rfl, hends⟩
    have hbigInt' : ¬((suffix = ['n']) ∧ (allowBigInt = false ∨ f ≠ [] ∨ e ≠ [])) := by
      rintro ⟨rfl, hnot⟩
      simp_all
    obtain ⟨hasUnderscore, isBigInt, exponentSignPos, rest⟩ := token
    simp only [scanNumber, hscan, hscanDot, hscanExponent, hscanEnd, Option.bind_eq_bind, Option.bind_some]
    rw [if_neg (by simpa using hbigInt')]
    simp only at hflag hbig hpos
    simp [hflag, hbig, hpos, Bool.or_assoc]

/-- What the digits of a radix have in common. -/
def IsRadix (P : ℕ → Bool) : Prop :=
  ∀ cp, P cp → cp < 0x80 ∧ asciiIdContinue cp ∧ cp ≠ '_'.toNat ∧ cp ≠ 'n'.toNat

theorem isRadix_isHexDigit : IsRadix isHexDigit := by
  intro cp h
  simp only [isHexDigit, asciiIdContinue, asciiIdStart, isDecimalDigit] at h ⊢
  grind

theorem isRadix_isOctalDigit : IsRadix isOctalDigit := by
  intro cp h
  simp only [isOctalDigit, asciiIdContinue, asciiIdStart, isDecimalDigit] at h ⊢
  grind

theorem isRadix_isBinaryDigit : IsRadix isBinaryDigit := by
  intro cp h
  simp only [isBinaryDigit, asciiIdContinue, asciiIdStart, isDecimalDigit] at h ⊢
  grind

theorem scanNumberRadix_eq_some_iff {P : ℕ → Bool} (hP : IsRadix P) :
    scanNumberRadix P cs = some rest ↔ ∃ ds, cs = ds ++ rest ∧ Digits P ds ∧ Stops P rest := by
  have hunderscore : ¬P '_'.toNat := fun h => (hP _ h).2.2.1 rfl
  have hinvalid : P INVALID_CP = false := by
    by_contra h
    have := (hP _ (by simpa using h)).1
    revert this
    decide
  rw [scanNumberRadix]
  constructor
  · intro h
    split at h
    · cases h
    · next hpeek =>
      obtain ⟨ds, rfl, hon, hstops⟩ := (scanNumberRadixLoop_eq_some_iff hunderscore true).mp h
      refine ⟨ds, rfl, ?_, hstops⟩
      rcases ds with _ | ⟨d, ds⟩
      · rcases rest with _ | ⟨c, rest⟩
        · exact absurd hinvalid hpeek
        · exact absurd (.inl (by simpa [peekCp] using hpeek)) (hstops c rfl)
      · have hd : P d.toNat := by simpa [peekCp] using hpeek
        simp only [DigitsOn, if_true, reduceCtorEq, false_or] at hon
        rcases hon with h | ⟨ds', h, -⟩
        · exact h
        · obtain ⟨rfl, -⟩ := List.cons.inj h
          exact absurd hd hunderscore
  · rintro ⟨ds, rfl, hds, hstops⟩
    obtain ⟨c, hc, hdigit⟩ := hds.head?
    obtain ⟨ds', rfl⟩ := List.head?_eq_some_iff.mp hc
    rw [if_neg (by simp [peekCp, hdigit])]
    exact (scanNumberRadixLoop_eq_some_iff hunderscore true).mpr ⟨_, rfl, .inr (.inl hds), hstops⟩

theorem scanRadixLiteral_iff {P : ℕ → Bool} (hP : IsRadix P) :
    (∃ token, scanRadixLiteral idStart P cs = some token ∧ token.rest = rest) ↔
      ∃ ds suffix, cs = ds ++ (suffix ++ rest) ∧ Digits P ds ∧ (suffix = [] ∨ suffix = ['n']) ∧
        numberEnds idStart rest := by
  constructor
  · rintro ⟨token, h, rfl⟩
    rw [scanRadixLiteral, Option.bind_eq_bind, Option.bind_eq_some_iff] at h
    obtain ⟨cs', hradix, h⟩ := h
    obtain ⟨⟨isBigInt, rest⟩, hend, h⟩ := Option.bind_eq_some_iff.mp h
    obtain ⟨ds, rfl, hds, -⟩ := (scanNumberRadix_eq_some_iff hP).mp hradix
    obtain ⟨suffix, rfl, hsuffix, rfl, hends⟩ := checkNumberLiteralEnd_eq_some_iff.mp hend
    cases h
    exact ⟨ds, suffix, rfl, hds, hsuffix, hends⟩
  · rintro ⟨ds, suffix, rfl, hds, hsuffix, hends⟩
    have hstops : Stops P (suffix ++ rest) := by
      rcases hsuffix with rfl | rfl
      · rintro c hc (hdigit | rfl)
        · obtain ⟨cs, rfl⟩ := List.head?_eq_some_iff.mp hc
          obtain ⟨hlt, hcontinue, -⟩ := hP _ hdigit
          simp only [numberEnds, peekCp, isIdentifierStart] at hends
          simp [asciiIdContinue] at hcontinue
          grind
        · exact stops_of_numberEnds hends _ hc (.inr rfl)
      · rintro c hc
        obtain rfl : 'n' = c := by simpa using hc
        rintro (hdigit | h)
        · exact (hP _ hdigit).2.2.2 rfl
        · exact absurd h (by decide)
    have hradix := (scanNumberRadix_eq_some_iff hP).mpr ⟨ds, rfl, hds, hstops⟩
    have hend := checkNumberLiteralEnd_eq_some_iff.mpr ⟨suffix, rfl, hsuffix, rfl, hends⟩
    simp only [scanRadixLiteral, hradix, hend, Option.bind_eq_bind, Option.bind_some]
    exact ⟨_, rfl, rfl⟩

end Parts

end ArkTs2abc.Es2panda.Lexer
