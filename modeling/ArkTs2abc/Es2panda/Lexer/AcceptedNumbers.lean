import ArkTs2abc.Es2panda.Lexer.NumberParts

/-!
# The numbers that the lexer accepts

Behind a leading zero the lexer takes no separators, in the fraction and in the exponent either. Behind a
leading dot it goes on as if an integer stood there: it takes a second dot, and the suffix of a `BigInt`. Of
the character behind a number it looks at sixteen bits.

## Main definitions

* `ScansNumber` — the lexer reads the longest literal of the grammar, and nothing else.
* `PlainNumber` — a text where the lexer does none of these.

## Main results

* `scansNumber_iff`
-/

namespace ArkTs2abc.Es2panda.Lexer

/-- Whether the lexer reads just what the grammar has at the start of a text. -/
def ScansNumber (idStart : ℕ → Bool) (cs : List Char) : Prop :=
  ∀ rest, (∃ token, scanNumericLiteral idStart cs = some token ∧ token.rest = rest) ↔
    ∃ lit, ReadsNumber idStart cs lit rest

/-- Behind a leading zero, there is a separator in the fraction or in the exponent. -/
def SeparatedFraction (lit : List Char) : Prop :=
  ∃ c cs, lit = '0' :: c :: cs ∧ (c = '.' ∨ c = 'e' ∨ c = 'E') ∧ '_' ∈ cs

/-- A text where the lexer agrees with the grammar. -/
structure PlainNumber (idStart : ℕ → Bool) (cs : List Char) : Prop where
  separators : ∀ lit rest, cs = lit ++ rest → NumericLiteral lit → SeparatedFraction lit →
    ¬FollowOk idStart rest
  dots : ∀ ds rest, cs = '.' :: ds ++ '.' :: rest → ¬Digits isDecimalDigit ds
  bigInt : ∀ ds rest, cs = '.' :: ds ++ 'n' :: rest → Digits isDecimalDigit ds → ¬numberEnds idStart rest
  follow : ∀ lit rest, cs = lit ++ rest → NumericLiteral lit → ¬SeparatedFraction lit →
    (numberEnds idStart rest ↔ FollowOk idStart rest)

/-- A literal that the lexer reads where it stands in front of `rest`. -/
structure PlainLiteral (lit rest : List Char) : Prop where
  literal : NumericLiteral lit
  separators : ¬SeparatedFraction lit
  integer : rest.head? = some '.' → ¬DecimalInteger lit
  point : ∀ ds, lit = '.' :: ds → Digits isDecimalDigit ds → rest.head? ≠ some '.'

section Follow

variable {idStart : ℕ → Bool} {rest : List Char} {lit : List Char} {c : Char}

theorem not_isWord_of_numberEnds (h : numberEnds idStart rest) (hc : c ∈ rest.head?) : ¬isWord c := by
  obtain ⟨cs, rfl⟩ := List.head?_eq_some_iff.mp hc
  intro hword
  have hlt := toNat_lt_of_isWord hword
  simp only [numberEnds, peekCp, isIdentifierStart] at h
  simp only [isWord, asciiIdContinue] at hword
  grind

theorem not_isWord_of_followOk (h : FollowOk idStart rest) (hc : c ∈ rest.head?) : ¬isWord c := by
  intro hword
  have hlt := toNat_lt_of_isWord hword
  have hfollow := h c hc
  simp only [IdentifierStart, if_pos hlt, isDigit] at hfollow
  simp only [isWord, asciiIdContinue] at hword
  grind

theorem numberEnds_iff_followOk (hc : c ∈ rest.head?) (hlt : c.toNat < 0x80) :
    numberEnds idStart rest ↔ FollowOk idStart rest := by
  obtain ⟨cs, rfl⟩ := List.head?_eq_some_iff.mp hc
  simp [numberEnds, FollowOk, peekCp, isIdentifierStart, IdentifierStart, isDigit, hlt]

theorem ReadsNumber.head?_ne_dot {cs : List Char} (h : ReadsNumber idStart cs lit rest)
    (hdot : rest.head? = some '.') : ¬DecimalInteger lit := by
  intro hinteger
  obtain ⟨rest, rfl⟩ := List.head?_eq_some_iff.mp hdot
  have hdotted : NumericLiteral (lit ++ ['.'] ++ []) := .decimal hinteger .dot .none
  have hle := h.longest (lit ++ ['.'] ++ []) ⟨rest, by simp [h.text]⟩ hdotted
  simp at hle

theorem not_decimalInteger_dot {cs : List Char} : ¬DecimalInteger ('.' :: cs) := by
  intro h
  have := h.digits.mem (c := '.') (by simp)
  revert this
  decide

theorem NumericLiteral.readsNumber (h : NumericLiteral lit) (hfollow : FollowOk idStart rest)
    (hdot : rest.head? = some '.' → ¬DecimalInteger lit) : ReadsNumber idStart (lit ++ rest) lit rest where
  text := rfl
  literal := h
  longest := h.longest (fun _ hx => not_isWord_of_followOk hfollow hx) hdot
  follow := hfollow

end Follow

section Literals

variable {idStart : ℕ → Bool} {rest cs : List Char} {c : Char}

/-- The letters of the radixes. -/
def radixLetters : List Char := ['b', 'B', 'o', 'O', 'x', 'X']

theorem RadixInteger.exists_letter {r : List Char} (h : RadixInteger r) :
    ∃ c ds, r = '0' :: c :: ds ∧ c ∈ radixLetters := by
  cases h with
  | binary hc _ => exact ⟨_, _, rfl, by rcases hc with rfl | rfl <;> decide⟩
  | octal hc _ => exact ⟨_, _, rfl, by rcases hc with rfl | rfl <;> decide⟩
  | hex hc _ => exact ⟨_, _, rfl, by rcases hc with rfl | rfl <;> decide⟩

variable {suffix e f i start : List Char}

theorem RadixInteger.plainLiteral {r : List Char} (h : RadixInteger r)
    (hsuffix : suffix = [] ∨ suffix = ['n']) : PlainLiteral (r ++ suffix) rest := by
  obtain ⟨c, ds, rfl, hc⟩ := h.exists_letter
  constructor
  · rcases hsuffix with rfl | rfl
    · rw [List.append_nil]
      exact .radix h
    · exact .radixBigInt h
  · rintro ⟨d, ds', hds, hd, -⟩
    obtain rfl : c = d := by simp_all
    rcases hd with rfl | rfl | rfl <;> revert hc <;> decide
  · rintro - hinteger
    rcases hinteger.digits.mem (c := c) (by simp) with rfl | hdigit
    · revert hc
      decide
    · clear * - hc hdigit
      revert c
      decide
  · rintro ds' hds'
    simp at hds'

theorem DecimalInteger.eq_nil_of_append (hf : Fraction f) (he : Exponent e)
    (hsuffix : suffix = [] ∨ suffix = ['n']) (h : DecimalInteger (i ++ (f ++ (e ++ suffix)))) :
    f ++ e ++ suffix = [] := by
  have hmem (c : Char) (hc : c ∈ f ++ (e ++ suffix)) : c = '_' ∨ isDecimalDigit c.toNat :=
    h.digits.mem (List.mem_append_right _ hc)
  have hf' : f = [] := by
    by_contra hne
    have := hmem '.' (by simp [List.mem_of_mem_head? (hf.head? hne)])
    revert this
    decide
  have he' : e = [] := by
    by_contra hne
    rcases he.head? hne with hhead | hhead
    · have := hmem 'e' (by simp [List.mem_of_mem_head? hhead])
      revert this
      decide
    · have := hmem 'E' (by simp [List.mem_of_mem_head? hhead])
      revert this
      decide
  rcases hsuffix with rfl | rfl
  · simp [hf', he']
  · exact absurd (hmem 'n' (by simp)) (by decide)

theorem DecimalInteger.plainLiteral (hi : DecimalInteger i) (hf : Fraction f) (he : Exponent e)
    (hsuffix : suffix = [] ∨ suffix = ['n'] ∧ f = [] ∧ e = [])
    (hseparators : i = ['0'] → '_' ∉ f ++ e) (hdot : f ++ e ++ suffix = [] → rest.head? ≠ some '.') :
    PlainLiteral (i ++ (f ++ (e ++ suffix))) rest := by
  obtain ⟨c, ds, rfl⟩ := List.exists_cons_of_ne_nil hi.digits.ne_nil
  constructor
  · rcases hsuffix with rfl | ⟨rfl, rfl, rfl⟩
    · simpa using NumericLiteral.decimal hi hf he
    · exact .bigInt hi
  · rintro ⟨d, ds', hds, hd, hmem⟩
    obtain ⟨rfl, hds⟩ := List.cons.inj hds
    cases hi with
    | zero =>
      have hnot := hseparators rfl
      have htail : f ++ (e ++ suffix) = d :: ds' := (List.cons.inj hds).2
      have hmem' : '_' ∈ f ++ (e ++ suffix) := by simp [htail, hmem]
      rcases hsuffix with rfl | ⟨rfl, rfl, rfl⟩
      · exact hnot (by simpa using hmem')
      · simp at hmem'
    | nonZero hc _ => exact hc rfl
  · rintro hhead hinteger
    exact hdot (hinteger.eq_nil_of_append hf he (hsuffix.imp_right And.left)) hhead
  · rintro ds' hds'
    obtain ⟨rfl, -⟩ := List.cons.inj hds'
    exact absurd hi not_decimalInteger_dot

theorem scanNumberLeadingZero_eq (hletter : ∀ c ∈ cs.head?, c ∉ radixLetters) :
    scanNumberLeadingZero idStart start cs =
      if isDecimalDigit (peekCp cs) then none else scanNumber idStart start false true '0' cs := by
  rcases cs with _ | ⟨c, cs⟩
  · rfl
  · have hc := hletter c rfl
    rw [scanNumberLeadingZero]
    split
    all_goals simp_all [radixLetters]
    by_cases hzero : c = '0'
    · subst hzero
      rfl
    · simp [hzero]

/-- The digits behind a letter. -/
def radixDigit (c : Char) : ℕ → Bool :=
  if c = 'b' ∨ c = 'B' then isBinaryDigit else if c = 'o' ∨ c = 'O' then isOctalDigit else isHexDigit

theorem isRadix_radixDigit (c : Char) : IsRadix (radixDigit c) := by
  unfold radixDigit
  split_ifs
  exacts [isRadix_isBinaryDigit, isRadix_isOctalDigit, isRadix_isHexDigit]

variable {ds : List Char}

theorem radixInteger_iff (hc : c ∈ radixLetters) :
    RadixInteger ('0' :: c :: ds) ↔ Digits (radixDigit c) ds := by
  constructor
  · intro h
    cases h with
    | binary hc h => rcases hc with rfl | rfl <;> exact h
    | octal hc h => rcases hc with rfl | rfl <;> exact h
    | hex hc h => rcases hc with rfl | rfl <;> exact h
  · intro h
    have hcases : (c = 'b' ∨ c = 'B') ∨ (c = 'o' ∨ c = 'O') ∨ (c = 'x' ∨ c = 'X') := by
      simpa [radixLetters, or_assoc] using hc
    rcases hcases with hb | ho | hx
    · rcases hb with rfl | rfl <;> exact .binary (by decide) h
    · rcases ho with rfl | rfl <;> exact .octal (by decide) h
    · rcases hx with rfl | rfl <;> exact .hex (by decide) h

theorem scanNumberLeadingZero_octal (hc : c = 'o' ∨ c = 'O') :
    scanNumberLeadingZero idStart start (c :: cs) = scanRadixLiteral idStart isOctalDigit cs := by
  have heq : scanNumberLeadingZero idStart start (c :: cs) =
      (scanNumberRadix isOctalDigit cs).bind fun cs' =>
        if cs'.head? = some '8' ∨ cs'.head? = some '9' then none
        else scanRadixLiteral idStart isOctalDigit cs := by
    rcases hc with rfl | rfl <;> rfl
  rw [heq]
  rcases hradix : scanNumberRadix isOctalDigit cs with _ | cs'
  · simp [scanRadixLiteral, hradix]
  · rw [Option.bind_some]
    split
    · next hhead =>
      have hend : checkNumberLiteralEnd idStart cs' = none := by
        rcases cs' with _ | ⟨d, cs'⟩
        · simp at hhead
        · have hd : d = '8' ∨ d = '9' := by simpa using hhead
          rcases hd with rfl | rfl <;>
            simp [checkNumberLiteralEnd, numberEnds, peekCp, isDecimalDigit]
      simp [scanRadixLiteral, hradix, hend]
    · rfl

theorem scanNumberLeadingZero_radix (hc : c ∈ radixLetters) :
    scanNumberLeadingZero idStart start (c :: cs) = scanRadixLiteral idStart (radixDigit c) cs := by
  have hcases : (c = 'b' ∨ c = 'B') ∨ (c = 'o' ∨ c = 'O') ∨ (c = 'x' ∨ c = 'X') := by
    simpa [radixLetters, or_assoc] using hc
  rcases hcases with hb | ho | hx
  · rcases hb with rfl | rfl <;> rfl
  · rw [scanNumberLeadingZero_octal ho]
    rcases ho with rfl | rfl <;> rfl
  · rcases hx with rfl | rfl <;> rfl

theorem digits_of_parts (h : NumberParts idStart true true '.' ds f e suffix rest)
    (hpeek : isDecimalDigit (peekCp (ds ++ (f ++ (e ++ (suffix ++ rest)))))) :
    Digits isDecimalDigit ds := by
  rcases ds with _ | ⟨d, ds⟩
  · have hstops := stops_fraction h.fraction h.exponent (h.bigInt.imp_right And.left) h.ends
    rw [List.nil_append] at hpeek
    rcases htext : f ++ (e ++ (suffix ++ rest)) with _ | ⟨c, cs⟩
    · rw [htext] at hpeek
      exact absurd hpeek (by decide)
    · rw [htext] at hpeek hstops
      exact absurd (.inl hpeek) (hstops c rfl)
  · exact digits_of_digitsOn h.digits rfl hpeek

/-- A second dot, or a suffix, behind a leading dot. -/
inductive DottedNumber : List Char → Prop
  | dots {ds f e : List Char} (hds : Digits isDecimalDigit ds) (hf : Fraction f) (hne : f ≠ [])
      (he : Exponent e) : DottedNumber ('.' :: ds ++ (f ++ e))
  | bigInt {ds : List Char} (hds : Digits isDecimalDigit ds) : DottedNumber ('.' :: ds ++ ['n'])

variable {token : NumberToken}

theorem scanNumber_zero_sound (hpeek : ¬isDecimalDigit (peekCp cs))
    (h : scanNumber idStart start false true '0' cs = some token) :
    ∃ lit, '0' :: cs = lit ++ token.rest ∧ numberEnds idStart token.rest ∧ PlainLiteral lit token.rest := by
  obtain ⟨ds, f, e, suffix, rfl, hparts, -, -, -⟩ := scanNumber_eq_some_iff.mp h
  have hseparators : '_' ∉ ds ++ f ++ e := fun hmem => absurd (hparts.separators hmem) (by simp)
  have hds : ds = [] := by
    have hon := hparts.digits
    simp only [DigitsOn, if_true] at hon
    rcases hon with hnil | hdigits | ⟨ds', rfl, -⟩
    · exact hnil
    · exact absurd (peekCp_digits hdigits _) hpeek
    · simp at hseparators
  subst hds
  have hsuffix : suffix = [] ∨ suffix = ['n'] ∧ f = [] ∧ e = [] := hparts.bigInt.imp_right fun h => ⟨h.1, h.2.2⟩
  refine ⟨['0'] ++ (f ++ (e ++ suffix)), by simp, hparts.ends, ?_⟩
  exact DecimalInteger.zero.plainLiteral hparts.fraction hparts.exponent hsuffix (fun _ => by simpa using hseparators)
    hparts.noDot

theorem scanNumber_nonZero_sound (hc : isDigit c) (hne : c ≠ '0')
    (h : scanNumber idStart start true true c cs = some token) :
    ∃ lit, c :: cs = lit ++ token.rest ∧ numberEnds idStart token.rest ∧ PlainLiteral lit token.rest := by
  obtain ⟨ds, f, e, suffix, rfl, hparts, -, -, -⟩ := scanNumber_eq_some_iff.mp h
  have hinteger : DecimalInteger (c :: ds) := .nonZero hne ((digits_cons_iff hc).mpr hparts.digits)
  have hsuffix : suffix = [] ∨ suffix = ['n'] ∧ f = [] ∧ e = [] := hparts.bigInt.imp_right fun h => ⟨h.1, h.2.2⟩
  refine ⟨c :: ds ++ (f ++ (e ++ suffix)), by simp, hparts.ends, ?_⟩
  exact hinteger.plainLiteral hparts.fraction hparts.exponent hsuffix
    (fun heq => absurd (List.cons.inj heq).1 hne) hparts.noDot

theorem scanNumber_dot_sound (hpeek : isDecimalDigit (peekCp cs))
    (h : scanNumber idStart start true true '.' cs = some token) :
    ∃ lit, '.' :: cs = lit ++ token.rest ∧ numberEnds idStart token.rest ∧
      (PlainLiteral lit token.rest ∨ DottedNumber lit) := by
  obtain ⟨ds, f, e, suffix, rfl, hparts, -, -, -⟩ := scanNumber_eq_some_iff.mp h
  have hds := digits_of_parts hparts hpeek
  refine ⟨'.' :: ds ++ (f ++ (e ++ suffix)), by simp, hparts.ends, ?_⟩
  by_cases hf : f = []
  · subst hf
    rcases hparts.bigInt with rfl | ⟨rfl, -, -, rfl⟩
    · refine .inl ?_
      simp only [List.nil_append, List.append_nil]
      have hnil (ds' : List Char) (hds' : '.' :: ds ++ e = '.' :: ds') (hdigits : Digits isDecimalDigit ds') :
          e = [] := by
        obtain rfl := (List.cons.inj hds').2
        by_contra hne
        rcases hparts.exponent.head? hne with hhead | hhead
        · exact absurd (hdigits.mem (List.mem_append_right _ (List.mem_of_mem_head? hhead))) (by decide)
        · exact absurd (hdigits.mem (List.mem_append_right _ (List.mem_of_mem_head? hhead))) (by decide)
      constructor
      · exact .point hds hparts.exponent
      · rintro ⟨d, ds', heq, -⟩
        simp at heq
      · rintro - hinteger
        exact absurd hinteger not_decimalInteger_dot
      · intro ds' hds' hdigits
        exact hparts.noDot (by simp [hnil ds' hds' hdigits])
    · exact .inr (.bigInt hds)
  · have hsuffix : suffix = [] := hparts.bigInt.resolve_right fun h => hf h.2.2.1
    subst hsuffix
    rw [List.append_nil]
    exact .inr (.dots hds hparts.fraction hf hparts.exponent)

theorem scanNumberLeadingZero_sound (h : scanNumberLeadingZero idStart start cs = some token) :
    ∃ lit, '0' :: cs = lit ++ token.rest ∧ numberEnds idStart token.rest ∧ PlainLiteral lit token.rest := by
  by_cases hletter : ∀ c ∈ cs.head?, c ∉ radixLetters
  · rw [scanNumberLeadingZero_eq hletter] at h
    split at h
    · cases h
    · next hpeek => exact scanNumber_zero_sound hpeek h
  · push Not at hletter
    obtain ⟨c, hhead, hc⟩ := hletter
    obtain ⟨cs, rfl⟩ := List.head?_eq_some_iff.mp hhead
    rw [scanNumberLeadingZero_radix hc] at h
    obtain ⟨ds, suffix, hcs, hds, hsuffix, hends⟩ :=
      (scanRadixLiteral_iff (isRadix_radixDigit c)).mp ⟨token, h, rfl⟩
    refine ⟨'0' :: c :: ds ++ suffix, by simp [hcs], hends, ?_⟩
    exact ((radixInteger_iff hc).mpr hds).plainLiteral hsuffix

theorem scanNumericLiteral_sound (h : scanNumericLiteral idStart cs = some token) :
    ∃ lit, cs = lit ++ token.rest ∧ numberEnds idStart token.rest ∧
      (PlainLiteral lit token.rest ∨ DottedNumber lit) := by
  rcases cs with _ | ⟨c, cs⟩
  · cases h
  · rw [scanNumericLiteral] at h
    split at h
    · next hzero =>
      subst hzero
      obtain ⟨lit, hcs, hends, hplain⟩ := scanNumberLeadingZero_sound h
      exact ⟨lit, hcs, hends, .inl hplain⟩
    · next hzero =>
      split at h
      · next hdigit =>
        obtain ⟨lit, hcs, hends, hplain⟩ := scanNumber_nonZero_sound hdigit hzero h
        exact ⟨lit, hcs, hends, .inl hplain⟩
      · split at h
        · next hdot =>
          obtain ⟨rfl, hpeek⟩ := hdot
          exact scanNumber_dot_sound hpeek h
        · cases h

theorem head?_not_mem_radixLetters (hf : Fraction f) (he : Exponent e)
    (hsuffix : suffix = [] ∨ suffix = ['n']) (hends : numberEnds idStart rest)
    (hc : c ∈ (f ++ (e ++ (suffix ++ rest))).head?) : c ∉ radixLetters := by
  by_cases hfnil : f = []
  · by_cases henil : e = []
    · rcases hsuffix with rfl | rfl
      · have hword := not_isWord_of_numberEnds hends (c := c) (by simpa [hfnil, henil] using hc)
        contrapose! hword
        clear * - hword
        revert c
        decide
      · obtain rfl : 'n' = c := by simpa [hfnil, henil] using hc
        decide
    · rcases he.head? henil with hhead | hhead
      · obtain rfl : 'e' = c := by simpa [hfnil, hhead] using hc
        decide
      · obtain rfl : 'E' = c := by simpa [hfnil, hhead] using hc
        decide
  · obtain rfl : '.' = c := by simpa [hf.head? hfnil] using hc
    decide

/-- The token of a number with these parts. -/
def tokenOf (start m e suffix rest : List Char) : NumberToken :=
  ⟨decide ('_' ∈ m ++ e), decide (suffix = ['n']), exponentSignPosOf start e (suffix ++ rest), rest⟩

theorem scanNumber_complete (start : List Char) {allowNumericSeparator allowBigInt : Bool}
    {prev : Char}
    (h : NumberParts idStart allowNumericSeparator allowBigInt prev ds f e suffix rest) :
    scanNumber idStart start allowNumericSeparator allowBigInt prev (ds ++ (f ++ (e ++ (suffix ++ rest)))) =
      some (tokenOf start (ds ++ f) e suffix rest) :=
  scanNumber_eq_some_iff.mpr ⟨ds, f, e, suffix, rfl, h, rfl, rfl, rfl⟩

theorem tokenOf_cons {m : List Char} (hc : c ≠ '_') :
    tokenOf start (c :: m) e suffix rest = tokenOf start m e suffix rest := by
  simp [tokenOf, hc.symm]

/-- An integer with what may follow it is scanned. -/
theorem scanInteger_complete (suffix rest : List Char) (hi : DecimalInteger i) (hf : Fraction f)
    (he : Exponent e) (hsuffix : suffix = [] ∨ suffix = ['n'] ∧ f = [] ∧ e = [])
    (hseparators : i = ['0'] → '_' ∉ f ++ e) (hdot : f ++ e ++ suffix = [] → rest.head? ≠ some '.')
    (hends : numberEnds idStart rest) :
    scanNumericLiteral idStart (i ++ (f ++ (e ++ (suffix ++ rest)))) =
      some (tokenOf (i ++ (f ++ (e ++ (suffix ++ rest)))) (i ++ f) e suffix rest) := by
  have hbigInt : suffix = [] ∨ suffix = ['n'] ∧ true ∧ f = [] ∧ e = [] := hsuffix.imp_right fun h => ⟨h.1, rfl, h.2⟩
  cases hi with
  | zero =>
    have hstops := stops_fraction hf he (hsuffix.imp_right And.left) hends
    have hletter (c : Char) := head?_not_mem_radixLetters hf he (hsuffix.imp_right And.left) hends (c := c)
    generalize htext : f ++ (e ++ (suffix ++ rest)) = cs at hstops hletter
    have hpeek : ¬isDecimalDigit (peekCp cs) := by
      rcases cs with _ | ⟨c, cs⟩
      · decide
      · exact fun h => hstops c rfl (.inl h)
    have hparts : NumberParts idStart false true '0' [] f e suffix rest :=
      ⟨.inl rfl, by simp, hf, he, hbigInt, fun h => absurd h (hseparators rfl), hdot, hends⟩
    rw [List.singleton_append, List.singleton_append, tokenOf_cons (by decide), scanNumericLiteral, if_pos rfl,
      scanNumberLeadingZero_eq hletter, if_neg hpeek, ← htext]
    exact scanNumber_complete _ hparts
  | @nonZero c ds hc hds =>
    have hdigit : isDigit c := by cases hds <;> assumption
    have hparts : NumberParts idStart true true c ds f e suffix rest := by
      refine ⟨(digits_cons_iff hdigit).mp hds, ?_, hf, he, hbigInt, fun _ => rfl, hdot, hends⟩
      rintro ⟨rfl, -⟩
      exact absurd hdigit (by decide)
    have hne : c ≠ '_' := by
      rintro rfl
      exact absurd hdigit (by decide)
    rw [List.cons_append, List.cons_append, tokenOf_cons hne, scanNumericLiteral, if_neg hc, if_pos hdigit]
    exact scanNumber_complete _ hparts

theorem scanRadix_complete {r : List Char} (hr : RadixInteger r)
    (hsuffix : suffix = [] ∨ suffix = ['n']) (hends : numberEnds idStart rest) :
    ∃ token, scanNumericLiteral idStart (r ++ (suffix ++ rest)) = some token ∧ token.rest = rest := by
  obtain ⟨c, ds, rfl, hc⟩ := hr.exists_letter
  simp only [List.cons_append]
  rw [scanNumericLiteral, if_pos rfl, scanNumberLeadingZero_radix hc]
  exact (scanRadixLiteral_iff (isRadix_radixDigit c)).mpr
    ⟨ds, suffix, rfl, (radixInteger_iff hc).mp hr, hsuffix, hends⟩

theorem scanPoint_complete (suffix rest : List Char) (hds : Digits isDecimalDigit ds)
    (he : Exponent e) (hsuffix : suffix = [] ∨ suffix = ['n'] ∧ e = [])
    (hdot : e ++ suffix = [] → rest.head? ≠ some '.') (hends : numberEnds idStart rest) :
    scanNumericLiteral idStart ('.' :: (ds ++ (e ++ (suffix ++ rest)))) =
      some (tokenOf ('.' :: (ds ++ (e ++ (suffix ++ rest)))) ('.' :: ds) e suffix rest) := by
  have hparts : NumberParts idStart true true '.' ds [] e suffix rest := by
    refine ⟨.inr (.inl hds), ?_, .none, he, ?_, fun _ => rfl, hdot, hends⟩
    · rintro ⟨-, hunderscore⟩
      obtain ⟨c, hc, hdigit⟩ := hds.head?
      obtain rfl : '_' = c := by simpa [hunderscore] using hc
      exact absurd hdigit (by decide)
    · exact hsuffix.imp_right fun h => ⟨h.1, rfl, rfl, h.2⟩
  have hpeek := peekCp_digits hds (e ++ (suffix ++ rest))
  have hscan := scanNumber_complete ('.' :: (ds ++ (e ++ (suffix ++ rest)))) hparts
  rw [scanNumericLiteral, if_neg (by decide), if_neg (by decide), if_pos ⟨rfl, hpeek⟩, tokenOf_cons (by decide)]
  simpa using hscan

theorem PlainLiteral.scan_integer (h : PlainLiteral (i ++ f ++ e) rest)
    (hends : numberEnds idStart rest) (hi : DecimalInteger i) (hf : Fraction f) (he : Exponent e) :
    scanNumericLiteral idStart (i ++ f ++ e ++ rest) =
      some (tokenOf (i ++ f ++ (e ++ rest)) (i ++ f) e [] rest) := by
  have hscan := scanInteger_complete [] rest hi hf he (.inl rfl) ?_ ?_ hends
  · simpa using hscan
  · rintro rfl hmem
    have hhead : ∃ c cs, f ++ e = c :: cs ∧ (c = '.' ∨ c = 'e' ∨ c = 'E') := by
      cases hf with
      | none =>
        cases he with
        | none => simp at hmem
        | part hc _ => exact ⟨_, _, rfl, .inr hc⟩
      | dot => exact ⟨_, _, rfl, .inl rfl⟩
      | digits _ => exact ⟨_, _, rfl, .inl rfl⟩
    obtain ⟨c, cs, htext, hc⟩ := hhead
    refine h.separators ⟨c, cs, by simp [htext], hc, ?_⟩
    rw [htext] at hmem
    rcases hc with rfl | rfl | rfl <;> simpa using hmem
  · intro hnil hdot
    rw [List.append_nil] at hnil
    obtain ⟨rfl, rfl⟩ := List.append_eq_nil_iff.mp hnil
    exact h.integer hdot (by simpa using hi)

theorem PlainLiteral.scan_point (h : PlainLiteral ('.' :: ds ++ e) rest)
    (hends : numberEnds idStart rest) (hds : Digits isDecimalDigit ds) (he : Exponent e) :
    scanNumericLiteral idStart ('.' :: ds ++ e ++ rest) =
      some (tokenOf ('.' :: ds ++ (e ++ rest)) ('.' :: ds) e [] rest) := by
  have hscan := scanPoint_complete [] rest hds he (.inl rfl) ?_ hends
  · simpa using hscan
  · intro hnil
    obtain rfl : e = [] := by simpa using hnil
    exact h.point ds (by simp) hds

theorem PlainLiteral.scans {lit : List Char} (h : PlainLiteral lit rest) (hends : numberEnds idStart rest) :
    ∃ token, scanNumericLiteral idStart (lit ++ rest) = some token ∧ token.rest = rest := by
  have hliteral := h.literal
  cases hliteral with
  | decimal hi hf he => exact ⟨_, h.scan_integer hends hi hf he, rfl⟩
  | point hds he => exact ⟨_, h.scan_point hends hds he, rfl⟩
  | bigInt hi =>
    have hscan := scanInteger_complete ['n'] rest hi .none .none (.inr ⟨rfl, rfl, rfl⟩) (by simp) (by simp) hends
    exact ⟨_, by simpa using hscan, rfl⟩
  | radix hr => exact scanRadix_complete hr (.inl rfl) hends
  | radixBigInt hr =>
    have hscan := scanRadix_complete hr (.inr rfl) hends
    simpa using hscan

end Literals

variable {idStart : ℕ → Bool} {cs : List Char}

theorem readsNumber_dots {ds rest : List Char} (hds : Digits isDecimalDigit ds) :
    ReadsNumber idStart ('.' :: ds ++ '.' :: rest) ('.' :: ds) ('.' :: rest) := by
  have hliteral : NumericLiteral ('.' :: ds) := by simpa using NumericLiteral.point hds .none
  refine hliteral.readsNumber ?_ fun _ => not_decimalInteger_dot
  intro c hc
  obtain rfl : '.' = c := by simpa using hc
  simp [IdentifierStart, asciiIdStart, isDigit, isDecimalDigit]

theorem not_mem_digits {ds : List Char} (hds : Digits isDecimalDigit ds) {c : Char} (hc : c ∈ ['.', 'n']) :
    c ∉ ds := by
  intro hmem
  have := hds.mem hmem
  clear * - hc this
  revert c
  decide

theorem not_mem_exponent {e : List Char} (he : Exponent e) {c : Char} (hc : c ∈ ['.', 'n']) : c ∉ e := by
  have hletter (d : Char) (hd : d ∈ ['e', 'E', '+', '-']) : c ≠ d := by
    rintro rfl
    revert c
    decide
  cases he with
  | none => simp
  | @part d _ hd h =>
    have hne := hletter d (by rcases hd with rfl | rfl <;> decide)
    cases h with
    | unsigned hds => exact List.not_mem_cons_of_ne_of_not_mem hne (not_mem_digits hds hc)
    | @signed s _ hs hds =>
      have hne' := hletter s (by rcases hs with rfl | rfl <;> decide)
      exact List.not_mem_cons_of_ne_of_not_mem hne
        (List.not_mem_cons_of_ne_of_not_mem hne' (not_mem_digits hds hc))

theorem not_numericLiteral_point_bigInt {ds : List Char} : ¬NumericLiteral ('.' :: ds ++ ['n']) := by
  have hinteger {i cs : List Char} (hi : DecimalInteger i) (h : '.' :: ds ++ ['n'] = i ++ cs) : False := by
    obtain ⟨c, i, rfl⟩ := List.exists_cons_of_ne_nil hi.digits.ne_nil
    obtain ⟨rfl, -⟩ := List.cons.inj h
    exact not_decimalInteger_dot hi
  have hradix {r cs : List Char} (hr : RadixInteger r) (h : '.' :: ds ++ ['n'] = r ++ cs) : False := by
    obtain ⟨c, ds', rfl, -⟩ := hr.exists_letter
    simp at h
  intro h
  generalize htext : '.' :: ds ++ ['n'] = lit at h
  cases h with
  | decimal hi hf he => exact hinteger hi (by rw [htext, List.append_assoc])
  | @point ds' e hds he =>
    have htail : ds ++ ['n'] = ds' ++ e := (List.cons.inj htext).2
    have hmem : 'n' ∈ ds' ++ e := by simp [← htail]
    rcases List.mem_append.mp hmem with hmem | hmem
    · exact not_mem_digits hds (by decide) hmem
    · exact not_mem_exponent he (by decide) hmem
  | bigInt hi => exact hinteger hi htext
  | radix hr => exact hradix hr (by rw [htext, List.append_nil])
  | radixBigInt hr => exact hradix hr htext

theorem DottedNumber.not_plainNumber {lit rest : List Char} (h : DottedNumber lit)
    (hends : numberEnds idStart rest) : ¬PlainNumber idStart (lit ++ rest) := by
  intro hplain
  cases h with
  | @dots ds f e hds hf hne he =>
    obtain ⟨f, rfl⟩ := List.head?_eq_some_iff.mp (hf.head? hne)
    exact hplain.dots ds (f ++ e ++ rest) (by simp) hds
  | @bigInt ds hds => exact hplain.bigInt ds rest (by simp) hds hends

theorem DottedNumber.ne_point {lit ds e : List Char} (h : DottedNumber lit) (hds : Digits isDecimalDigit ds)
    (he : Exponent e) : lit ≠ '.' :: ds ++ e := by
  have hmem (c : Char) (hc : c ∈ ['.', 'n']) : c ∉ ds ++ e := fun hmem =>
    (List.mem_append.mp hmem).elim (not_mem_digits hds hc) (not_mem_exponent he hc)
  rintro rfl
  generalize htext : '.' :: ds ++ e = lit at h
  cases h with
  | @dots ds' f e' _ hf hne _ =>
    have htail : ds ++ e = ds' ++ (f ++ e') := (List.cons.inj htext).2
    refine hmem '.' (by decide) ?_
    rw [htail]
    exact List.mem_append_right _ (List.mem_append_left _ (List.mem_of_mem_head? (hf.head? hne)))
  | @bigInt ds' _ =>
    have htail : ds ++ e = ds' ++ ['n'] := (List.cons.inj htext).2
    exact hmem 'n' (by decide) (by simp [htail])

theorem plainLiteral_of_scan {lit rest : List Char} {token : NumberToken}
    (hscan : scanNumericLiteral idStart (lit ++ rest) = some token) (hrest : token.rest = rest)
    (hdotted : ¬DottedNumber lit) :
    numberEnds idStart rest ∧ PlainLiteral lit rest := by
  subst hrest
  obtain ⟨lit', htext, hends, hsound⟩ := scanNumericLiteral_sound hscan
  rw [← List.append_cancel_right htext] at hsound
  exact ⟨hends, hsound.resolve_right hdotted⟩

theorem ScansNumber.sound {lit rest : List Char} (h : ScansNumber idStart (lit ++ rest))
    (hreads : ReadsNumber idStart (lit ++ rest) lit rest) :
    numberEnds idStart rest ∧ (PlainLiteral lit rest ∨ DottedNumber lit) := by
  obtain ⟨token, hscan, rfl⟩ := (h rest).mpr ⟨lit, hreads⟩
  obtain ⟨lit', htext, hsound⟩ := scanNumericLiteral_sound hscan
  rwa [List.append_cancel_right htext]

section

variable (h : ScansNumber idStart cs)
include h

theorem ScansNumber.separators (lit rest : List Char) (hcs : cs = lit ++ rest)
    (hliteral : NumericLiteral lit) (hseparated : SeparatedFraction lit) : ¬FollowOk idStart rest := by
  intro hfollow
  subst hcs
  have hinteger : ¬DecimalInteger lit := by
    intro hinteger
    obtain ⟨c, cs, rfl, hc, -⟩ := hseparated
    have := hinteger.digits.mem (c := c) (by simp)
    rcases hc with rfl | rfl | rfl <;> revert this <;> decide
  obtain ⟨-, hplain | hdotted⟩ := h.sound (hliteral.readsNumber hfollow fun _ => hinteger)
  · exact hplain.separators hseparated
  · obtain ⟨c, cs, rfl, -⟩ := hseparated
    cases hdotted

theorem ScansNumber.dots (ds rest : List Char) (hcs : cs = '.' :: ds ++ '.' :: rest) :
    ¬Digits isDecimalDigit ds := by
  intro hds
  subst hcs
  obtain ⟨-, hplain | hdotted⟩ := h.sound (readsNumber_dots hds)
  · exact hplain.point ds rfl hds rfl
  · exact hdotted.ne_point hds .none (List.append_nil _).symm

theorem ScansNumber.bigInt (ds rest : List Char)
    (hcs : cs = '.' :: ds ++ 'n' :: rest) (hds : Digits isDecimalDigit ds) : ¬numberEnds idStart rest := by
  intro hends
  have hscan := scanPoint_complete ['n'] rest hds .none (.inr ⟨rfl, rfl⟩) (by simp) hends
  obtain ⟨lit, hreads⟩ := (h rest).mp ⟨_, by simpa [hcs] using hscan, rfl⟩
  have htext := hreads.text
  rw [hcs, List.append_cons] at htext
  have hliteral := hreads.literal
  rw [← List.append_cancel_right htext] at hliteral
  exact not_numericLiteral_point_bigInt hliteral

theorem ScansNumber.follow (lit rest : List Char) (hcs : cs = lit ++ rest)
    (hliteral : NumericLiteral lit) (hseparated : ¬SeparatedFraction lit) :
    numberEnds idStart rest ↔ FollowOk idStart rest := by
  subst hcs
  by_cases hascii : ∃ c ∈ rest.head?, c.toNat < 0x80
  · obtain ⟨c, hc, hlt⟩ := hascii
    exact numberEnds_iff_followOk hc hlt
  · have hdot : rest.head? ≠ some '.' := fun hdot => hascii ⟨'.', hdot, by decide⟩
    constructor
    · intro hends
      have hplain : PlainLiteral lit rest :=
        ⟨hliteral, hseparated, fun h => absurd h hdot, fun _ _ _ => hdot⟩
      obtain ⟨lit', hreads⟩ := (h rest).mp (hplain.scans hends)
      exact hreads.follow
    · intro hfollow
      exact (h.sound (hliteral.readsNumber hfollow fun h => absurd h hdot)).1

end

theorem PlainNumber.scansNumber (h : PlainNumber idStart cs) : ScansNumber idStart cs := by
  intro rest
  constructor
  · rintro ⟨token, hscan, rfl⟩
    obtain ⟨lit, rfl, hends, hplain | hdotted⟩ := scanNumericLiteral_sound hscan
    · have hfollow := (h.follow lit token.rest rfl hplain.literal hplain.separators).mp hends
      exact ⟨lit, hplain.literal.readsNumber hfollow hplain.integer⟩
    · exact absurd h (hdotted.not_plainNumber hends)
  · rintro ⟨lit, hreads⟩
    obtain rfl := hreads.text
    have hseparators : ¬SeparatedFraction lit :=
      fun hseparated => h.separators lit rest rfl hreads.literal hseparated hreads.follow
    have hends := (h.follow lit rest rfl hreads.literal hseparators).mpr hreads.follow
    have hplain : PlainLiteral lit rest := by
      refine ⟨hreads.literal, hseparators, hreads.head?_ne_dot, ?_⟩
      rintro ds rfl hds hdot
      obtain ⟨rest, rfl⟩ := List.head?_eq_some_iff.mp hdot
      exact h.dots ds rest rfl hds
    exact hplain.scans hends

/-- The lexer reads just the longest literals in the texts without its four slips. -/
theorem scansNumber_iff : ScansNumber idStart cs ↔ PlainNumber idStart cs :=
  ⟨fun h => ⟨h.separators, h.dots, h.bigInt, h.follow⟩, PlainNumber.scansNumber⟩

/-- The literal `0.1_0` is refused. -/
theorem fraction_separator_refused : ¬ScansNumber (fun _ => false) "0.1_0".toList := by
  intro h
  have hdigits : Digits isDecimalDigit ['1', '_', '0'] := .separator (by decide) (.single (by decide))
  have hliteral : NumericLiteral "0.1_0".toList := .decimal .zero (.digits hdigits) .none
  have hseparated : SeparatedFraction "0.1_0".toList := ⟨'.', ['1', '_', '0'], rfl, .inl rfl, by decide⟩
  exact h.separators _ [] rfl hliteral hseparated (by simp [FollowOk])

end ArkTs2abc.Es2panda.Lexer
