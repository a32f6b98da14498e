import ArkTs2abc.Es2panda.Lexer.AcceptedNumbers
import ArkTs2abc.Number.BinaryFormat
import Mathlib.Order.WithBot
import Mathlib.Tactic.LinearCombination

/-!
# The value of a decimal literal

The lexer edits the text of a literal and hands it to `std::stold`, whose exception on overflow, and on
underflow, it takes for infinity.

## Main definitions

* `stold` — the decimal form of `std::stold`, correctly rounded to a `long double`.
* `convertNumber` — as in the lexer.
* `DecimalLiteral` — the decimal literals with their mathematical values.

## Main results

* `strtold_convertedText` — the edited text has the value of the literal.
* `convertsNumber_iff` — where infinity stands for a number that is too large.
-/

namespace ArkTs2abc.Es2panda.Lexer

/-- The exponent of a decimal text; without digits there is none. -/
def strtoldExponent (cs : List Char) : ℤ :=
  if cs.head? = some 'e' ∨ cs.head? = some 'E' then
    if cs.tail.head? = some '-' then -Nat.ofDigitChars 10 (cs.tail.tail.takeWhile isDigit) 0
    else if cs.tail.head? = some '+' then Nat.ofDigitChars 10 (cs.tail.tail.takeWhile isDigit) 0
    else Nat.ofDigitChars 10 (cs.tail.takeWhile isDigit) 0
  else 0

/-- The number that the longest decimal text at the start denotes; signs in front, and the other forms of
`std::strtold`, are left out. -/
def strtold (text : List Char) : Option ℚ :=
  let integer := text.takeWhile isDigit
  let cs := text.dropWhile isDigit
  let fraction := if cs.head? = some '.' then cs.tail.takeWhile isDigit else []
  let cs := if cs.head? = some '.' then cs.tail.dropWhile isDigit else cs
  if integer ++ fraction = [] then none
  else some (Nat.ofDigitChars 10 (integer ++ fraction) 0 * 10 ^ (strtoldExponent cs - fraction.length))

inductive StoldException where
  | invalidArgument
  | outOfRange

/-- `std::stold`, correctly rounded to the format of `long double`. -/
def stold (longDouble : BinaryFormat) (text : List Char) : Except StoldException ℚ :=
  match strtold text with
  | none => .error .invalidArgument
  | some q =>
    if longDouble.Overflows q ∨ longDouble.Underflows q then .error .outOfRange
    else .ok (longDouble.round q)

def binary64 : BinaryFormat where
  precision := 53
  maxExponent := 1023
  pos := by decide

/-- `static_cast<double>`. -/
def toDouble (x : ℚ) : WithTop ℚ := if binary64.Overflows x then ⊤ else binary64.round x

/-- The text that `ConvertNumber` makes of the source `sv` of a token. -/
def convertedText (sv : List Char) (hasUnderscore : Bool) (exponentSignPos : Option ℕ) : List Char :=
  let utf8 :=
    match exponentSignPos with
    | some pos => sv.take pos ++ '+' :: sv.drop pos
    | none => sv
  if hasUnderscore then utf8.filter (· ≠ '_') else utf8

/-- The new source of the token and its number. -/
def convertNumber (longDouble : BinaryFormat) (sv : List Char) (hasUnderscore : Bool)
    (exponentSignPos : Option ℕ) : Option (List Char × WithTop ℚ) :=
  let utf8 := convertedText sv hasUnderscore exponentSignPos
  match stold longDouble utf8 with
  | .ok x => some (utf8, toDouble x)
  | .error .invalidArgument => none  -- "Invalid number"
  | .error .outOfRange => some (utf8, ⊤)

/-- Half a unit above the largest double. -/
def overflowThreshold : ℚ := 2 ^ 1024 - 2 ^ 970

/-- A `long double` with more bits than a double, by two at least. -/
structure LongDouble extends BinaryFormat where
  wide : 54 < precision
  range : 1023 ≤ maxExponent

/-- The format of 80 bits. -/
def extended : LongDouble where
  precision := 64
  maxExponent := 16383
  pos := by decide
  wide := by decide
  range := by decide

section Value

def removeSeparators (cs : List Char) : List Char := cs.filter (· ≠ '_')

def digitsValue (ds : List Char) : ℕ := Nat.ofDigitChars 10 (removeSeparators ds) 0

/-- The value of a dot and digits. -/
def fractionValue (f : List Char) : ℚ := digitsValue f.tail * 10 ^ (-(removeSeparators f.tail).length : ℤ)

def exponentValue : List Char → ℤ
  | _ :: '-' :: ds => -digitsValue ds
  | _ :: '+' :: ds => digitsValue ds
  | _ :: ds => digitsValue ds
  | [] => 0

/-- A decimal literal and its mathematical value. -/
inductive DecimalLiteral : List Char → ℚ → Prop
  | integer {i f e : List Char} (hi : DecimalInteger i) (hf : Fraction f) (he : Exponent e) :
      DecimalLiteral (i ++ f ++ e) ((digitsValue i + fractionValue f) * 10 ^ exponentValue e)
  | point {ds e : List Char} (hds : Digits isDecimalDigit ds) (he : Exponent e) :
      DecimalLiteral ('.' :: ds ++ e) (fractionValue ('.' :: ds) * 10 ^ exponentValue e)

end Value

/-- The text for the conversion denotes the value of the literal, and infinity is only for numbers above the
largest double, rounded. -/
def ConvertsNumber (longDouble : BinaryFormat) (lit : List Char) (token : NumberToken) (q : ℚ) : Prop :=
  ∃ text number, convertNumber longDouble lit token.hasUnderscore token.exponentSignPos = some (text, number) ∧
    strtold text = some q ∧ (number = ⊤ → binary64.Overflows q)

/-! ### The text -/

section Text

/-- An exponent with a sign. -/
def withSign : List Char → List Char
  | [] => []
  | c :: ds => if ds.head? = some '+' ∨ ds.head? = some '-' then c :: ds else c :: '+' :: ds

/-- The text of a literal is edited at the right places. -/
theorem convertedText_eq {m e rest : List Char} :
    convertedText (m ++ e) (decide ('_' ∈ m ++ e)) (exponentSignPosOf (m ++ (e ++ rest)) e rest) =
      removeSeparators (m ++ withSign e) := by
  have hinsert : (match exponentSignPosOf (m ++ (e ++ rest)) e rest with
      | some pos => (m ++ e).take pos ++ '+' :: (m ++ e).drop pos
      | none => m ++ e) = m ++ withSign e := by
    rcases e with _ | ⟨c, ds⟩
    · simp [exponentSignPosOf, withSign]
    · by_cases hsign : ds.head? = some '+' ∨ ds.head? = some '-'
      · simp only [exponentSignPosOf, withSign, if_pos hsign]
      · have hlength : (m ++ (c :: ds ++ rest)).length - (ds ++ rest).length = (m ++ [c]).length := by
          simp only [List.length_append, List.length_cons, List.length_nil]
          omega
        simp only [exponentSignPosOf, withSign, if_neg hsign, hlength]
        rw [List.append_cons m c ds, List.take_left, List.drop_left]
        simp
  unfold convertedText
  simp only [hinsert]
  split
  · rfl
  · next hnot =>
    have hmem : '_' ∉ m ++ withSign e := by
      have hnot : '_' ∉ m ++ e := by simpa using hnot
      rcases e with _ | ⟨c, ds⟩
      · simpa [withSign] using hnot
      · simp only [withSign]
        split_ifs <;> simpa using hnot
    refine (List.filter_eq_self.mpr fun c hc => ?_).symm
    have hne : c ≠ '_' := by
      rintro rfl
      exact hmem hc
    simpa using hne

theorem Digits.removeSeparators {ds : List Char} (h : Digits isDecimalDigit ds) :
    (∀ c ∈ removeSeparators ds, isDigit c) ∧ Lexer.removeSeparators ds ≠ [] := by
  constructor
  · intro c hc
    obtain ⟨hmem, hne⟩ := List.mem_filter.mp hc
    exact (h.mem hmem).resolve_left (by simpa using hne)
  · obtain ⟨c, hc, hdigit⟩ := h.head?
    have hne : c ≠ '_' := by
      rintro rfl
      exact absurd hdigit (by decide)
    exact List.ne_nil_of_mem (List.mem_filter.mpr ⟨List.mem_of_mem_head? hc, by simpa using hne⟩)

variable {i f e ds : List Char}

theorem takeWhile_isDigit (h : ∀ c ∈ ds, isDigit c) (rest : List Char)
    (hrest : ∀ c ∈ rest.head?, ¬isDigit c) :
    (ds ++ rest).takeWhile isDigit = ds ∧ (ds ++ rest).dropWhile isDigit = rest := by
  rw [List.takeWhile_append_of_pos h, List.dropWhile_append_of_pos h]
  rcases rest with _ | ⟨c, rest⟩
  · simp
  · have hc := hrest c rfl
    simp [hc]

theorem strtold_parts (hi : ∀ c ∈ i, isDigit c)
    (hf : f = [] ∨ ∃ ds, f = '.' :: ds ∧ ∀ c ∈ ds, isDigit c)
    (he : ∀ c ∈ e.head?, c = 'e' ∨ c = 'E') (hne : i ++ f.tail ≠ []) :
    strtold (i ++ (f ++ e)) =
      some ((Nat.ofDigitChars 10 (i ++ f.tail) 0 : ℚ) * 10 ^ (strtoldExponent e - f.tail.length)) := by
  have hletter : ∀ c ∈ e.head?, ¬isDigit c := by
    intro c hc
    rcases he c hc with rfl | rfl <;> decide
  rcases hf with rfl | ⟨ds, rfl, hds⟩
  · obtain ⟨htake, hdrop⟩ := takeWhile_isDigit hi e hletter
    have hdot : e.head? ≠ some '.' := by
      intro hdot
      rcases he _ hdot with h | h <;> revert h <;> decide
    rw [List.tail_nil, List.append_nil] at hne
    simp [strtold, htake, hdrop, hdot, hne]
  · obtain ⟨htake, hdrop⟩ := takeWhile_isDigit hi ('.' :: (ds ++ e)) (by
      intro c hc
      obtain rfl : '.' = c := by simpa using hc
      decide)
    obtain ⟨htake', hdrop'⟩ := takeWhile_isDigit hds e hletter
    rw [List.tail_cons] at hne
    simp only [strtold, List.cons_append, htake, hdrop, List.head?_cons, if_true, List.tail_cons, htake',
      hdrop']
    rw [if_neg hne]

theorem strtoldExponent_digits {c s : Char} (hc : c = 'e' ∨ c = 'E') (hs : s = '+' ∨ s = '-')
    (hds : ∀ d ∈ ds, isDigit d) :
    strtoldExponent (c :: s :: ds) =
      if s = '-' then -(Nat.ofDigitChars 10 ds 0 : ℤ) else Nat.ofDigitChars 10 ds 0 := by
  have htake := (takeWhile_isDigit hds [] (by simp)).1
  rw [List.append_nil] at htake
  rcases hs with rfl | rfl <;> simp [strtoldExponent, hc, htake]

theorem strtoldExponent_withSign (he : Exponent e) :
    strtoldExponent (removeSeparators (withSign e)) = exponentValue e := by
  cases he with
  | none => rfl
  | @part c ds hc h =>
    have hne : c ≠ '_' := by
      rintro rfl
      revert hc
      decide
    cases h with
    | unsigned hds =>
      obtain ⟨d, hd, hdigit⟩ := hds.head?
      obtain ⟨ds, rfl⟩ := List.head?_eq_some_iff.mp hd
      have hplus : d ≠ '+' := by
        rintro rfl
        exact absurd hdigit (by decide)
      have hminus : d ≠ '-' := by
        rintro rfl
        exact absurd hdigit (by decide)
      have htext : removeSeparators (withSign (c :: d :: ds)) = c :: '+' :: removeSeparators (d :: ds) := by
        simp [withSign, hplus, hminus, removeSeparators, hne]
      rw [htext, strtoldExponent_digits hc (.inl rfl) hds.removeSeparators.1, if_neg (by decide)]
      simp [exponentValue, hplus, hminus, digitsValue]
    | @signed s ds hs hds =>
      have hne' : s ≠ '_' := by
        rintro rfl
        revert hs
        decide
      have htext : removeSeparators (withSign (c :: s :: ds)) = c :: s :: removeSeparators ds := by
        simp [withSign, hs, removeSeparators, hne, hne']
      rw [htext, strtoldExponent_digits hc hs hds.removeSeparators.1]
      rcases hs with rfl | rfl <;> simp [exponentValue, digitsValue]

theorem removeSeparators_append : removeSeparators (i ++ f) = removeSeparators i ++ removeSeparators f :=
  List.filter_append ..

theorem removeSeparators_fraction (hf : Fraction f) :
    (removeSeparators f = [] ∨ ∃ ds, removeSeparators f = '.' :: ds ∧ ∀ c ∈ ds, isDigit c) ∧
      (removeSeparators f).tail = removeSeparators f.tail := by
  cases hf with
  | none => exact ⟨.inl rfl, rfl⟩
  | dot => exact ⟨.inr ⟨[], rfl, by simp⟩, rfl⟩
  | digits hds => exact ⟨.inr ⟨_, rfl, hds.removeSeparators.1⟩, rfl⟩

theorem removeSeparators_withSign_head? (he : Exponent e) (c : Char)
    (hc : c ∈ (removeSeparators (withSign e)).head?) : c = 'e' ∨ c = 'E' := by
  cases he with
  | none => simp [withSign, removeSeparators] at hc
  | @part d ds hd h =>
    have hne : d ≠ '_' := by
      rintro rfl
      revert hd
      decide
    have hhead : (removeSeparators (withSign (d :: ds))).head? = some d := by
      simp only [withSign]
      split_ifs <;> simp [removeSeparators, hne]
    obtain rfl : d = c := by simpa [hhead] using hc
    exact hd

theorem ofDigitChars_append_value (x : ℤ) :
    (Nat.ofDigitChars 10 (removeSeparators i ++ removeSeparators ds) 0 : ℚ) *
        10 ^ (x - (removeSeparators ds).length) =
      (digitsValue i + digitsValue ds * 10 ^ (-(removeSeparators ds).length : ℤ)) * 10 ^ x := by
  have hpow : (10 : ℚ) ^ (removeSeparators ds).length * 10 ^ (-(removeSeparators ds).length : ℤ) = 1 := by
    rw [← zpow_natCast, ← zpow_add₀ (by norm_num)]
    simp
  rw [Nat.ofDigitChars_append, Nat.ofDigitChars_eq_ofDigitChars_zero, sub_eq_add_neg, zpow_add₀ (by norm_num)]
  push_cast
  rw [digitsValue, digitsValue]
  linear_combination (Nat.ofDigitChars 10 (removeSeparators i) 0 : ℚ) * 10 ^ x * hpow

theorem strtold_convertedText (rest : List Char) (hi : i = [] ∨ Digits isDecimalDigit i) (hf : Fraction f)
    (he : Exponent e) (hne : i = [] → ∃ ds, f = '.' :: ds ∧ Digits isDecimalDigit ds) :
    strtold (convertedText (i ++ f ++ e) (decide ('_' ∈ i ++ f ++ e))
        (exponentSignPosOf (i ++ f ++ (e ++ rest)) e rest)) =
      some ((digitsValue i + fractionValue f) * 10 ^ exponentValue e) := by
  obtain ⟨hfraction, htail⟩ := removeSeparators_fraction hf
  have hdigits : ∀ c ∈ removeSeparators i, isDigit c := by
    rcases hi with rfl | hi
    · simp [removeSeparators]
    · exact hi.removeSeparators.1
  have hnonempty : removeSeparators i ++ (removeSeparators f).tail ≠ [] := by
    rcases hi with rfl | hi
    · obtain ⟨ds, rfl, hds⟩ := hne rfl
      rw [htail]
      simpa [removeSeparators] using hds.removeSeparators.2
    · exact List.append_ne_nil_of_left_ne_nil hi.removeSeparators.2 _
  rw [convertedText_eq, removeSeparators_append, removeSeparators_append, List.append_assoc,
    strtold_parts hdigits hfraction (removeSeparators_withSign_head? he) hnonempty, htail,
    strtoldExponent_withSign he, ofDigitChars_append_value, fractionValue]

end Text

/-! ### The number -/

section Rounding

variable {longDouble : LongDouble} {q : ℚ}

theorem overflowThreshold_eq : overflowThreshold = (2 ^ 54 - 1) * 2 ^ 970 := by
  have hpow : (2 : ℚ) ^ 1024 = 2 ^ 54 * 2 ^ 970 := by rw [← pow_add]
  unfold overflowThreshold
  rw [hpow]
  generalize (2 : ℚ) ^ 970 = x
  ring

theorem binary64_overflows_iff (hq : 0 ≤ q) : binary64.Overflows q ↔ overflowThreshold ≤ q := by
  have h := BinaryFormat.le_round_iff (F := binary64) (e := 1023) (by decide) (m := 2 ^ 53) (by decide)
    (by decide) (by decide) hq
  have hunit : (2 : ℚ) ^ ((1023 : ℤ) - binary64.precision + 1) = 2 * 2 ^ 970 := by
    rw [show ((1023 : ℤ) - binary64.precision + 1) = (971 : ℕ) from rfl, zpow_natCast, ← pow_succ']
  have hbound : (2 : ℚ) ^ (binary64.maxExponent + 1) = 2 ^ 53 * (2 * 2 ^ 970) := by
    rw [show binary64.maxExponent + 1 = (1024 : ℕ) from rfl, zpow_natCast, ← pow_succ', ← pow_add]
  rw [hunit] at h
  rw [BinaryFormat.Overflows, hbound, overflowThreshold_eq]
  generalize (2 : ℚ) ^ 970 = x at h ⊢
  convert h using 1
  · push_cast
    rfl
  · push_cast
    ring_nf

/-- A `long double` gets there half of its own unit below. -/
theorem le_round_longDouble_iff (longDouble : LongDouble) (hq : 0 ≤ q) :
    overflowThreshold ≤ longDouble.round q ↔
      overflowThreshold - 2 ^ (1023 - longDouble.precision : ℤ) ≤ q := by
  obtain ⟨k, hk⟩ := Nat.exists_eq_add_of_lt longDouble.wide
  have hmin : longDouble.minExponent ≤ 1023 := by
    have := longDouble.range
    unfold BinaryFormat.minExponent
    omega
  have hpos := Nat.pow_pos (n := k) (show 0 < 2 by decide)
  have hsucc : 2 ^ (k + 1) = 2 ^ k * 2 := pow_succ ..
  have hadd : 2 ^ (54 + k) = 2 ^ 54 * 2 ^ k := pow_add ..
  have hm : (2 ^ 54 - 1) * 2 ^ (k + 1) < 2 ^ (54 + k + 1) := by
    rw [pow_succ 2 (54 + k)]
    omega
  have hm' : 2 ^ (54 + k) < (2 ^ 54 - 1) * 2 ^ (k + 1) := by omega
  have h := BinaryFormat.le_round_iff (F := longDouble.toBinaryFormat) (e := 1023) hmin
    (m := (2 ^ 54 - 1) * 2 ^ (k + 1)) (by omega)
    (by rw [hk]; simpa using hm') (by rw [hk]; exact hm.le) hq
  have hunit : (2 : ℚ) ^ (k + 1) * 2 ^ ((1023 : ℤ) - longDouble.precision + 1) = 2 ^ 970 := by
    have hexponent : ((k + 1 : ℕ) : ℤ) + ((1023 : ℤ) - longDouble.precision + 1) = (970 : ℕ) := by
      push_cast
      omega
    rw [← zpow_natCast 2 (k + 1), ← zpow_add₀ (by norm_num), hexponent, zpow_natCast]
  have hhalf : (2 : ℚ) ^ ((1023 : ℤ) - longDouble.precision + 1) = 2 * 2 ^ ((1023 : ℤ) - longDouble.precision) := by
    rw [zpow_add_one₀ (by norm_num), mul_comm]
  rw [overflowThreshold_eq, ← hunit]
  rw [hhalf] at h ⊢
  generalize (2 : ℚ) ^ ((1023 : ℤ) - longDouble.precision) = u at h ⊢
  push_cast at h
  convert h using 1
  · ring_nf
  · ring_nf

/-- What is too large for a `long double` is too large for a double. -/
theorem le_round_of_overflows (h : longDouble.Overflows q) : overflowThreshold ≤ longDouble.round q := by
  have hrange := longDouble.range
  have hpow : (2 : ℚ) ^ 1024 ≤ 2 ^ (longDouble.maxExponent + 1) := by
    rw [← zpow_natCast]
    exact zpow_le_zpow_right₀ (by norm_num) (by push_cast; omega)
  have hpos : (0 : ℚ) ≤ 2 ^ 970 := pow_nonneg (by norm_num) 970
  exact (sub_le_self _ hpos).trans (hpow.trans h)

theorem lt_threshold_of_underflows (h : longDouble.Underflows q) : q < overflowThreshold := by
  have hrange := longDouble.range
  have hsmall : (2 : ℚ) ^ longDouble.minExponent ≤ 1 :=
    zpow_le_one_of_nonpos₀ (by norm_num) (by unfold BinaryFormat.minExponent; omega)
  have hlarge : 1 ≤ overflowThreshold := by
    rw [overflowThreshold_eq]
    exact one_le_mul_of_one_le_of_one_le (by norm_num) (one_le_pow₀ (by norm_num))
  exact h.2.1.trans_le (hsmall.trans hlarge)

theorem round_nonneg (F : BinaryFormat) (hq : 0 ≤ q) : 0 ≤ F.round q := by
  have hu := BinaryFormat.two_zpow_pos (F.ulpExponent q)
  have hround : 0 ≤ roundHalfEven (q / 2 ^ F.ulpExponent q) :=
    le_roundHalfEven (by simpa using div_nonneg hq hu.le)
  unfold BinaryFormat.round
  positivity

theorem DecimalLiteral.nonneg {lit : List Char} (h : DecimalLiteral lit q) : 0 ≤ q := by
  have hfraction (f : List Char) : 0 ≤ fractionValue f := by
    unfold fractionValue
    positivity
  cases h with
  | @integer i f e =>
    have := hfraction f
    positivity
  | @point ds e =>
    have := hfraction ('.' :: ds)
    positivity

end Rounding

theorem DecimalLiteral.not_dottedNumber {lit : List Char} {q : ℚ} (h : DecimalLiteral lit q) :
    ¬DottedNumber lit := by
  intro hdotted
  cases h with
  | @integer i f e hi hf he =>
    obtain ⟨c, i, rfl⟩ := List.exists_cons_of_ne_nil hi.digits.ne_nil
    generalize htext : c :: i ++ f ++ e = lit at hdotted
    cases hdotted with
    | dots _ _ _ _ =>
      obtain ⟨rfl, -⟩ := List.cons.inj htext
      exact not_decimalInteger_dot hi
    | bigInt _ =>
      obtain ⟨rfl, -⟩ := List.cons.inj htext
      exact not_decimalInteger_dot hi
  | point hds he => exact hdotted.ne_point hds he rfl

theorem strtold_accepted {idStart : ℕ → Bool} {lit rest : List Char} {token : NumberToken} {q : ℚ}
    (hscan : scanNumericLiteral idStart (lit ++ rest) = some token) (hrest : token.rest = rest)
    (h : DecimalLiteral lit q) :
    strtold (convertedText lit token.hasUnderscore token.exponentSignPos) = some q := by
  obtain ⟨hends, hplain⟩ := plainLiteral_of_scan hscan hrest h.not_dottedNumber
  cases h with
  | integer hi hf he =>
    rw [hplain.scan_integer hends hi hf he] at hscan
    cases hscan
    exact strtold_convertedText _ (.inr hi.digits) hf he fun hnil => absurd hnil hi.digits.ne_nil
  | @point ds e hds he =>
    rw [hplain.scan_point hends hds he] at hscan
    cases hscan
    have htext := strtold_convertedText (i := []) (e := e) rest (.inl rfl) (.digits hds) he
      fun _ => ⟨ds, rfl, hds⟩
    simpa [digitsValue, removeSeparators, tokenOf] using htext

theorem convertNumber_eq (longDouble : LongDouble) {sv : List Char} {hasUnderscore : Bool}
    {exponentSignPos : Option ℕ} {q : ℚ} (hq : 0 ≤ q)
    (htext : strtold (convertedText sv hasUnderscore exponentSignPos) = some q) :
    ∃ number, convertNumber longDouble.toBinaryFormat sv hasUnderscore exponentSignPos =
        some (convertedText sv hasUnderscore exponentSignPos, number) ∧
      (number = ⊤ ↔ longDouble.Underflows q ∨ overflowThreshold ≤ longDouble.round q) := by
  have hround := round_nonneg longDouble.toBinaryFormat hq
  unfold convertNumber stold
  simp only [htext]
  by_cases hrange : longDouble.Overflows q ∨ longDouble.Underflows q
  · rw [if_pos hrange]
    refine ⟨⊤, rfl, fun _ => ?_, fun _ => rfl⟩
    exact hrange.symm.imp_right le_round_of_overflows
  · rw [if_neg hrange]
    refine ⟨toDouble (longDouble.round q), rfl, ?_⟩
    have hnot := (not_or.mp hrange).2
    rw [or_iff_right hnot, ← binary64_overflows_iff hround, toDouble]
    split
    · next h => simp [h]
    · next h => simp [h]

section Literal

variable {longDouble : LongDouble} {idStart : ℕ → Bool} {lit : List Char} {token : NumberToken} {q : ℚ}

section

variable (hc : ConvertsNumber longDouble.toBinaryFormat lit token q) (hscan : scanNumericLiteral idStart (lit ++ token.rest) = some token) (h : DecimalLiteral lit q)
include hc hscan h

theorem ConvertsNumber.threshold_le (hlost : longDouble.Underflows q ∨ overflowThreshold ≤ longDouble.round q) : overflowThreshold ≤ q := by
  obtain ⟨text, number, hconvert, -, hright⟩ := hc
  obtain ⟨number', hconvert', htop⟩ := convertNumber_eq longDouble h.nonneg (strtold_accepted hscan rfl h)
  obtain ⟨-, rfl⟩ : _ ∧ number' = number := by simpa [hconvert'] using hconvert
  exact (binary64_overflows_iff h.nonneg).mp (hright (htop.mpr hlost))

theorem ConvertsNumber.not_underflows :
    ¬longDouble.Underflows q := by
  intro hunderflows
  exact absurd (hc.threshold_le hscan h (.inl hunderflows)) (not_le.mpr (lt_threshold_of_underflows hunderflows))

end

end Literal

/-- The number of a literal is right about infinity just if it does not underflow, and does not reach the
threshold by its first rounding. -/
theorem convertsNumber_iff (longDouble : LongDouble) {idStart : ℕ → Bool} {lit : List Char} {token : NumberToken}
    {q : ℚ} (hscan : scanNumericLiteral idStart (lit ++ token.rest) = some token) (h : DecimalLiteral lit q) :
    ConvertsNumber longDouble.toBinaryFormat lit token q ↔
      ¬longDouble.Underflows q ∧
        (q < overflowThreshold - 2 ^ (1023 - longDouble.precision : ℤ) ∨ overflowThreshold ≤ q) := by
  have htext := strtold_accepted hscan rfl h
  obtain ⟨number, hconvert, htop⟩ := convertNumber_eq longDouble h.nonneg htext
  have hreaches := le_round_longDouble_iff longDouble h.nonneg
  constructor
  · intro hc
    refine ⟨hc.not_underflows hscan h, ?_⟩
    rcases lt_or_ge q (overflowThreshold - 2 ^ (1023 - longDouble.precision : ℤ)) with hlt | hge
    · exact .inl hlt
    · exact .inr (hc.threshold_le hscan h (.inr (hreaches.mpr hge)))
  · rintro ⟨hunderflows, hband⟩
    refine ⟨_, number, hconvert, htext, fun htop' => (binary64_overflows_iff h.nonneg).mpr ?_⟩
    have hreached := hreaches.mp ((htop.mp htop').resolve_left hunderflows)
    exact hband.resolve_left (not_lt.mpr hreached)

/-- The literal `1_0e0_3`. -/
theorem convertsNumber_example :
    ConvertsNumber extended.toBinaryFormat "1_0e0_3".toList ⟨true, false, some 4, []⟩ 10000 := by
  have hmantissa : Digits isDecimalDigit "1_0".toList := .separator (by decide) (.single (by decide))
  have hexponent : Digits isDecimalDigit "0_3".toList := .separator (by decide) (.single (by decide))
  have hvalue : DecimalLiteral "1_0e0_3".toList 10000 := by
    have h := DecimalLiteral.integer (.nonZero (by decide) hmantissa) .none (.part (.inl rfl) (.unsigned hexponent))
    have hq : ((digitsValue "1_0".toList : ℚ) + fractionValue []) * 10 ^ exponentValue ('e' :: "0_3".toList) = 10000 := by
      decide +kernel
    exact hq ▸ h
  have hscan : scanNumericLiteral (fun _ => false) ("1_0e0_3".toList ++ []) = some ⟨true, false, some 4, []⟩ := rfl
  refine (convertsNumber_iff extended hscan hvalue).mpr ⟨?_, .inl ?_⟩
  · decide +kernel
  · decide +kernel

/-- The literal `1e-5000` becomes infinity. -/
theorem underflow_infinite :
    scanNumericLiteral (fun _ => false) "1e-5000".toList = some ⟨false, false, none, []⟩ ∧
      DecimalLiteral "1e-5000".toList (10 ^ (-5000 : ℤ)) ∧
      ¬ConvertsNumber extended.toBinaryFormat "1e-5000".toList ⟨false, false, none, []⟩ (10 ^ (-5000 : ℤ)) := by
  have hmantissa : Digits isDecimalDigit "1".toList := .single (by decide)
  have hexponent : Digits isDecimalDigit "5000".toList :=
    .cons (by decide) (.cons (by decide) (.cons (by decide) (.single (by decide))))
  have hvalue : DecimalLiteral "1e-5000".toList (10 ^ (-5000 : ℤ)) := by
    have h := DecimalLiteral.integer (.nonZero (by decide) hmantissa) .none (.part (.inl rfl) (.signed (.inr rfl) hexponent))
    have hq : ((digitsValue "1".toList : ℚ) + fractionValue []) * 10 ^ exponentValue ('e' :: '-' :: "5000".toList) =
        10 ^ (-5000 : ℤ) := by
      have hone : (digitsValue "1".toList : ℚ) + fractionValue [] = 1 := by decide +kernel
      have hexp : exponentValue ('e' :: '-' :: "5000".toList) = -5000 := by decide +kernel
      rw [hone, hexp, one_mul]
    exact hq ▸ h
  have hunderflows : extended.Underflows (10 ^ (-5000 : ℤ)) := by
    refine BinaryFormat.underflows_of_lt (zpow_pos (by norm_num) _) ?_
    have hlt : (2 : ℚ) ^ 16446 < 10 ^ 5000 := by
      have hnat : 2 ^ 16446 < 10 ^ 5000 := by decide +kernel
      exact_mod_cast hnat
    have hexp : extended.minExponent - extended.precision = -(16446 : ℕ) := by decide
    rw [hexp, show (-5000 : ℤ) = -(5000 : ℕ) from rfl, zpow_neg, zpow_neg, zpow_natCast, zpow_natCast]
    exact inv_strictAnti₀ (by positivity) hlt
  have hscan : scanNumericLiteral (fun _ => false) ("1e-5000".toList ++ []) = some ⟨false, false, none, []⟩ := rfl
  exact ⟨rfl, hvalue, fun hc => hc.not_underflows hscan hvalue hunderflows⟩

end ArkTs2abc.Es2panda.Lexer
