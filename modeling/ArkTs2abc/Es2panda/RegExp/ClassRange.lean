import ArkTs2abc.Es2panda.RegExp.UnicodeEscape

/-!
# Ranges of classes

A range is in order if the character at its left end is not behind the one at its right end; without
the flag these are code units. The parser compares code points, and reads the digits of most
octal escapes as characters of their own.

## Main definitions

* `RegExpParser.RangeEnd` — the spellings of a character at an end of a range, and what it stands for.
* `RegExpParser.RangeEnd.readFirst`, `RegExpParser.RangeEnd.readLast` — what the parser takes it for.
* `RegExpParser.RejectedFor` — the parser throws where it reads a range.

## Main results

* `RegExpParser.rejectedFor_iff_order` — where it throws just on a range out of order.
-/

namespace ArkTs2abc.Es2panda.RegExpParser

open Unicode Relation
open Lexer (isDecimalDigit isHexDigit isOctalDigit)

/-! ## The ends of a range -/

/-- A character at an end of a range, by its spelling. -/
inductive RangeEnd where
  | literal (c : Char)
  | octal (ds : List Char)
  | hex (ds : List Char)
  | unit (ds : List Char)
  /-- The escapes for both surrogates of a pair. -/
  | pair (high low : List Char)
  /-- `\u` with digits in braces. -/
  | braced (ds : List Char)
  | letter (c : Char)
  | control (c : Char) (value : ℕ)
  /-- The backslash before a `c` that makes no escape. -/
  | backslash
  deriving DecidableEq, Repr

/-- The value of octal digits. -/
def octalNumber (ds : List Char) : ℕ :=
  ds.foldl (fun value c => value * 8 + digitValue c.toNat) 0

/-- The digits of an octal escape, as many as there may be. -/
structure OctalText (ds behind : List Char) : Prop where
  ne_nil : ds ≠ []
  length : ds.length ≤ 3
  digits : ∀ c ∈ ds, isOctalDigit c.toNat = true
  le : octalNumber ds ≤ 0xFF
  longest : ds.length = 3 ∨ 32 ≤ octalNumber ds ∨ isOctalDigit (next behind).1 = false

namespace RangeEnd

/-- The control escapes of a class, and their characters. -/
def controlEscapes : List (Char × ℕ) := [('b', 8), ('t', 9), ('n', 10), ('v', 11), ('f', 12), ('r', 13)]

def text : RangeEnd → List Char
  | literal c => [c]
  | octal ds => '\\' :: ds
  | hex ds => '\\' :: 'x' :: ds
  | unit ds => '\\' :: 'u' :: ds
  | pair high low => '\\' :: 'u' :: (high ++ '\\' :: 'u' :: low)
  | braced ds => '\\' :: 'u' :: '\x7b' :: (ds ++ ['\x7d'])
  | letter c => ['\\', 'c', c]
  | control c _ => ['\\', c]
  | backslash => ['\\']

/-- A text before another is a spelling, and ends where the character does. -/
def Spelled (unicode : Bool) (behind : List Char) : RangeEnd → Prop
  | literal c => c ≠ '\\' ∧ c ≠ ']'
  | octal ds => OctalText ds behind ∧
      (unicode = true → ds = ['0'] ∧ isDecimalDigit (next behind).1 = false)
  | hex ds => ds.length = 2 ∧ ∀ c ∈ ds, isHexDigit c.toNat = true
  | unit ds => UnitText ds ∧
      (IsHighSurrogate (hexNumber ds) → ¬ ∃ low rest, LowEscape behind low rest)
  | pair high low => UnitText high ∧ UnitText low ∧
      IsHighSurrogate (hexNumber high) ∧ IsLowSurrogate (hexNumber low)
  | braced ds => unicode = true ∧ ds ≠ [] ∧ (∀ c ∈ ds, isHexDigit c.toNat = true) ∧ hexNumber ds ≤ 0x10FFFF
  | letter c => isControlLetter c.toNat = true ∨
      unicode = false ∧ (isDecimalDigit c.toNat = true ∨ c = '_')
  | control c value => (c, value) ∈ controlEscapes
  | backslash => unicode = false ∧ ∃ rest, behind = 'c' :: rest ∧ isControlLetter (next rest).1 = false ∧
      isDecimalDigit (next rest).1 = false ∧ (next rest).1 ≠ '_'.toNat

/-- What a spelling stands for: with the flag a code point, and without it code units. -/
def characters (unicode : Bool) : RangeEnd → List ℕ
  | literal c => if unicode then [c.toNat] else (units c.toNat).map UInt16.toNat
  | octal ds => [octalNumber ds]
  | hex ds => [hexNumber ds]
  | unit ds => [hexNumber ds]
  | pair high low =>
    if unicode then [ofPair (hexNumber high) (hexNumber low)] else [hexNumber high, hexNumber low]
  | braced ds => [hexNumber ds]
  | letter c => [c.toNat % 32]
  | control _ value => [value]
  | backslash => ['\\'.toNat]

/-- The character before the dash of a range. -/
def leftValue (unicode : Bool) (e : RangeEnd) : ℕ := (e.characters unicode).getLastD 0

/-- The character behind the dash. -/
def rightValue (unicode : Bool) (e : RangeEnd) : ℕ := (e.characters unicode).headD 0

/-- What the parser takes an end for, by the digit and the character of a `\c_` that it compares. -/
def readAs (digit : List Char → Char) (underscore : Char) : RangeEnd → ℕ
  | literal c => c.toNat
  | octal ds => if ds.head? = some '0' then octalNumber ds else (digit ds).toNat
  | hex ds => hexNumber ds
  | unit ds => hexNumber ds
  | pair high low => shortPair (hexNumber high) (hexNumber low)
  | braced ds => hexNumber ds
  | letter c => if c = '_' then underscore.toNat else c.toNat % 32
  | control _ value => value
  | backslash => 'c'.toNat

/-- What the parser compares behind the dash: of the octal escapes that do not start with a zero
the first digit. -/
def readFirst : RangeEnd → ℕ := readAs (·.headD '0') 'c'

/-- What it compares before the dash: of these escapes the last digit. -/
def readLast : RangeEnd → ℕ := readAs (·.getLastD '0') '_'

/-- What is left of an end and the text behind it once `ParseClassAtom` has read the first character. -/
def remains (e : RangeEnd) (behind : List Char) : List Char :=
  match e with
  | literal _ | hex _ | unit _ | pair _ _ | braced _ | control _ _ => behind
  | octal ds => if ds.head? = some '0' then behind else ds.tail ++ behind
  | letter c => if c = '_' then '_' :: behind else behind
  | backslash => behind.tail

/-- The lookahead behind an escape for a high surrogate throws. -/
def Throws (behind : List Char) : RangeEnd → Prop
  | unit ds => IsHighSurrogate (hexNumber ds) ∧ ¬ DigitsFollow behind
  | _ => False

end RangeEnd

/-! ## The class atoms -/

section

variable (unicode : Bool) (count : ℕ)

theorem parseClassAtom_literal {c : Char} (hc : c ≠ '\\') (behind : List Char) :
    parseClassAtom unicode count (c :: behind) = .ok (c.toNat, behind) := by
  rw [parseClassAtom, next_fst, skip_cons]
  exact if_pos fun h => hc (Char.toNat_inj.mp h)

theorem parseClassAtom_hex (iter : List Char) :
    parseClassAtom unicode count ('\\' :: 'x' :: iter) = parseHexEscape iter := by
  rw [parseClassAtom, next_fst, skip_cons, peek_ascii (by decide), skip_cons]
  rfl

theorem parseClassAtom_control {c : Char} {value : ℕ} (hc : (c, value) ∈ RangeEnd.controlEscapes)
    (behind : List Char) : parseClassAtom unicode count ('\\' :: c :: behind) = .ok (value, behind) := by
  simp only [RangeEnd.controlEscapes, List.mem_cons, Prod.mk.injEq, List.not_mem_nil, or_false] at hc
  rcases hc with ⟨rfl, rfl⟩ | ⟨rfl, rfl⟩ | ⟨rfl, rfl⟩ | ⟨rfl, rfl⟩ | ⟨rfl, rfl⟩ | ⟨rfl, rfl⟩
  all_goals
    rw [parseClassAtom, next_fst, skip_cons, peek_ascii (by decide), skip_cons]
    rfl

theorem parseClassAtom_letter (iter : List Char) :
    parseClassAtom unicode count ('\\' :: 'c' :: iter) = parseControlEscape unicode iter := by
  rw [parseClassAtom, next_fst, skip_cons, peek_ascii (by decide), skip_cons]
  rfl

theorem parseClassAtom_braced (iter : List Char) :
    parseClassAtom true count ('\\' :: 'u' :: iter) = parseUnicodeEscape iter := by
  rw [parseClassAtom, next_fst, skip_cons, peek_ascii (by decide), skip_cons]
  rfl

end

/-! ## The escapes -/

theorem parseHexEscape_append {ds : List Char} (hlength : ds.length = 2)
    (hds : ∀ c ∈ ds, isHexDigit c.toNat = true) (behind : List Char) :
    parseHexEscape (ds ++ behind) = .ok (hexNumber ds, behind) := by
  obtain ⟨a, b, rfl⟩ := List.length_eq_two.mp hlength
  have ha := hds a (by simp)
  have hb := hds b (by simp)
  have hnumber : hexNumber [a, b] = hexValue a.toNat * 16 + hexValue b.toNat := by simp [hexNumber, pushHex]
  rw [List.cons_append, List.cons_append, List.nil_append, parseHexEscape, next_fst, skip_cons, ha,
    if_neg (by decide)]
  dsimp only
  rw [next_fst, skip_cons, hb, if_neg (by decide), hnumber]

theorem le_foldl_pushHex (value : ℕ) (ds : List Char) : value ≤ ds.foldl pushHex value := by
  induction ds generalizing value with
  | nil => exact Nat.le_refl _
  | cons c ds ih =>
    have hpush : value ≤ pushHex value c := by
      rw [pushHex]
      omega
    exact hpush.trans (ih _)

theorem bracedDigits_append {ds : List Char} (value : ℕ) (hds : ∀ c ∈ ds, isHexDigit c.toNat = true)
    (hmax : ds.foldl pushHex value ≤ 0x10FFFF) (behind : List Char) :
    bracedDigits value (ds ++ '\x7d' :: behind) = .ok (ds.foldl pushHex value, '\x7d' :: behind) := by
  induction ds generalizing value with
  | nil =>
    rw [List.nil_append, bracedDigits, isHexDigit_peek, next_fst, if_neg (by decide)]
    rfl
  | cons c ds ih =>
    obtain ⟨hc, hds⟩ := List.forall_mem_cons.mp hds
    have hle : pushHex value c ≤ 0x10FFFF := (le_foldl_pushHex _ ds).trans hmax
    rw [List.cons_append, bracedDigits, isHexDigit_peek, next_fst, if_pos hc]
    exact (if_neg (Nat.not_lt.mpr hle)).trans (ih _ hds hmax)

theorem parseUnicodeEscape_braced {ds : List Char} (hne : ds ≠ []) (hds : ∀ c ∈ ds, isHexDigit c.toNat = true)
    (hmax : hexNumber ds ≤ 0x10FFFF) (behind : List Char) :
    parseUnicodeEscape ('\x7b' :: (ds ++ '\x7d' :: behind)) = .ok (hexNumber ds, behind) := by
  obtain ⟨c, ds', hcons⟩ := List.exists_cons_of_ne_nil hne
  have hfirst : isHexDigit (peek (ds ++ '\x7d' :: behind)) = true := by
    rw [isHexDigit_peek, hcons, List.cons_append, next_fst]
    exact hds c (by rw [hcons]; exact List.mem_cons_self)
  have hclose : peek ('\x7d' :: behind) = '\x7d'.toNat := peek_ascii (by decide) behind
  rw [parseUnicodeEscape, if_pos (peek_ascii (by decide) _), skip_cons]
  dsimp only
  rw [hfirst, if_neg (by decide), bracedDigits_append 0 hds hmax]
  have hend : (if peek ('\x7d' :: behind) ≠ '\x7d'.toNat then .error "Invalid Unicode escape"
      else .ok (hexNumber ds, behind) : Except String (ℕ × List Char)) = .ok (hexNumber ds, behind) :=
    if_neg (not_not.mpr hclose)
  exact hend

theorem ascii_of_controlLetter {n : ℕ} (h : isControlLetter n = true) : n < 0x80 := by
  by_contra hwide
  rw [isControlLetter_wide (Nat.le_of_not_lt hwide)] at h
  cases h

theorem ascii_of_digit {n : ℕ} (h : isDecimalDigit n = true) : n < 0x80 := by
  by_contra hwide
  rw [isDecimalDigit_wide (Nat.le_of_not_lt hwide)] at h
  cases h

theorem parseControlEscape_of_letter {c : Char} (hc : isControlLetter c.toNat = true) (unicode : Bool)
    (behind : List Char) : parseControlEscape unicode (c :: behind) = .ok (c.toNat % 32, behind) := by
  rw [parseControlEscape, peek_ascii (ascii_of_controlLetter hc), hc, skip_cons]
  simp

theorem parseControlEscape_of_digit {c : Char} (hc : isDecimalDigit c.toNat = true) (behind : List Char) :
    parseControlEscape false (c :: behind) = .ok (c.toNat % 32, behind) := by
  rw [parseControlEscape, peek_ascii (ascii_of_digit hc), hc, skip_cons]
  simp

theorem parseControlEscape_of_none {iter : List Char} (hletter : isControlLetter (next iter).1 = false)
    (hdigit : isDecimalDigit (next iter).1 = false) :
    parseControlEscape false iter = .ok ('c'.toNat, iter) := by
  rw [parseControlEscape, isControlLetter_peek, isDecimalDigit_peek, hletter, hdigit]
  rfl

/-! ## Octal escapes -/

theorem octal_digits {c : Char} (hc : isOctalDigit c.toNat = true) :
    c ∈ ['0', '1', '2', '3', '4', '5', '6', '7'] := by
  have hbounds : 48 ≤ c.toNat ∧ c.toNat ≤ 55 := by
    simpa [isOctalDigit, show '0'.toNat = 48 from rfl, show '7'.toNat = 55 from rfl] using hc
  have hof : c = Char.ofNat c.toNat := (Char.ofNat_toNat c).symm
  obtain ⟨hlow, hhigh⟩ := hbounds
  rw [hof]
  interval_cases c.toNat <;> decide

section

variable {a b c : Char} {behind : List Char}

theorem parseLegacyOctalEscape_one (hstop : isOctalDigit (next behind).1 = false) :
    parseLegacyOctalEscape (a :: behind) = (digitValue a.toNat, behind) := by
  rw [← isOctalDigit_peek] at hstop
  rw [parseLegacyOctalEscape, next_fst, skip_cons]
  exact if_pos hstop

theorem parseLegacyOctalEscape_two (hb : isOctalDigit b.toNat = true)
    (hstop : isOctalDigit (next behind).1 = false) :
    parseLegacyOctalEscape (a :: b :: behind) = (digitValue a.toNat * 8 + digitValue b.toNat, behind) := by
  rw [← isOctalDigit_peek] at hstop
  rw [parseLegacyOctalEscape, next_fst, skip_cons]
  dsimp only
  rw [isOctalDigit_peek, next_fst, hb, if_neg (by decide), skip_cons, if_pos hstop]

theorem parseLegacyOctalEscape_three (hb : isOctalDigit b.toNat = true) (hc : isOctalDigit c.toNat = true)
    (hle : (digitValue a.toNat * 8 + digitValue b.toNat) * 8 + digitValue c.toNat ≤ 0xFF) :
    parseLegacyOctalEscape (a :: b :: c :: behind) =
      ((digitValue a.toNat * 8 + digitValue b.toNat) * 8 + digitValue c.toNat, behind) := by
  have hascii : c.toNat < 0x80 := ascii_of_digit (isDecimalDigit_of_octal hc)
  rw [parseLegacyOctalEscape, next_fst, skip_cons]
  dsimp only
  rw [isOctalDigit_peek, next_fst, hb, if_neg (by decide), skip_cons, isOctalDigit_peek, next_fst, hc,
    if_neg (by decide), peek_ascii hascii, skip_cons]
  exact if_pos hle

end

theorem digitValue_octal {c : Char} (hc : isOctalDigit c.toNat = true) : digitValue c.toNat ≤ 7 := by
  simp only [isOctalDigit, decide_eq_true_eq, show '7'.toNat = 55 from rfl] at hc
  rw [digitValue, show '0'.toNat = 48 from rfl]
  omega

theorem octalNumber_one (a : Char) : octalNumber [a] = digitValue a.toNat := by
  simp only [octalNumber, List.foldl_cons, List.foldl_nil, Nat.zero_mul, Nat.zero_add]

theorem octalNumber_two (a b : Char) : octalNumber [a, b] = digitValue a.toNat * 8 + digitValue b.toNat := by
  simp only [octalNumber, List.foldl_cons, List.foldl_nil, Nat.zero_mul, Nat.zero_add]

theorem octalNumber_three (a b c : Char) : octalNumber [a, b, c] =
    (digitValue a.toNat * 8 + digitValue b.toNat) * 8 + digitValue c.toNat := by
  simp only [octalNumber, List.foldl_cons, List.foldl_nil, Nat.zero_mul, Nat.zero_add]

/-- The digits of an escape that starts with a zero. -/
theorem parseLegacyOctalEscape_zero {ds behind : List Char} (hds : OctalText ('0' :: ds) behind) :
    parseLegacyOctalEscape ('0' :: (ds ++ behind)) = (octalNumber ('0' :: ds), behind) := by
  have hzero : digitValue '0'.toNat = 0 := rfl
  have hlength := hds.length
  have hlongest := hds.longest
  have hle := hds.le
  rcases ds with _ | ⟨a, _ | ⟨b, _ | ⟨c, ds⟩⟩⟩
  · have hstop : isOctalDigit (next behind).1 = false := by
      rw [octalNumber_one, hzero] at hlongest
      rcases hlongest with h | h | h
      · cases h
      · omega
      · exact h
    rw [List.nil_append, parseLegacyOctalEscape_one hstop, octalNumber_one]
  · have ha := hds.digits a (by simp)
    have hsmall := digitValue_octal ha
    have hstop : isOctalDigit (next behind).1 = false := by
      rw [octalNumber_two, hzero] at hlongest
      rcases hlongest with h | h | h
      · cases h
      · omega
      · exact h
    rw [List.cons_append, List.nil_append, parseLegacyOctalEscape_two ha hstop, octalNumber_two]
  · have ha := hds.digits a (by simp)
    have hb := hds.digits b (by simp)
    rw [octalNumber_three] at hle
    rw [List.cons_append, List.cons_append, List.nil_append, parseLegacyOctalEscape_three ha hb hle,
      octalNumber_three]
  · simp only [List.length_cons] at hlength
    omega

theorem parseClassAtom_zero {ds behind : List Char} (unicode : Bool) (count : ℕ)
    (hds : OctalText ('0' :: ds) behind)
    (hunicode : unicode = true → '0' :: ds = ['0'] ∧ isDecimalDigit (next behind).1 = false) :
    parseClassAtom unicode count ('\\' :: '0' :: (ds ++ behind)) = .ok (octalNumber ('0' :: ds), behind) := by
  rw [parseClassAtom, next_fst, skip_cons, peek_ascii (by decide)]
  cases unicode with
  | true =>
    obtain ⟨hnil, hstop⟩ := hunicode rfl
    obtain rfl : ds = [] := (List.cons.inj hnil).2
    have hend : (if isDecimalDigit (peek behind) = true then .error "Invalid class escape"
        else .ok (0, behind) : Except String (ℕ × List Char)) = .ok (0, behind) :=
      if_neg (by rw [isDecimalDigit_peek, hstop]; decide)
    exact hend
  | false =>
    have hlegacy := parseLegacyOctalEscape_zero hds
    have hdecimal : parseDecimalEscape false count ('0' :: (ds ++ behind)) =
        .ok (octalNumber ('0' :: ds), behind) := by
      rw [parseDecimalEscape, next_fst, skip_cons]
      dsimp only
      rw [if_pos (show digitValue '0'.toNat = 0 from rfl), hlegacy]
      cases hdigit : isDecimalDigit (peek (ds ++ behind)) with
      | true => rfl
      | false =>
        have hnil : ds = [] := by
          cases ds with
          | nil => rfl
          | cons a ds =>
            have ha := isDecimalDigit_of_octal (hds.digits a (by simp))
            rw [isDecimalDigit_peek, List.cons_append, next_fst, ha] at hdigit
            cases hdigit
        rw [hnil]
        rfl
    exact hdecimal

theorem parseClassAtom_octal {d : Char} (hd : isOctalDigit d.toNat = true) (hzero : d ≠ '0') (count : ℕ)
    (behind : List Char) : parseClassAtom false count ('\\' :: d :: behind) = .ok (d.toNat, behind) := by
  have hmem := octal_digits hd
  simp only [List.mem_cons, List.not_mem_nil, or_false] at hmem
  rcases hmem with rfl | rfl | rfl | rfl | rfl | rfl | rfl | rfl
  · exact absurd rfl hzero
  all_goals
    rw [parseClassAtom, next_fst, skip_cons, peek_ascii (by decide), skip_cons]
    rfl

/-! ## The ends in the parser -/

theorem hexValue_le {c : Char} (hc : isHexDigit c.toNat = true) : hexValue c.toNat ≤ 15 := by
  have hdigit : '0'.toNat = 48 := rfl
  simp only [isHexDigit, isDecimalDigit, Bool.or_eq_true, decide_eq_true_eq, show '9'.toNat = 57 from rfl,
    show 'F'.toNat = 70 from rfl, show 'f'.toNat = 102 from rfl] at hc
  simp only [hexValue, digitValue, isDecimalDigit, decide_eq_true_eq, show '9'.toNat = 57 from rfl,
    show 'a'.toNat = 97 from rfl, show 'A'.toNat = 65 from rfl, hdigit] at hc ⊢
  split_ifs <;> omega

theorem foldl_pushHex_lt {ds : List Char} (value : ℕ) (hds : ∀ c ∈ ds, isHexDigit c.toNat = true) :
    ds.foldl pushHex value < (value + 1) * 16 ^ ds.length := by
  induction ds generalizing value with
  | nil => simp
  | cons c ds ih =>
    obtain ⟨hc, hds⟩ := List.forall_mem_cons.mp hds
    have hpush : pushHex value c + 1 ≤ (value + 1) * 16 := by
      have hle := hexValue_le hc
      rw [pushHex]
      omega
    calc (c :: ds).foldl pushHex value = ds.foldl pushHex (pushHex value c) := rfl
      _ < (pushHex value c + 1) * 16 ^ ds.length := ih _ hds
      _ ≤ (value + 1) * 16 * 16 ^ ds.length := Nat.mul_le_mul_right _ hpush
      _ = (value + 1) * 16 ^ (c :: ds).length := by
        rw [List.length_cons, Nat.pow_succ, Nat.mul_assoc, Nat.mul_comm 16]

namespace RangeEnd

variable {unicode : Bool} {e : RangeEnd} {behind : List Char}

/-- No end is taken for an escape that is no character. -/
theorem readAs_lt (h : e.Spelled unicode behind) (digit : List Char → Char) (underscore : Char) :
    e.readAs digit underscore < 0x110000 := by
  cases e with
  | literal c => exact (toNat_char_lt c).1
  | octal ds =>
    rw [readAs]
    split
    · exact Nat.lt_of_le_of_lt h.1.le (by decide)
    · exact (toNat_char_lt _).1
  | hex ds =>
    have hlt := foldl_pushHex_lt 0 h.2
    rw [h.1] at hlt
    exact hlt.trans (by decide)
  | unit ds =>
    have hlt := foldl_pushHex_lt 0 h.1.digits
    rw [h.1.length] at hlt
    exact hlt.trans (by decide)
  | pair high low => exact Nat.lt_of_le_of_lt (Nat.sub_le _ _) (ofPair_lt h.2.2.1 h.2.2.2).2
  | braced ds => exact Nat.lt_of_le_of_lt h.2.2.2 (by decide)
  | letter c =>
    rw [readAs]
    split
    · exact (toNat_char_lt _).1
    · exact (Nat.mod_lt c.toNat (show 0 < 32 by decide)).trans (by decide)
  | control c value =>
    have hmem : (c, value) ∈ controlEscapes := h
    simp only [controlEscapes, List.mem_cons, Prod.mk.injEq, List.not_mem_nil, or_false] at hmem
    rw [readAs]
    omega
  | backslash => exact show 'c'.toNat < 0x110000 by decide

/-- What `ParseClassAtom` does before an end. -/
theorem parseClassAtom_eq (h : e.Spelled unicode behind) (count : ℕ) :
    (e.Throws behind ∧ ∃ message, parseClassAtom unicode count (e.text ++ behind) = .error message) ∨
      (¬ e.Throws behind ∧
        parseClassAtom unicode count (e.text ++ behind) = .ok (e.readFirst, e.remains behind)) := by
  cases e with
  | literal c => exact .inr ⟨id, parseClassAtom_literal unicode count h.1 behind⟩
  | octal ds =>
    refine .inr ⟨id, ?_⟩
    obtain ⟨d, ds, rfl⟩ := List.exists_cons_of_ne_nil h.1.ne_nil
    rw [readFirst, readAs, remains]
    by_cases hzero : d = '0'
    · subst hzero
      rw [if_pos List.head?_cons, if_pos List.head?_cons]
      exact parseClassAtom_zero unicode count h.1 h.2
    · have hhead : (d :: ds).head? ≠ some '0' := by simpa using hzero
      have hfalse : unicode = false := by
        cases unicode with
        | false => rfl
        | true => exact absurd (List.cons.inj (h.2 rfl).1).1 hzero
      rw [if_neg hhead, if_neg hhead, hfalse]
      exact parseClassAtom_octal (h.1.digits d List.mem_cons_self) hzero count (ds ++ behind)
  | hex ds =>
    refine .inr ⟨id, ?_⟩
    rw [text, List.cons_append, List.cons_append, parseClassAtom_hex]
    exact parseHexEscape_append h.1 h.2 behind
  | unit ds =>
    rw [text, List.cons_append, List.cons_append, parseClassAtom_unicode (h.1.peek_ne (by decide) behind)]
    by_cases hhigh : IsHighSurrogate (hexNumber ds)
    · rcases parseUnicodeEscape_cases h.1 hhigh behind with
        ⟨low, rest, hescape, -⟩ | ⟨-, hfollow, hparse⟩ | ⟨hfollow, herror⟩
      · exact absurd ⟨low, rest, hescape⟩ (h.2 hhigh)
      · exact .inr ⟨fun hthrows => hthrows.2 hfollow, hparse⟩
      · exact .inl ⟨⟨hhigh, hfollow⟩, herror⟩
    · exact .inr ⟨fun hthrows => hhigh hthrows.1, parseUnicodeEscape_single h.1 fun hboth => hhigh hboth.1⟩
  | pair high low =>
    refine .inr ⟨id, ?_⟩
    obtain ⟨hhigh, hlow, hishigh, hislow⟩ := h
    have htext : (pair high low).text ++ behind =
        '\\' :: 'u' :: (high ++ '\\' :: 'u' :: (low ++ behind)) := by simp [text]
    have hvalue : decodeSurrogates (hexNumber high) (hexNumber low) = (pair high low).readFirst :=
      decodeSurrogates_eq hishigh hislow
    rw [htext, parseClassAtom_unicode (hhigh.peek_ne (by decide) _), parseUnicodeEscape_unit hhigh hishigh hlow,
      if_pos hislow, hvalue]
    rfl
  | braced ds =>
    refine .inr ⟨id, ?_⟩
    obtain ⟨rfl, hne, hds, hmax⟩ := h
    have htext : (braced ds).text ++ behind = '\\' :: 'u' :: '\x7b' :: (ds ++ '\x7d' :: behind) := by
      simp [text]
    rw [htext, parseClassAtom_braced, parseUnicodeEscape_braced hne hds hmax]
    rfl
  | letter c =>
    refine .inr ⟨id, ?_⟩
    have htext : (letter c).text ++ behind = '\\' :: 'c' :: c :: behind := rfl
    rw [htext, parseClassAtom_letter, readFirst, readAs, remains]
    by_cases hunderscore : c = '_'
    · subst hunderscore
      have hfalse : unicode = false := (h.resolve_left (by decide)).1
      rw [if_pos rfl, if_pos rfl, hfalse]
      have hnext : (next ('_' :: behind)).1 = '_'.toNat := next_fst '_' behind
      exact parseControlEscape_of_none (by rw [hnext]; decide) (by rw [hnext]; decide)
    · rw [if_neg hunderscore, if_neg hunderscore]
      rcases h with hletter | ⟨rfl, hdigit | hc⟩
      · exact parseControlEscape_of_letter hletter unicode behind
      · exact parseControlEscape_of_digit hdigit behind
      · exact absurd hc hunderscore
  | control c value => exact .inr ⟨id, parseClassAtom_control unicode count h behind⟩
  | backslash =>
    refine .inr ⟨id, ?_⟩
    obtain ⟨rfl, rest, rfl, hletter, hdigit, -⟩ := h
    have htext : backslash.text ++ 'c' :: rest = '\\' :: 'c' :: rest := rfl
    rw [htext, parseClassAtom_letter]
    exact parseControlEscape_of_none hletter hdigit

end RangeEnd

/-! ## The rounds -/

variable (p : RegExpParser)

/-- The loop over a class goes on from one text to another. -/
def Rounds (count : ℕ) : List Char → List Char → Prop :=
  ReflTransGen fun iter rest => p.characterClassRound count iter = .ok (false, rest)

/-- The parser throws in a round that starts in a range, from its first character up to its dash. -/
def RejectedFor (count : ℕ) (start range behind : List Char) : Prop :=
  ∃ iter message, p.Rounds count start iter ∧ iter <:+ range ∧ behind.length < iter.length ∧
    p.characterClassRound count iter = .error message

variable {p} {count : ℕ} {iter rest : List Char}

theorem Rounds.suffix (h : p.Rounds count iter rest) : rest <:+ iter := by
  induction h with
  | refl => exact List.suffix_refl _
  | tail _ hround ih =>
    have htakes : Takes p.unicode true _ _ := characterClassRound_spec hround
    exact htakes.keeps.suffix.trans ih

theorem Rounds.total {start : List Char} (h : p.Rounds count start iter) (h' : p.Rounds count start rest) :
    p.Rounds count iter rest ∨ p.Rounds count rest iter :=
  ReflTransGen.total_of_right_unique (fun iter rest rest' hround hround' => by
    rw [hround] at hround'
    exact (Prod.mk.inj (Except.ok.inj hround')).2) h h'

theorem ok_bind {α β : Type} (a : α) (f : α → Except String β) : ((.ok a : Except String α) >>= f) = f a := rfl

theorem characterClassRound_single {value : ℕ} (hclose : peek iter ≠ ']'.toNat)
    (hatom : parseClassAtom p.unicode count iter = .ok (value, rest)) (hdash : peek rest ≠ '-'.toNat) :
    p.characterClassRound count iter = .ok (false, rest) := by
  rw [characterClassRound, if_neg hclose, hatom, ok_bind]
  exact if_pos hdash

theorem characterClassRound_range {left : ℕ} {behind : List Char} (hclose : peek iter ≠ ']'.toNat)
    (hleft : parseClassAtom p.unicode count iter = .ok (left, '-' :: behind)) (hopen : peek behind ≠ ']'.toNat) :
    p.characterClassRound count iter = (parseClassAtom p.unicode count behind >>= fun (right, rest) =>
      if IsClassEscape left ∨ IsClassEscape right then
        if p.unicode then .error "Invalid character class" else .ok (false, rest)
      else if right < left then .error "Class range out of order"
      else .ok (false, rest)) := by
  have hdash : ¬ peek ('-' :: behind) ≠ '-'.toNat := not_not.mpr (peek_ascii (by decide) behind)
  rw [characterClassRound, if_neg hclose, hleft, ok_bind]
  dsimp only
  rw [if_neg hdash, skip_cons, if_neg hopen]

theorem peek_ne_of_head {c d : Char} (hd : d.toNat < 0x80) (hne : c ≠ d) (iter : List Char) :
    peek (c :: iter) ≠ d.toNat := by
  intro h
  have hhead := (peek_eq_iff hd (c :: iter)).mp h
  exact hne (Option.some.inj hhead)

theorem rounds_literals {cs : List Char} (hcs : ∀ c ∈ cs, c ∉ ['\\', ']', '-']) (hne : cs ≠ []) (behind : List Char) :
    p.Rounds count (cs ++ '-' :: behind) (cs.getLastD '0' :: '-' :: behind) := by
  induction cs with
  | nil => exact absurd rfl hne
  | cons c cs ih =>
    cases cs with
    | nil => exact .refl
    | cons d cs =>
      obtain ⟨hc, hcs⟩ := List.forall_mem_cons.mp hcs
      simp only [List.mem_cons, List.not_mem_nil, or_false, not_or] at hc
      have hd : d ≠ '-' := by
        have hmem := hcs d List.mem_cons_self
        grind
      have hround := characterClassRound_single (peek_ne_of_head (by decide) hc.2.1 _)
        (parseClassAtom_literal p.unicode count hc.1 (d :: cs ++ '-' :: behind))
        (peek_ne_of_head (by decide) hd _)
      exact .head hround (ih hcs (List.cons_ne_nil d cs))

namespace RangeEnd

variable {e : RangeEnd} {behind : List Char}

theorem Spelled.peek_ne {unicode : Bool} (h : e.Spelled unicode behind) (behind' : List Char) :
    peek (e.text ++ behind') ≠ ']'.toNat := by
  cases e with
  | literal c => exact peek_ne_of_head (by decide) h.2 _
  | _ => exact peek_ne_of_head (c := '\\') (by decide) (by decide) _

theorem not_throws_dash : ¬ e.Throws ('-' :: behind) := by
  intro h
  cases e with
  | unit ds => exact h.2 fun hstarts => absurd (Option.some.inj hstarts.1) (by decide)
  | _ => exact h

/-- The parser comes from the first character of a left end to the one that it compares. -/
theorem exists_last (h : e.Spelled p.unicode ('-' :: behind)) (count : ℕ) :
    ∃ iter, p.Rounds count (e.text ++ '-' :: behind) iter ∧ peek iter ≠ ']'.toNat ∧
      parseClassAtom p.unicode count iter = .ok (e.readLast, '-' :: behind) := by
  have hatom := (parseClassAtom_eq h count).resolve_left fun hthrows => not_throws_dash hthrows.1
  have hclose := h.peek_ne ('-' :: behind)
  -- most ends are read in one step
  have hsame (hread : e.readFirst = e.readLast) (hremains : e.remains ('-' :: behind) = '-' :: behind) :
      ∃ iter, p.Rounds count (e.text ++ '-' :: behind) iter ∧ peek iter ≠ ']'.toNat ∧
        parseClassAtom p.unicode count iter = .ok (e.readLast, '-' :: behind) := by
    refine ⟨_, .refl, hclose, ?_⟩
    rw [hatom.2, hread, hremains]
  cases e with
  | octal ds =>
    obtain ⟨d, ds, rfl⟩ := List.exists_cons_of_ne_nil h.1.ne_nil
    by_cases hzero : d = '0'
    · subst hzero
      exact hsame rfl rfl
    · have hhead : ¬ (d :: ds).head? = some '0' := by simpa using hzero
      cases ds with
      | nil =>
        refine hsame ?_ ?_
        · rw [readFirst, readLast, readAs, readAs, if_neg hhead, if_neg hhead]
          rfl
        · rw [remains, if_neg hhead]
          rfl
      | cons d' ds =>
        have hplain (c : Char) (hc : c ∈ d' :: ds) : c ∉ ['\\', ']', '-'] := by
          have hoctal := octal_digits (h.1.digits c (List.mem_cons_of_mem _ hc))
          grind
        have hd' := hplain d' List.mem_cons_self
        simp only [List.mem_cons, List.not_mem_nil, or_false, not_or] at hd'
        rw [remains, if_neg hhead] at hatom
        have hround := characterClassRound_single hclose hatom.2 (peek_ne_of_head (by decide) hd'.2.2 _)
        have hlast := hplain (ds.getLastD d') List.getLastD_mem_cons
        simp only [List.mem_cons, List.not_mem_nil, or_false, not_or] at hlast
        have hliterals : p.Rounds count _ _ := rounds_literals hplain (List.cons_ne_nil d' ds) behind
        rw [List.getLastD_cons] at hliterals
        refine ⟨_, .head hround hliterals, peek_ne_of_head (by decide) hlast.2.1 _, ?_⟩
        rw [parseClassAtom_literal p.unicode count hlast.1, readLast, readAs, if_neg hhead,
          List.getLastD_cons, List.getLastD_cons]
  | letter c =>
    by_cases hunderscore : c = '_'
    · subst hunderscore
      have hround := characterClassRound_single hclose hatom.2
        (peek_ne_of_head (by decide) (by decide) _)
      refine ⟨'_' :: '-' :: behind, .single hround, peek_ne_of_head (by decide) (by decide) _, ?_⟩
      exact parseClassAtom_literal p.unicode count (by decide) ('-' :: behind)
    · refine hsame ?_ ?_
      · rw [readFirst, readLast, readAs, readAs, if_neg hunderscore, if_neg hunderscore]
      · rw [remains, if_neg hunderscore]
  | backslash =>
    obtain ⟨-, rest, hrest, -⟩ := h
    exact absurd (List.cons.inj hrest).1 (by decide)
  | _ => exact hsame rfl rfl

theorem length_remains_le (e : RangeEnd) (behind : List Char) :
    (e.remains behind).length ≤ (e.text ++ behind).length := by
  have htail (cs : List Char) : cs.tail.length ≤ cs.length := by simp
  cases e with
  | octal ds =>
    have hdigits := htail ds
    rw [remains]
    split
    all_goals
      simp only [text, List.length_append, List.length_cons]
      omega
  | letter c =>
    rw [remains]
    split
    all_goals
      simp only [text, List.length_append, List.length_cons]
      omega
  | backslash =>
    have hbehind := htail behind
    simp only [remains, text, List.length_append, List.length_cons]
    omega
  | _ =>
    simp only [remains, text, List.length_append, List.length_cons]
    omega

end RangeEnd

open RangeEnd in
theorem characterClassRound_eq {a b : RangeEnd} {behind : List Char} (ha : a.Spelled p.unicode ('-' :: (b.text ++ behind)))
    (hb : b.Spelled p.unicode behind) (hclose : peek iter ≠ ']'.toNat)
    (hleft : parseClassAtom p.unicode count iter = .ok (a.readLast, '-' :: (b.text ++ behind))) :
    (b.Throws behind ∨ b.readFirst < a.readLast → ∃ message, p.characterClassRound count iter = .error message) ∧
      (¬ (b.Throws behind ∨ b.readFirst < a.readLast) →
        p.characterClassRound count iter = .ok (false, b.remains behind)) := by
  have hround := characterClassRound_range hclose hleft (hb.peek_ne behind)
  have hnone : ¬ (IsClassEscape a.readLast ∨ IsClassEscape b.readFirst) := by
    have hlast := readAs_lt ha (·.getLastD '0') '_'
    have hfirst := readAs_lt hb (·.headD '0') 'c'
    have hmax : (0x110000 : ℕ) < classEscape := by decide
    rintro (h | h)
    · exact Nat.ne_of_lt (hlast.trans hmax) h
    · exact Nat.ne_of_lt (hfirst.trans hmax) h
  rcases parseClassAtom_eq hb count with ⟨hthrows, message, herror⟩ | ⟨hthrows, hatom⟩
  · rw [herror] at hround
    exact ⟨fun _ => ⟨message, hround⟩, fun h => absurd (.inl hthrows) h⟩
  · rw [hatom, ok_bind] at hround
    dsimp only at hround
    rw [if_neg hnone] at hround
    refine ⟨fun h => ⟨"Class range out of order", ?_⟩, fun h => ?_⟩
    · rw [hround, if_pos (h.resolve_left hthrows)]
    · rw [hround, if_neg fun hlt => h (.inr hlt)]

/-! ## The order of a range -/

section

variable {a b : RangeEnd} {start behind : List Char}
  (ha : a.Spelled p.unicode ('-' :: (b.text ++ behind))) (hb : b.Spelled p.unicode behind)
  (hstart : p.Rounds count start (a.text ++ '-' :: (b.text ++ behind)))

include ha hb hstart

theorem rejectedFor_iff :
    p.RejectedFor count start (a.text ++ '-' :: (b.text ++ behind)) (b.text ++ behind) ↔
      b.Throws behind ∨ b.readFirst < a.readLast := by
  obtain ⟨iter, hrounds, hclose, hleft⟩ := RangeEnd.exists_last ha count
  have hround := characterClassRound_eq ha hb hclose hleft
  have hiter : p.Rounds count start iter := hstart.trans hrounds
  constructor
  · rintro ⟨iter', message, hto, -, hlength, herror⟩
    by_contra hnot
    have hbehind : p.Rounds count start (b.remains behind) := hiter.tail (hround.2 hnot)
    have hremains := RangeEnd.length_remains_le b behind
    rcases hbehind.total hto with h | h
    · have hle := h.suffix.length_le
      omega
    · rcases ReflTransGen.cases_head h with rfl | ⟨mid, hok, -⟩
      · omega
      · rw [herror] at hok
        cases hok
  · intro h
    obtain ⟨message, herror⟩ := hround.1 h
    have hdash : (b.text ++ behind).length < iter.length := by
      obtain ⟨htakes⟩ : Nonempty (Takes p.unicode true iter ('-' :: (b.text ++ behind))) :=
        ⟨takes_parseClassAtom (fun hhead => hclose ((peek_eq_iff (by decide) iter).mpr hhead)) hleft⟩
      exact Nat.lt_of_lt_of_le (Nat.lt_succ_self _) htakes.keeps.length_le
    exact ⟨iter, message, hiter, hrounds.suffix, hdash, herror⟩

/-- The parser rejects just the ranges out of order where the ends are in the order of what it takes
them for, and the lookahead throws on none. -/
theorem rejectedFor_iff_order :
    (p.RejectedFor count start (a.text ++ '-' :: (b.text ++ behind)) (b.text ++ behind) ↔
      b.rightValue p.unicode < a.leftValue p.unicode) ↔
    (b.Throws behind ∨ b.readFirst < a.readLast ↔ b.rightValue p.unicode < a.leftValue p.unicode) := by
  rw [rejectedFor_iff ha hb hstart]

end

/-- The range `A-Z`, before the end of its class. -/
theorem rejectedFor_iff_order_letters :
    ((asciiParser true).RejectedFor 0 ['A', '-', 'Z', ']'] ['A', '-', 'Z', ']'] ['Z', ']'] ↔
      (RangeEnd.literal 'Z').rightValue true < (RangeEnd.literal 'A').leftValue true) ↔
    ((RangeEnd.literal 'Z').Throws [']'] ∨ (RangeEnd.literal 'Z').readFirst < (RangeEnd.literal 'A').readLast ↔
      (RangeEnd.literal 'Z').rightValue true < (RangeEnd.literal 'A').leftValue true) :=
  rejectedFor_iff_order (p := asciiParser true) (a := .literal 'A') (b := .literal 'Z') ⟨by decide, by decide⟩
    ⟨by decide, by decide⟩ .refl

/-- `/[\7-\10]/` is rejected, though 7 is less than 8; and `/[\u0020-\12]/` is not. -/
theorem octal_ranges :
    (¬ ((asciiParser false).RejectedFor 0 ['\\', '7', '-', '\\', '1', '0', ']']
          ['\\', '7', '-', '\\', '1', '0', ']'] ['\\', '1', '0', ']'] ↔
        (RangeEnd.octal ['1', '0']).rightValue false < (RangeEnd.octal ['7']).leftValue false) ∧
      (asciiParser false).parsePattern 9 ['[', '\\', '7', '-', '\\', '1', '0', ']'] =
        .error "Class range out of order") ∧
    (RangeEnd.octal ['1', '2']).rightValue false < (RangeEnd.unit ['0', '0', '2', '0']).leftValue false ∧
      (asciiParser false).parsePattern 9
        ['[', '\\', 'u', '0', '0', '2', '0', '-', '\\', '1', '2', ']'] = .ok (State.start []) := by
  have hround : (asciiParser false).characterClassRound 0 ['\\', '7', '-', '\\', '1', '0', ']'] =
      .error "Class range out of order" := by decide +kernel
  have hrejected : (asciiParser false).RejectedFor 0 ['\\', '7', '-', '\\', '1', '0', ']']
      ['\\', '7', '-', '\\', '1', '0', ']'] ['\\', '1', '0', ']'] :=
    ⟨_, _, .refl, List.suffix_refl _, by decide, hround⟩
  have horder : ¬ (RangeEnd.octal ['1', '0']).rightValue false < (RangeEnd.octal ['7']).leftValue false := by
    decide +kernel
  exact ⟨⟨fun h => horder (h.mp hrejected), by decide +kernel⟩, by decide +kernel, by decide +kernel⟩

end ArkTs2abc.Es2panda.RegExpParser
