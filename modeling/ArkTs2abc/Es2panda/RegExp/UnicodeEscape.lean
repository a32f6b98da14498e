import ArkTs2abc.Es2panda.RegExp.Termination

/-!
# Unicode escapes

Behind an escape for a high surrogate the parser looks for one for a low surrogate. It reads the
digits with the function that throws, and the code point that it makes of a pair is 0x400 too small.

## Main definitions

* `RegExpParser.UnitText`, `RegExpParser.LowEscape` — the digits of an escape, and a low surrogate.
* `RegExpParser.Reads` — an escape is read as a code point, wherever the parser meets it.
* `RegExpParser.LookaheadRight` — it is, just with the low surrogate behind it.

## Main results

* `RegExpParser.lookaheadRight_iff` — where it is, and where the parser goes on at the right place.
-/

namespace ArkTs2abc.Es2panda.RegExpParser

open Unicode
open Lexer (isHexDigit)

/-! ## The digits -/

/-- One more hexadecimal digit. -/
def pushHex (value : ℕ) (c : Char) : ℕ := value * 16 + hexValue c.toNat

/-- The value of hexadecimal digits. -/
def hexNumber (ds : List Char) : ℕ := ds.foldl pushHex 0

/-- The digits behind `\u`. -/
structure UnitText (ds : List Char) : Prop where
  length : ds.length = 4
  digits : ∀ c ∈ ds, isHexDigit c.toNat = true

instance (ds : List Char) : Decidable (UnitText ds) :=
  decidable_of_iff (ds.length = 4 ∧ ∀ c ∈ ds, isHexDigit c.toNat = true)
    ⟨fun h => ⟨h.1, h.2⟩, fun h => ⟨h.length, h.digits⟩⟩

theorem unicodeDigits_append {ds : List Char} (value : ℕ) (hds : ∀ c ∈ ds, isHexDigit c.toNat = true)
    (rest : List Char) : unicodeDigits ds.length value (ds ++ rest) = .ok (ds.foldl pushHex value, rest) := by
  induction ds generalizing value with
  | nil => rfl
  | cons c ds ih =>
    obtain ⟨hc, hds⟩ := List.forall_mem_cons.mp hds
    rw [List.length_cons, List.cons_append, unicodeDigits, next_fst, hc, skip_cons]
    exact ih _ hds

theorem UnitText.parse {ds : List Char} (hds : UnitText ds) (rest : List Char) :
    parseUnicodeDigits (ds ++ rest) = .ok (hexNumber ds, rest) := by
  have h := unicodeDigits_append 0 hds.digits rest
  rwa [hds.length] at h

theorem digits_of_unicodeDigits {count value value' : ℕ} {iter rest : List Char}
    (h : unicodeDigits count value iter = .ok (value', rest)) :
    ∃ ds, iter = ds ++ rest ∧ ds.length = count ∧ ∀ c ∈ ds, isHexDigit c.toNat = true := by
  induction count generalizing value iter with
  | zero =>
    obtain ⟨-, rfl⟩ := Prod.mk.inj (Except.ok.inj h)
    exact ⟨[], rfl, rfl, by simp⟩
  | succ count ih =>
    rw [unicodeDigits] at h
    cases iter with
    | nil => exact absurd h (by simp [show isHexDigit INVALID_CP = false by decide])
    | cons c iter =>
      cases hc : isHexDigit c.toNat with
      | false =>
        rw [next_fst, hc] at h
        cases h
      | true =>
        rw [next_fst, hc, if_neg (by decide)] at h
        obtain ⟨ds, rfl, hlen, hds⟩ := ih h
        exact ⟨c :: ds, rfl, by rw [List.length_cons, hlen], List.forall_mem_cons.mpr ⟨hc, hds⟩⟩

theorem parseUnicodeDigits_error {iter : List Char}
    (h : ¬ ∃ ds rest, iter = ds ++ rest ∧ UnitText ds) : ∃ message, parseUnicodeDigits iter = .error message := by
  cases hparse : parseUnicodeDigits iter with
  | error message => exact ⟨message, rfl⟩
  | ok a =>
    obtain ⟨ds, hiter, hlen, hds⟩ := digits_of_unicodeDigits hparse
    exact absurd ⟨ds, a.2, hiter, hlen, hds⟩ h

theorem UnitText.cons {ds : List Char} (hds : UnitText ds) : ∃ c ds', ds = c :: ds' ∧ isHexDigit c.toNat = true := by
  obtain ⟨c, ds', rfl⟩ := List.exists_cons_of_ne_nil (List.ne_nil_of_length_eq_add_one hds.length)
  exact ⟨c, ds', rfl, hds.digits c List.mem_cons_self⟩

theorem UnitText.peek_ne {ds : List Char} (hds : UnitText ds) {d : Char} (hd : isHexDigit d.toNat = false)
    (rest : List Char) : peek (ds ++ rest) ≠ d.toNat := by
  intro h
  have hpeek := isHexDigit_peek (ds ++ rest)
  obtain ⟨c, ds', rfl, hc⟩ := hds.cons
  rw [h, List.cons_append, next_fst, hc, hd] at hpeek
  cases hpeek

theorem hexNumber_inj {ds es rest rest' : List Char} (hds : UnitText ds) (hes : UnitText es)
    (h : ds ++ rest = es ++ rest') : ds = es ∧ rest = rest' :=
  List.append_inj h (hds.length.trans hes.length.symm)

/-! ## The lookahead -/

/-- A text starts with an escape for a low surrogate. -/
inductive LowEscape : List Char → ℕ → List Char → Prop where
  | intro {ds rest : List Char} (hds : UnitText ds) (hlow : IsLowSurrogate (hexNumber ds)) :
      LowEscape ('\\' :: 'u' :: (ds ++ rest)) (hexNumber ds) rest

/-- A text starts as a Unicode escape does. -/
def StartsEscape (iter : List Char) : Prop := iter.head? = some '\\' ∧ iter.tail.head? = some 'u'

instance (iter : List Char) : Decidable (StartsEscape iter) := inferInstanceAs (Decidable (_ ∧ _))

theorem StartsEscape.eq {iter : List Char} (h : StartsEscape iter) : ∃ behind, iter = '\\' :: 'u' :: behind := by
  obtain ⟨tail, rfl⟩ := List.head?_eq_some_iff.mp h.1
  obtain ⟨behind, hbehind⟩ := List.head?_eq_some_iff.mp h.2
  exact ⟨behind, congrArg _ hbehind⟩

namespace LowEscape

variable {iter behind : List Char} {low : ℕ} (h : LowEscape iter low behind)

include h

theorem starts : StartsEscape iter := by
  cases h
  exact ⟨rfl, rfl⟩

theorem isLow : IsLowSurrogate low := by
  cases h with
  | intro hds hlow => exact hlow

theorem unique {low' : ℕ} {behind' : List Char} (h' : LowEscape iter low' behind') :
    low = low' ∧ behind = behind' := by
  cases h with
  | intro hds hlow =>
    rename_i ds
    generalize htext : '\\' :: 'u' :: (ds ++ behind) = text at h'
    cases h' with
    | intro hes hlow' =>
      obtain ⟨rfl, rfl⟩ := hexNumber_inj hds hes (List.cons.inj (List.cons.inj htext).2).2
      exact ⟨rfl, rfl⟩

end LowEscape

theorem skip_eq_tail (iter : List Char) : skip iter = iter.tail := by
  cases iter <;> rfl

theorem startsEscape_iff (iter : List Char) :
    ((next iter).1 = '\\'.toNat ∧ (next (skip iter)).1 = 'u'.toNat) ↔ StartsEscape iter := by
  rw [next_eq_iff, next_eq_iff, skip_eq_tail, StartsEscape]

section

variable {ds : List Char} (hds : UnitText ds)

include hds

theorem parseUnicodeEscape_append (rest : List Char) : parseUnicodeEscape (ds ++ rest) =
    if IsHighSurrogate (hexNumber ds) ∧ StartsEscape rest then
      (parseUnicodeDigits rest.tail.tail >>= fun (low, behind) =>
        if IsLowSurrogate low then .ok (decodeSurrogates (hexNumber ds) low, behind)
        else .ok (hexNumber ds, rest))
    else .ok (hexNumber ds, rest) := by
  have hparse : parseUnicodeEscape (ds ++ rest) =
      if IsHighSurrogate (hexNumber ds) then
        if (next rest).1 = '\\'.toNat ∧ (next (skip rest)).1 = 'u'.toNat then
          (parseUnicodeDigits (skip (skip rest)) >>= fun (low, behind) =>
            if IsLowSurrogate low then .ok (decodeSurrogates (hexNumber ds) low, behind)
            else .ok (hexNumber ds, rest))
        else .ok (hexNumber ds, rest)
      else .ok (hexNumber ds, rest) := by
    rw [parseUnicodeEscape, if_neg (hds.peek_ne (by decide) rest), hds.parse]
    rfl
  have hstarts := startsEscape_iff rest
  rw [hparse, ← skip_eq_tail rest, ← skip_eq_tail (skip rest)]
  by_cases hhigh : IsHighSurrogate (hexNumber ds)
  · by_cases h : StartsEscape rest
    · rw [if_pos hhigh, if_pos (hstarts.mpr h), if_pos ⟨hhigh, h⟩]
    · rw [if_pos hhigh, if_neg (mt hstarts.mp h), if_neg fun hboth => h hboth.2]
  · rw [if_neg hhigh, if_neg fun hboth => hhigh hboth.1]

theorem parseUnicodeEscape_single {rest : List Char}
    (h : ¬ (IsHighSurrogate (hexNumber ds) ∧ StartsEscape rest)) :
    parseUnicodeEscape (ds ++ rest) = .ok (hexNumber ds, rest) := by
  rw [parseUnicodeEscape_append hds, if_neg h]

variable (hhigh : IsHighSurrogate (hexNumber ds))

include hhigh

theorem parseUnicodeEscape_unit {es : List Char} (hes : UnitText es) (rest : List Char) :
    parseUnicodeEscape (ds ++ '\\' :: 'u' :: (es ++ rest)) =
      if IsLowSurrogate (hexNumber es) then .ok (decodeSurrogates (hexNumber ds) (hexNumber es), rest)
      else .ok (hexNumber ds, '\\' :: 'u' :: (es ++ rest)) := by
  rw [parseUnicodeEscape_append hds, if_pos ⟨hhigh, rfl, rfl⟩, List.tail_cons, List.tail_cons, hes.parse]
  rfl

theorem parseUnicodeEscape_error {rest : List Char}
    (h : ¬ ∃ es behind, rest = es ++ behind ∧ UnitText es) :
    ∃ message, parseUnicodeEscape (ds ++ '\\' :: 'u' :: rest) = .error message := by
  obtain ⟨message, herror⟩ := parseUnicodeDigits_error h
  refine ⟨message, ?_⟩
  rw [parseUnicodeEscape_append hds, if_pos ⟨hhigh, rfl, rfl⟩, List.tail_cons, List.tail_cons, herror]
  rfl

end

/-! ## The value of a pair -/

theorem decodeSurrogates_add {high low : ℕ} (hhigh : IsHighSurrogate high) (hlow : IsLowSurrogate low) :
    decodeSurrogates high low + 0x400 = ofPair high low := by
  obtain ⟨hhigh₁, hhigh₂⟩ := hhigh
  obtain ⟨hlow₁, hlow₂⟩ := hlow
  unfold decodeSurrogates uint32 ofPair
  rw [Nat.shiftLeft_eq]
  omega

/-- What the parser makes of a pair. -/
def shortPair (high low : ℕ) : ℕ := ofPair high low - 0x400

theorem decodeSurrogates_eq {high low : ℕ} (hhigh : IsHighSurrogate high) (hlow : IsLowSurrogate low) :
    decodeSurrogates high low = shortPair high low :=
  Nat.eq_sub_of_add_eq (decodeSurrogates_add hhigh hlow)

theorem decodeSurrogates_ne {high low : ℕ} (hhigh : IsHighSurrogate high) (hlow : IsLowSurrogate low) :
    decodeSurrogates high low ≠ ofPair high low := by
  rw [← decodeSurrogates_add hhigh hlow]
  exact Nat.ne_of_lt (Nat.lt_add_of_pos_right (by decide))

/-! ## The places of an escape -/

variable (p : RegExpParser)

/-- What follows `\u` is read as a code point, in an atom, in a class and in a name. -/
structure Reads (iter : List Char) (cp : ℕ) (behind : List Char) : Prop where
  atom : ∀ (n : ℕ) (s : State), p.parseAtomEscape n (s.at ('u' :: iter)) = .ok (s.at behind)
  classAtom : ∀ count, parseClassAtom p.unicode count ('\\' :: 'u' :: iter) = .ok (cp, behind)
  ident : p.parseIdentCp ('\\' :: 'u' :: iter) = .ok (cp, behind)

/-- Behind the digits of an escape for a high surrogate: together with a low surrogate it is one
code point, and otherwise what follows is left as it is. -/
structure LookaheadRight (ds rest : List Char) : Prop where
  pair : ∀ low behind, LowEscape rest low behind → p.Reads (ds ++ rest) (ofPair (hexNumber ds) low) behind
  single : (¬ ∃ low behind, LowEscape rest low behind) → p.Reads (ds ++ rest) (hexNumber ds) rest

/-- The same for the place at which the parser goes on, whatever it has read. -/
structure PlaceRight (ds rest : List Char) : Prop where
  pair : ∀ low behind, LowEscape rest low behind → ∃ cp, p.Reads (ds ++ rest) cp behind
  single : (¬ ∃ low behind, LowEscape rest low behind) → ∃ cp, p.Reads (ds ++ rest) cp rest

variable {p}

theorem parseAtomEscape_unicode (n : ℕ) (s : State) (iter : List Char) :
    p.parseAtomEscape n (s.at ('u' :: iter)) =
      (Outcome.ofExcept (parseUnicodeEscape iter)).bind fun (_, behind) => .ok (s.at behind) := by
  rw [parseAtomEscape, State.at_iter, peek_ascii (by decide)]
  rfl

section

variable {iter : List Char} (h : peek iter ≠ '\x7b'.toNat)
include h

theorem parseClassAtom_unicode (unicode : Bool) (count : ℕ) :
    parseClassAtom unicode count ('\\' :: 'u' :: iter) = parseUnicodeEscape iter := by
  rw [parseClassAtom, next_fst, skip_cons, peek_ascii (by decide), skip_cons]
  exact if_neg fun hbrace : _ ∧ _ => h hbrace.2

theorem parseIdentCp_unicode :
    p.parseIdentCp ('\\' :: 'u' :: iter) = parseUnicodeEscape iter := by
  rw [parseIdentCp, next_fst, skip_cons]
  exact if_neg fun hbrace : _ ∧ _ => h hbrace.2

theorem reads_iff (cp : ℕ) (behind : List Char) :
    p.Reads iter cp behind ↔ parseUnicodeEscape iter = .ok (cp, behind) := by
  constructor
  · intro hreads
    rw [← hreads.ident, parseIdentCp_unicode h]
  · intro hok
    refine ⟨fun n s => ?_, fun count => ?_, ?_⟩
    · rw [parseAtomEscape_unicode, hok]
      rfl
    · rw [parseClassAtom_unicode h, hok]
    · rw [parseIdentCp_unicode h, hok]

end

/-! ## Where it is right -/

/-- Four digits follow wherever the text goes on as an escape does. -/
def DigitsFollow (rest : List Char) : Prop :=
  StartsEscape rest → ∃ es behind, rest.tail.tail = es ++ behind ∧ UnitText es

theorem LowEscape.digitsFollow {iter behind : List Char} {low : ℕ} (h : LowEscape iter low behind) :
    DigitsFollow iter := by
  cases h with
  | intro hds hlow => exact fun _ => ⟨_, behind, rfl, hds⟩

theorem parseUnicodeEscape_cases {ds : List Char} (hds : UnitText ds) (hhigh : IsHighSurrogate (hexNumber ds))
    (rest : List Char) :
    (∃ low behind, LowEscape rest low behind ∧
      parseUnicodeEscape (ds ++ rest) = .ok (decodeSurrogates (hexNumber ds) low, behind)) ∨
    ((¬ ∃ low behind, LowEscape rest low behind) ∧ DigitsFollow rest ∧
      parseUnicodeEscape (ds ++ rest) = .ok (hexNumber ds, rest)) ∨
    (¬ DigitsFollow rest ∧ ∃ message, parseUnicodeEscape (ds ++ rest) = .error message) := by
  by_cases hstarts : StartsEscape rest
  · obtain ⟨iter, rfl⟩ := hstarts.eq
    by_cases hdigits : ∃ es behind, iter = es ++ behind ∧ UnitText es
    · obtain ⟨es, behind, rfl, hes⟩ := hdigits
      have hparse := parseUnicodeEscape_unit hds hhigh hes behind
      by_cases hlow : IsLowSurrogate (hexNumber es)
      · exact .inl ⟨hexNumber es, behind, .intro hes hlow, by rw [hparse, if_pos hlow]⟩
      · refine .inr (.inl ⟨?_, fun _ => ⟨es, behind, rfl, hes⟩, by rw [hparse, if_neg hlow]⟩)
        rintro ⟨low, behind', hescape⟩
        generalize htext : '\\' :: 'u' :: (es ++ behind) = text at hescape
        cases hescape with
        | intro hds' hlow' =>
          obtain ⟨rfl, -⟩ := hexNumber_inj hes hds' (List.cons.inj (List.cons.inj htext).2).2
          exact hlow hlow'
    · exact .inr (.inr ⟨fun h => hdigits (h ⟨rfl, rfl⟩), parseUnicodeEscape_error hds hhigh hdigits⟩)
  · refine .inr (.inl ⟨?_, fun h => absurd h hstarts, parseUnicodeEscape_single hds fun h => hstarts h.2⟩)
    rintro ⟨low, behind, hescape⟩
    exact hstarts hescape.starts

/-- The parser is right about what follows just if it goes on as an escape with four digits wherever it
goes on as an escape, and these are no low surrogate. Behind a low surrogate only the place is right. -/
theorem lookaheadRight_iff {ds : List Char} (hds : UnitText ds) (hhigh : IsHighSurrogate (hexNumber ds))
    (rest : List Char) :
    (p.LookaheadRight ds rest ↔ DigitsFollow rest ∧ ¬ ∃ low behind, LowEscape rest low behind) ∧
      (p.PlaceRight ds rest ↔ DigitsFollow rest) := by
  have hreads (cp : ℕ) (behind : List Char) :
      p.Reads (ds ++ rest) cp behind ↔ parseUnicodeEscape (ds ++ rest) = .ok (cp, behind) :=
    reads_iff (hds.peek_ne (by decide) rest) cp behind
  rcases parseUnicodeEscape_cases hds hhigh rest with
    ⟨low, behind, hescape, hparse⟩ | ⟨hnone, hfollow, hparse⟩ | ⟨hfollow, message, hparse⟩
  · constructor
    · refine iff_of_false (fun h => ?_) fun h => h.2 ⟨low, behind, hescape⟩
      have hpair := (hreads _ _).mp (h.pair low behind hescape)
      rw [hparse] at hpair
      exact decodeSurrogates_ne hhigh hescape.isLow (Prod.mk.inj (Except.ok.inj hpair)).1
    · refine iff_of_true ⟨fun low' behind' hescape' => ?_, fun h => absurd ⟨low, behind, hescape⟩ h⟩
        hescape.digitsFollow
      obtain ⟨-, rfl⟩ := hescape.unique hescape'
      exact ⟨_, (hreads _ _).mpr hparse⟩
  · have hsingle := (hreads _ _).mpr hparse
    exact ⟨iff_of_true ⟨fun low behind h => absurd ⟨low, behind, h⟩ hnone, fun _ => hsingle⟩ ⟨hfollow, hnone⟩,
      iff_of_true ⟨fun low behind h => absurd ⟨low, behind, h⟩ hnone, fun _ => ⟨_, hsingle⟩⟩ hfollow⟩
  · have hnone : ¬ ∃ low behind, LowEscape rest low behind := by
      rintro ⟨low, behind, hescape⟩
      exact hfollow hescape.digitsFollow
    have hthrows (cp : ℕ) (behind : List Char) : ¬ p.Reads (ds ++ rest) cp behind := by
      intro h
      rw [hreads, hparse] at h
      cases h
    refine ⟨iff_of_false (fun h => hthrows _ _ (h.single hnone)) fun h => hfollow h.1,
      iff_of_false (fun h => ?_) hfollow⟩
    obtain ⟨cp, hcp⟩ := h.single hnone
    exact hthrows _ _ hcp

theorem lookaheadRight_letter : (asciiParser false).LookaheadRight ['D', '8', '0', '0'] ['a'] :=
  (lookaheadRight_iff (by decide) (by decide) ['a']).1.mpr
    ⟨fun h => absurd h (by decide), by
      rintro ⟨low, behind, h⟩
      exact absurd h.starts (by decide)⟩

/-- The text `\u{41}`. -/
def bracedEscape : List Char := ['\\', 'u', '\x7b', '4', '1', '\x7d']

theorem bracedEscape_not_digitsFollow : ¬ DigitsFollow bracedEscape := by
  intro h
  obtain ⟨es, behind, htext, hes⟩ := h ⟨rfl, rfl⟩
  obtain ⟨c, es', rfl, hc⟩ := hes.cons
  have hbrace : '\x7b' = c := (List.cons.inj htext).1
  rw [← hbrace] at hc
  exact absurd hc (by decide)

/-- On `/\uD800\u{41}/u` the lookahead throws, though the two escapes alone are read; and the pair of
`/\uD83D\uDE00/u` is read as another code point. -/
theorem lookahead_throws :
    (¬ (asciiParser true).LookaheadRight ['D', '8', '0', '0'] bracedEscape ∧
      (∃ s, (asciiParser true).parsePattern 9 ['\\', 'u', 'D', '8', '0', '0'] = .ok s) ∧
      (∃ s, (asciiParser true).parsePattern 9 bracedEscape = .ok s) ∧
      (asciiParser true).parsePattern 9 (['\\', 'u', 'D', '8', '0', '0'] ++ bracedEscape) =
        .error "Invalid Unicode escape") ∧
    ¬ (asciiParser true).LookaheadRight ['D', '8', '3', 'D'] ['\\', 'u', 'D', 'E', '0', '0'] := by
  have hhigh : parseUnicodeEscape (['D', '8', '0', '0'] ++ bracedEscape) = .error "Invalid Unicode escape" := by
    decide +kernel
  have hpair : parseUnicodeEscape (['D', '8', '3', 'D'] ++ ['\\', 'u', 'D', 'E', '0', '0']) ≠
      .ok (ofPair (hexNumber ['D', '8', '3', 'D']) (hexNumber ['D', 'E', '0', '0']), []) := by
    decide +kernel
  have hlow : LowEscape ['\\', 'u', 'D', 'E', '0', '0'] (hexNumber ['D', 'E', '0', '0']) [] :=
    @LowEscape.intro ['D', 'E', '0', '0'] [] (by decide) (by decide)
  refine ⟨⟨fun h => ?_, ⟨State.start [], by decide +kernel⟩, ⟨State.start [], by decide +kernel⟩,
    by decide +kernel⟩, fun h => hpair ((reads_iff (by decide) _ _).mp (h.pair _ _ hlow))⟩
  have hread := (reads_iff (by decide) _ _).mp (h.single fun hescape => by
    obtain ⟨low, behind, hescape⟩ := hescape
    exact bracedEscape_not_digitsFollow hescape.digitsFollow)
  rw [hhigh] at hread
  cases hread

end ArkTs2abc.Es2panda.RegExpParser
