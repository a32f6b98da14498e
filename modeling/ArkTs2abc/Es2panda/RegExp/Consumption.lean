import ArkTs2abc.Es2panda.Lexer.ScanRegExp
import ArkTs2abc.Es2panda.RegExp.Machine

/-!
# What the parser of regular expressions consumes

Each function leaves an end of the text. Without the Unicode flag it also stays in step with the
scanner of the lexer, inside and outside of classes: only the search of a property escape does not.

## Main definitions

* `RegExpParser.Keeps` — an end of the text that is in step with the scanner.
-/

namespace ArkTs2abc.Es2panda.RegExpParser

open Unicode
open Lexer (isDecimalDigit isHexDigit isOctalDigit)

/-! ## The iterator -/

theorem peek_eq_next_or (iter : List Char) :
    peek iter = (next iter).1 ∨ 0x80 ≤ (next iter).1 ∧ 0x80 ≤ peek iter := by
  cases iter with
  | nil => exact .inl rfl
  | cons c iter =>
    rcases Nat.lt_or_ge c.toNat 0x80 with hascii | hge
    · exact .inl (peek_ascii hascii iter)
    · have hpeek := (Lexer.le_peek_utf8Text hge iter).1
      exact .inr ⟨hge, Nat.le_trans (by decide) hpeek⟩

theorem peek_congr {P : ℕ → Bool} (hP : ∀ n, 0x80 ≤ n → P n = false) (iter : List Char) :
    P (peek iter) = P (next iter).1 := by
  rcases peek_eq_next_or iter with h | ⟨hnext, hpeek⟩
  · rw [h]
  · rw [hP _ hnext, hP _ hpeek]

theorem isDecimalDigit_wide {n : ℕ} (h : 0x80 ≤ n) : isDecimalDigit n = false := by
  simp [isDecimalDigit]
  omega

theorem isOctalDigit_wide {n : ℕ} (h : 0x80 ≤ n) : isOctalDigit n = false := by
  simp [isOctalDigit]
  omega

theorem isControlLetter_wide {n : ℕ} (h : 0x80 ≤ n) : isControlLetter n = false := by
  simp [isControlLetter]
  omega

@[simp] theorem isDecimalDigit_peek (iter : List Char) :
    isDecimalDigit (peek iter) = isDecimalDigit (next iter).1 := peek_congr (fun _ => isDecimalDigit_wide) iter

@[simp] theorem isHexDigit_peek (iter : List Char) :
    isHexDigit (peek iter) = isHexDigit (next iter).1 := peek_congr (fun _ => Lexer.isHexDigit_of_wide) iter

@[simp] theorem isOctalDigit_peek (iter : List Char) :
    isOctalDigit (peek iter) = isOctalDigit (next iter).1 := peek_congr (fun _ => isOctalDigit_wide) iter

@[simp] theorem isControlLetter_peek (iter : List Char) :
    isControlLetter (peek iter) = isControlLetter (next iter).1 :=
  peek_congr (fun _ => isControlLetter_wide) iter

theorem isDecimalDigit_of_octal {n : ℕ} (h : isOctalDigit n = true) : isDecimalDigit n = true := by
  simp [isOctalDigit, isDecimalDigit] at *
  omega

theorem isHexDigit_of_decimal {n : ℕ} (h : isDecimalDigit n = true) : isHexDigit n = true := by
  simp [isHexDigit, h]

theorem next_eq_iff {d : Char} (iter : List Char) : (next iter).1 = d.toNat ↔ iter.head? = some d := by
  cases iter with
  | nil =>
    have hlt := Lexer.char_lt d
    simp only [next_nil, List.head?_nil, INVALID_CP, reduceCtorEq, iff_false]
    omega
  | cons c iter => simp [Char.toNat_inj]

/-! ## Staying in step -/

/-- The characters at which the state of the scanner may change. -/
def special : List Char := ['\\', '[', ']']

/-- An end of a text, which the scanner reads in the same state unless the flag is set. -/
structure Keeps (unicode isCharClass : Bool) (iter rest : List Char) : Prop where
  suffix : rest <:+ iter
  body : unicode = false → BodyFrom isCharClass iter → BodyFrom isCharClass rest

namespace Keeps

variable {unicode isCharClass : Bool} {iter mid rest : List Char}

theorem refl : Keeps unicode isCharClass iter iter := ⟨List.suffix_refl _, fun _ h => h⟩

theorem trans (h : Keeps unicode isCharClass iter mid) (h' : Keeps unicode isCharClass mid rest) :
    Keeps unicode isCharClass iter rest :=
  ⟨h'.suffix.trans h.suffix, fun hu hbody => h'.body hu (h.body hu hbody)⟩

theorem ok {α : Type} {value value' : α} (h : Keeps unicode isCharClass iter mid)
    (hok : (.ok (value, mid) : Except String (α × List Char)) = .ok (value', rest)) :
    Keeps unicode isCharClass iter rest := by
  obtain ⟨-, rfl⟩ := Prod.mk.inj (Except.ok.inj hok)
  exact h

theorem length_le (h : Keeps unicode isCharClass iter rest) : rest.length ≤ iter.length :=
  h.suffix.length_le

theorem of_unicode (hunicode : unicode = true) (h : rest <:+ iter) : Keeps unicode isCharClass iter rest :=
  ⟨h, fun hfalse => by simp [hunicode] at hfalse⟩

theorem skip_suffix (iter : List Char) : skip iter <:+ iter := by
  cases iter with
  | nil => exact List.suffix_refl _
  | cons c iter => exact List.suffix_cons c iter

theorem skip (h : ∀ c ∈ iter.head?, c ∉ special) : Keeps unicode isCharClass iter (skip iter) := by
  refine ⟨skip_suffix iter, fun _ hbody => ?_⟩
  cases hbody with
  | nil => exact .nil
  | @char _ c _ _ _ _ hbody =>
    have hc := h c rfl
    have hafter : classAfter isCharClass c = isCharClass := by
      simp only [special, List.mem_cons, List.not_mem_nil, or_false, not_or] at hc
      rw [classAfter, if_neg hc.2.1, if_neg hc.2.2]
    rwa [hafter] at hbody
  | escape => exact absurd (by decide) (h '\\' rfl)

theorem skip_class (h : ∀ c ∈ iter.head?, c ∉ ['\\', ']']) :
    Keeps unicode true iter (RegExpParser.skip iter) := by
  refine ⟨skip_suffix iter, fun _ hbody => ?_⟩
  cases hbody with
  | @char _ c _ _ _ _ hbody =>
    have hc := h c rfl
    have hafter : classAfter true c = true := by
      simp only [List.mem_cons, List.not_mem_nil, or_false, not_or] at hc
      rw [classAfter, if_neg hc.2]
      split <;> rfl
    rwa [hafter] at hbody
  | escape => exact absurd (by decide) (h '\\' rfl)

theorem escape : Keeps unicode isCharClass ('\\' :: iter) (RegExpParser.skip iter) := by
  refine ⟨(skip_suffix iter).trans (List.suffix_cons _ _), fun _ hbody => ?_⟩
  cases hbody with
  | char _ hescape => exact absurd rfl hescape
  | escape _ hbody => exact hbody

theorem skip_outside (h : ∀ c ∈ iter.head?, c ∉ ['\\', '[']) :
    Keeps unicode false iter (RegExpParser.skip iter) := by
  refine ⟨skip_suffix iter, fun _ hbody => ?_⟩
  cases hbody with
  | nil => exact .nil
  | @char _ c _ _ _ _ hbody =>
    have hc := h c rfl
    have hafter : classAfter false c = false := by
      simp only [List.mem_cons, List.not_mem_nil, or_false, not_or] at hc
      rw [classAfter, if_neg hc.2]
      split <;> rfl
    rwa [hafter] at hbody
  | escape => exact absurd (by decide) (h '\\' rfl)

theorem skip_hex (h : isHexDigit (next iter).1 = true) :
    Keeps unicode isCharClass iter (RegExpParser.skip iter) := by
  refine skip fun c hc => ?_
  obtain ⟨cs, rfl⟩ := List.head?_eq_some_iff.mp hc
  rintro hmem
  simp only [special, List.mem_cons, List.not_mem_nil, or_false] at hmem
  rw [next_fst] at h
  rcases hmem with rfl | rfl | rfl
  all_goals exact absurd h (by decide)

theorem skip_decimal (h : isDecimalDigit (next iter).1 = true) :
    Keeps unicode isCharClass iter (RegExpParser.skip iter) := skip_hex (isHexDigit_of_decimal h)

theorem skip_octal (h : isOctalDigit (next iter).1 = true) :
    Keeps unicode isCharClass iter (RegExpParser.skip iter) := skip_decimal (isDecimalDigit_of_octal h)

theorem skip_head {d : Char} (hd : d ∉ special) (h : iter.head? = some d) :
    Keeps unicode isCharClass iter (RegExpParser.skip iter) :=
  skip fun c hc => by rwa [Option.some.inj (hc.symm.trans h)]

theorem skip_peek {d : Char} (hd : d.toNat < 0x80 ∧ d ∉ special) (h : peek iter = d.toNat) :
    Keeps unicode isCharClass iter (RegExpParser.skip iter) :=
  skip_head hd.2 ((peek_eq_iff hd.1 iter).mp h)

end Keeps

/-- The first character is left behind. -/
structure Takes (unicode isCharClass : Bool) (iter rest : List Char) : Prop where
  keeps : Keeps unicode isCharClass iter rest
  suffix : rest <:+ skip iter

namespace Takes

variable {unicode isCharClass : Bool} {iter mid rest : List Char}

theorem of_skip (h : Keeps unicode isCharClass iter (RegExpParser.skip iter))
    (hrest : Keeps unicode isCharClass (RegExpParser.skip iter) rest) :
    Takes unicode isCharClass iter rest := ⟨h.trans hrest, hrest.suffix⟩

theorem skip (h : Keeps unicode isCharClass iter (RegExpParser.skip iter)) :
    Takes unicode isCharClass iter (RegExpParser.skip iter) := of_skip h .refl

theorem of_escape (h : iter.head? = some '\\')
    (hrest : Keeps unicode isCharClass (RegExpParser.skip (RegExpParser.skip iter)) rest) :
    Takes unicode isCharClass iter rest := by
  obtain ⟨iter, rfl⟩ := List.head?_eq_some_iff.mp h
  exact ⟨Keeps.escape.trans hrest, hrest.suffix.trans (Keeps.skip_suffix _)⟩

theorem trans (h : Takes unicode isCharClass iter mid) (h' : Keeps unicode isCharClass mid rest) :
    Takes unicode isCharClass iter rest := ⟨h.keeps.trans h', h'.suffix.trans h.suffix⟩

theorem length_lt (h : Takes unicode isCharClass iter rest) (hne : iter ≠ []) :
    rest.length < iter.length := by
  obtain ⟨c, iter, rfl⟩ := List.exists_cons_of_ne_nil hne
  exact Nat.lt_succ_of_le h.suffix.length_le

end Takes

/-! ## Escapes -/

section

variable {unicode isCharClass : Bool} {iter rest : List Char} {value : ℕ}

theorem keeps_parseControlEscape (h : parseControlEscape unicode iter = .ok (value, rest)) :
    Keeps unicode isCharClass iter rest := by
  unfold parseControlEscape at h
  dsimp only at h
  split_ifs at h with hletter hdigit
  · exact Keeps.refl.ok h
  · cases h
    refine .skip fun c hc => ?_
    obtain ⟨cs, rfl⟩ := List.head?_eq_some_iff.mp hc
    rintro hmem
    refine hdigit ?_
    rw [isControlLetter_peek, isDecimalDigit_peek, next_fst]
    simp only [special, List.mem_cons, List.not_mem_nil, or_false] at hmem
    rcases hmem with rfl | rfl | rfl
    all_goals decide

theorem keeps_parseLegacyOctalEscape :
    Keeps unicode isCharClass (skip iter) (parseLegacyOctalEscape iter).2 := by
  unfold parseLegacyOctalEscape
  simp only [isOctalDigit_peek]
  split
  · exact .refl
  next hsecond =>
    have hsecond : Keeps unicode isCharClass (skip iter) (skip (skip iter)) :=
      .skip_octal (by simpa using hsecond)
    split
    · exact hsecond
    next hthird =>
      split
      · exact hsecond.trans (.skip_octal (by simpa using hthird))
      · exact hsecond

theorem keeps_parseHexEscape (h : parseHexEscape iter = .ok (value, rest)) :
    Keeps unicode isCharClass iter rest := by
  unfold parseHexEscape at h
  dsimp only at h
  split_ifs at h with hfirst hsecond
  cases h
  have hfirst' : Keeps unicode isCharClass iter (skip iter) := .skip_hex (by simpa using hfirst)
  exact hfirst'.trans (.skip_hex (by simpa using hsecond))

theorem keeps_unicodeDigits {count start : ℕ} (h : unicodeDigits count start iter = .ok (value, rest)) :
    Keeps unicode isCharClass iter rest := by
  induction count generalizing start iter with
  | zero =>
    exact Keeps.refl.ok h
  | succ count ih =>
    rw [unicodeDigits] at h
    split_ifs at h with hdigit
    exact Keeps.trans (.skip_hex (by simpa using hdigit)) (ih h)

theorem keeps_bracedDigits {start : ℕ} (h : bracedDigits start iter = .ok (value, rest)) :
    Keeps unicode isCharClass iter rest := by
  induction iter generalizing start with
  | nil =>
    exact Keeps.refl.ok h
  | cons c iter ih =>
    rw [bracedDigits] at h
    dsimp only at h
    split_ifs at h with hdigit
    · exact Keeps.trans (.skip_hex (isHexDigit_peek _ ▸ hdigit)) (ih h)
    · exact Keeps.refl.ok h

theorem keeps_parseUnicodeEscape (h : parseUnicodeEscape iter = .ok (value, rest)) :
    Keeps unicode isCharClass iter rest := by
  unfold parseUnicodeEscape at h
  dsimp only at h
  split_ifs at h with hbrace hdigit
  · obtain ⟨⟨digits, mid⟩, hdigits, h⟩ := of_bind_ok h
    dsimp only at h
    split_ifs at h with hclose
    cases h
    exact ((Keeps.skip_peek (by decide) hbrace).trans (keeps_bracedDigits hdigits)).trans
      (.skip_peek (by decide) (not_not.mp hclose))
  · obtain ⟨⟨high, mid⟩, hdigits, h⟩ := of_bind_ok h
    have hmid : Keeps unicode isCharClass iter mid := keeps_unicodeDigits hdigits
    dsimp only at h
    split_ifs at h with hhigh hnext
    · obtain ⟨⟨low, behind⟩, hlow, h⟩ := of_bind_ok h
      dsimp only at h
      split_ifs at h
      · obtain ⟨-, rfl⟩ := Prod.mk.inj (Except.ok.inj h)
        obtain ⟨tail, rfl⟩ := List.head?_eq_some_iff.mp ((next_eq_iff mid).mp hnext.1)
        exact (hmid.trans .escape).trans (keeps_unicodeDigits hlow)
      · exact hmid.ok h
    · exact hmid.ok h
    · exact hmid.ok h

theorem suffix_of_skipProperty (h : skipProperty iter = .ok rest) : rest <:+ iter := by
  induction iter with
  | nil => cases h
  | cons c iter ih =>
    rw [skipProperty] at h
    split_ifs at h
    · obtain rfl := Except.ok.inj h
      exact List.suffix_cons c iter
    · exact (ih h).trans (List.suffix_cons c iter)

theorem keeps_parseUnicodePropertyEscape (h : parseUnicodePropertyEscape unicode iter = .ok rest) :
    Keeps unicode isCharClass iter rest := by
  unfold parseUnicodePropertyEscape at h
  split_ifs at h with hunicode
  · cases h
    exact .refl
  · exact .of_unicode (by simpa using hunicode) ((suffix_of_skipProperty h).trans (Keeps.skip_suffix iter))

theorem keeps_decimalDigits {start : ℕ} (h : decimalDigits start iter = .ok (value, rest)) :
    Keeps unicode isCharClass iter rest := by
  induction iter generalizing start with
  | nil =>
    exact Keeps.refl.ok h
  | cons c iter ih =>
    rw [decimalDigits] at h
    dsimp only at h
    split_ifs at h with hdigit
    · exact Keeps.trans (.skip_decimal (isDecimalDigit_peek _ ▸ hdigit)) (ih h)
    · exact Keeps.refl.ok h

theorem keeps_parseDecimalEscape {count : ℕ} (h : parseDecimalEscape unicode count iter = .ok (value, rest)) :
    Keeps unicode isCharClass (skip iter) rest := by
  have hoctal : Keeps unicode isCharClass (skip iter) (parseLegacyOctalEscape iter).2 :=
    keeps_parseLegacyOctalEscape
  unfold parseDecimalEscape at h
  dsimp only at h
  by_cases hzero : digitValue (next iter).1 = 0
  · rw [if_pos hzero] at h
    split_ifs at h
    · exact Keeps.refl.ok h
    · rwa [Except.ok.inj h] at hoctal
  · rw [if_neg hzero] at h
    obtain ⟨⟨number, mid⟩, hdigits, h⟩ := of_bind_ok h
    dsimp only at h
    split_ifs at h
    · cases h
      exact keeps_decimalDigits hdigits
    · exact Keeps.refl.ok h
    · rwa [Except.ok.inj h] at hoctal

/-! ## Classes -/

/-- A class atom that does not start with a closing bracket. -/
theorem takes_parseClassAtom {count : ℕ} (hclose : iter.head? ≠ some ']')
    (h : parseClassAtom unicode count iter = .ok (value, rest)) : Takes unicode true iter rest := by
  unfold parseClassAtom at h
  dsimp only at h
  by_cases hescape : (next iter).1 = '\\'.toNat
  · rw [if_neg (not_not.mpr hescape)] at h
    have hhead := (next_eq_iff iter).mp hescape
    refine .of_escape hhead ?_
    rcases ite_eq_iff.mp h with ⟨_, h⟩ | ⟨_, h⟩
    · exact keeps_parseDecimalEscape h
    rcases ite_eq_iff.mp h with ⟨_, h⟩ | ⟨_, h⟩
    · rcases ite_eq_iff.mp h with ⟨_, ⟨⟩⟩ | ⟨_, h⟩
      exact Keeps.refl.ok h
    rcases ite_eq_iff.mp h with ⟨_, h⟩ | ⟨_, h⟩
    · exact keeps_parseControlEscape h
    rcases ite_eq_iff.mp h with ⟨_, h⟩ | ⟨_, h⟩
    · exact keeps_parseHexEscape h
    rcases ite_eq_iff.mp h with ⟨_, h⟩ | ⟨_, h⟩
    · rcases ite_eq_iff.mp h with ⟨_, h⟩ | ⟨_, h⟩
      · exact Keeps.refl.ok h
      · exact keeps_parseUnicodeEscape h
    rcases ite_eq_iff.mp h with ⟨_, h⟩ | ⟨_, h⟩
    · rcases ite_eq_iff.mp h with ⟨_, h⟩ | ⟨_, h⟩
      · exact Keeps.refl.ok h
      · obtain ⟨mid, hproperty, h⟩ := of_bind_ok h
        cases h
        exact keeps_parseUnicodePropertyEscape hproperty
    rcases ite_eq_iff.mp h with ⟨_, h⟩ | ⟨_, h⟩
    · exact Keeps.refl.ok h
    -- a control letter, a minus, or another character
    split at h
    · cases h
      exact .refl
    · split_ifs at h <;> cases h <;> exact .refl
  · rw [if_pos hescape] at h
    cases h
    refine .skip (.skip_class fun c hc => ?_)
    simp only [List.mem_cons, List.not_mem_nil, or_false, not_or]
    refine ⟨?_, ?_⟩
    · rintro rfl
      exact hescape ((next_eq_iff iter).mpr hc)
    · rintro rfl
      exact hclose hc

/-- The end of a class: the scanner is outside again. -/
structure Closes (unicode : Bool) (iter rest : List Char) : Prop where
  suffix : rest <:+ skip iter
  body : unicode = false → BodyFrom true iter → BodyFrom false rest

theorem Closes.bracket (h : peek iter = ']'.toNat) : Closes unicode iter (skip iter) := by
  obtain ⟨iter, rfl⟩ := List.head?_eq_some_iff.mp ((peek_eq_iff (by decide) iter).mp h)
  refine ⟨List.suffix_refl _, fun _ hbody => ?_⟩
  cases hbody with
  | char _ _ _ hbody => exact hbody

theorem Closes.of_keeps {mid : List Char} (h : Keeps unicode true iter mid) (h' : Closes unicode mid rest) :
    Closes unicode iter rest := by
  refine ⟨h'.suffix.trans ?_, fun hunicode hbody => h'.body hunicode (h.body hunicode hbody)⟩
  obtain ⟨before, rfl⟩ := h.suffix
  cases before with
  | nil => exact List.suffix_refl _
  | cons c before => exact (Keeps.skip_suffix mid).trans (List.suffix_append before mid)

variable {p : RegExpParser} {count : ℕ}

theorem characterClassRound_spec {closed : Bool}
    (h : p.characterClassRound count iter = .ok (closed, rest)) :
    if closed then Closes p.unicode iter rest else Takes p.unicode true iter rest := by
  have hnot {iter : List Char} (h : ¬ peek iter = ']'.toNat) : iter.head? ≠ some ']' :=
    fun hhead => h ((peek_eq_iff (by decide) iter).mpr hhead)
  unfold characterClassRound at h
  by_cases hend : peek iter = ']'.toNat
  · rw [if_pos hend] at h
    cases h
    exact .bracket hend
  rw [if_neg hend] at h
  obtain ⟨⟨left, mid⟩, hleft, h⟩ := of_bind_ok h
  have hmid := takes_parseClassAtom (hnot hend) hleft
  dsimp only at h
  by_cases hminus : peek mid = '-'.toNat
  · rw [if_neg (not_not.mpr hminus)] at h
    have hskip : Keeps p.unicode true mid (skip mid) := .skip_peek (by decide) hminus
    by_cases hend' : peek (skip mid) = ']'.toNat
    · rw [if_pos hend'] at h
      cases h
      exact .of_keeps (hmid.keeps.trans hskip) (.bracket hend')
    rw [if_neg hend'] at h
    obtain ⟨⟨right, behind⟩, hright, h⟩ := of_bind_ok h
    have hbehind := hmid.trans (hskip.trans (takes_parseClassAtom (hnot hend') hright).keeps)
    dsimp only at h
    split_ifs at h
    all_goals
      cases h
      exact hbehind
  · rw [if_pos hminus] at h
    cases h
    exact hmid

theorem closes_characterClassLoop {n : ℕ} (h : p.characterClassLoop count n iter = .ok rest) :
    Closes p.unicode iter rest := by
  induction n generalizing iter with
  | zero => cases h
  | succ n ih =>
    rw [characterClassLoop] at h
    obtain ⟨⟨closed, mid⟩, hround, h⟩ := Outcome.bind_eq_ok.mp h
    have hspec := characterClassRound_spec (Outcome.ofExcept_eq_ok.mp hround)
    cases closed with
    | true =>
      cases h
      exact hspec
    | false => exact .of_keeps hspec.keeps (ih h)

theorem closes_parseCharacterClass {n : ℕ} (h : p.parseCharacterClass count n iter = .ok rest) :
    Closes p.unicode iter rest := by
  unfold parseCharacterClass at h
  split_ifs at h with hcaret
  · exact .of_keeps (.skip_peek (by decide) hcaret) (closes_characterClassLoop h)
  · exact closes_characterClassLoop h

/-! ## Quantifiers -/

theorem keeps_quantifierDigits (start : ℕ) (iter : List Char) :
    Keeps unicode isCharClass iter (quantifierDigits start iter).2 := by
  induction iter generalizing start with
  | nil => exact .refl
  | cons c iter ih =>
    rw [quantifierDigits]
    dsimp only
    split
    next hdigit =>
      have hskip : Keeps unicode isCharClass (c :: iter) iter :=
        .skip_decimal (isDecimalDigit_peek _ ▸ hdigit)
      split
      · exact hskip.trans (ih _)
      · exact hskip.trans (ih _)
    · exact .refl

theorem keeps_parseBracedQuantifier {found : Bool} (h : parseBracedQuantifier iter = .ok (found, rest)) :
    Keeps unicode isCharClass iter rest := by
  unfold parseBracedQuantifier at h
  by_cases hbrace : peek iter = '\x7b'.toNat
  · rw [if_neg (not_not.mpr hbrace)] at h
    dsimp only at h
    have hleft : Keeps unicode isCharClass iter (quantifierDigits 0 (skip iter)).2 :=
      (Keeps.skip_peek (by decide) hbrace).trans (keeps_quantifierDigits 0 _)
    generalize (quantifierDigits 0 (skip iter)).2 = mid at h hleft
    have hcomma : Keeps unicode isCharClass iter (if peek mid = ','.toNat then skip mid else mid) := by
      split
      next hpeek => exact hleft.trans (.skip_peek (by decide) hpeek)
      · exact hleft
    generalize (if peek mid = ','.toNat then skip mid else mid) = behind at h hcomma
    split_ifs at h with hdigit hclose hsecond hclose'
    · exact Keeps.refl.ok h
    · cases h
      exact hcomma.trans (.skip_peek (by decide) hclose)
    · cases h
      exact (hcomma.trans (keeps_quantifierDigits 0 behind)).trans (.skip_peek (by decide) hclose')
    · exact Keeps.refl.ok h
    · exact Keeps.refl.ok h
  · rw [if_pos hbrace] at h
    exact Keeps.refl.ok h

theorem keeps_skipLazy (iter : List Char) : Keeps unicode isCharClass iter (skipLazy iter) := by
  unfold skipLazy
  split
  next hpeek => exact .skip_peek (by decide) hpeek
  · exact .refl

theorem keeps_parseQuantifier (h : parseQuantifier iter = .ok rest) : Keeps unicode isCharClass iter rest := by
  unfold parseQuantifier at h
  split_ifs at h with hsign hbrace
  · cases h
    refine Keeps.trans ?_ (keeps_skipLazy _)
    rcases hsign with hsign | hsign | hsign
    all_goals exact .skip_peek (by decide) hsign
  · obtain ⟨⟨found, mid⟩, hquantifier, h⟩ := of_bind_ok h
    dsimp only at h
    have hmid : Keeps unicode isCharClass iter mid := keeps_parseBracedQuantifier hquantifier
    split_ifs at h
    · cases h
      exact hmid.trans (keeps_skipLazy mid)
    · cases h
      exact hmid
  · cases h
    exact .refl

theorem keeps_quantified {s s' : State} (h : quantified s = .ok s') :
    Keeps unicode isCharClass s.iter s'.iter := by
  obtain ⟨mid, hquantifier, h⟩ := Outcome.bind_eq_ok.mp h
  cases h
  exact keeps_parseQuantifier (Outcome.ofExcept_eq_ok.mp hquantifier)

/-! ## Names -/

end

/-- What the parser relies on: neither a bracket nor what stands for the end is part of a name. -/
structure Library (p : RegExpParser) : Prop where
  start : ∀ c ∈ ['[', ']'], p.isIDStart c.toNat = false
  part : ∀ c ∈ ['[', ']'], p.isIDPart c.toNat = false
  noncharacter : p.isIDPart 0xFFFF = false

section

variable {p : RegExpParser} {isCharClass : Bool} {iter rest : List Char} {n cp : ℕ}

theorem Library.isIdStart (hp : p.Library) : ∀ c ∈ ['[', ']'], p.isIdStart c.toNat = false := by
  intro c hc
  have hstart := hp.start c hc
  simp only [List.mem_cons, List.not_mem_nil, or_false] at hc
  rcases hc with rfl | rfl
  all_goals
    rw [RegExpParser.isIdStart, decide_eq_false_iff_not]
    exact not_or.mpr ⟨(Bool.not_eq_true _).mpr hstart, by decide⟩

theorem Library.isIdCont (hp : p.Library) : ∀ c ∈ ['[', ']'], p.isIdCont c.toNat = false := by
  intro c hc
  have hpart := hp.part c hc
  simp only [List.mem_cons, List.not_mem_nil, or_false] at hc
  rcases hc with rfl | rfl
  all_goals
    rw [RegExpParser.isIdCont, decide_eq_false_iff_not]
    exact not_or.mpr ⟨(Bool.not_eq_true _).mpr hpart, by decide⟩

theorem takes_parseIdentCp (h : p.parseIdentCp iter = .ok (cp, rest)) (hcp : ∀ c ∈ ['[', ']'], cp ≠ c.toNat) :
    Takes p.unicode isCharClass iter rest := by
  unfold parseIdentCp at h
  dsimp only at h
  by_cases hescape : (next iter).1 = '\\'.toNat
  · rw [if_pos hescape] at h
    split_ifs at h
    exact .of_escape ((next_eq_iff iter).mp hescape) (keeps_parseUnicodeEscape h)
  · rw [if_neg hescape] at h
    cases h
    refine .skip (.skip fun c hc hmem => ?_)
    simp only [special, List.mem_cons, List.not_mem_nil, or_false] at hmem
    rcases hmem with rfl | rfl | rfl
    · exact hescape ((next_eq_iff iter).mpr hc)
    · exact hcp '[' (by decide) ((next_eq_iff iter).mpr hc)
    · exact hcp ']' (by decide) ((next_eq_iff iter).mpr hc)

theorem Library.ne_bracket (hp : p.Library) (h : p.isIdCont cp = true) : ∀ c ∈ ['[', ']'], cp ≠ c.toNat := by
  rintro c hc rfl
  simp [hp.isIdCont c hc] at h

theorem keeps_identLoop (hp : p.Library) {ident name : List UInt8}
    (h : p.identLoop n ident iter = .ok (name, rest)) : Keeps p.unicode isCharClass iter rest := by
  induction n generalizing ident iter with
  | zero => cases h
  | succ n ih =>
    rw [identLoop] at h
    by_cases hend : (next iter).1 = '>'.toNat
    · rw [if_pos hend] at h
      cases h
      exact .skip_head (by decide) ((next_eq_iff iter).mp hend)
    rw [if_neg hend] at h
    obtain ⟨⟨cp, mid⟩, hcp, h⟩ := Outcome.bind_eq_ok.mp h
    dsimp only at h
    split_ifs at h with hcont
    have hne := hp.ne_bracket (by simpa using hcont)
    exact (takes_parseIdentCp (Outcome.ofExcept_eq_ok.mp hcp) hne).keeps.trans (ih h)

theorem keeps_parseIdent (hp : p.Library) {name : List UInt8} (h : p.parseIdent n iter = .ok (name, rest)) :
    Keeps p.unicode isCharClass iter rest := by
  obtain ⟨⟨cp, mid⟩, hcp, h⟩ := Outcome.bind_eq_ok.mp h
  dsimp only at h
  split_ifs at h with hstart
  have hne : ∀ c ∈ ['[', ']'], cp ≠ c.toNat := by
    rintro c hc rfl
    exact hstart (hp.isIdStart c hc)
  exact (takes_parseIdentCp (Outcome.ofExcept_eq_ok.mp hcp) hne).keeps.trans (keeps_identLoop hp h)

/-! ## Atoms -/

variable {s s' : State}

theorem keeps_parseNamedBackreference (hp : p.Library) (h : p.parseNamedBackreference n s = .ok s') :
    Keeps p.unicode isCharClass s.iter s'.iter := by
  unfold parseNamedBackreference at h
  split_ifs at h with hnames hless
  · cases h
    exact .refl
  · obtain ⟨⟨name, mid⟩, hname, h⟩ := Outcome.bind_eq_ok.mp h
    dsimp only at h
    split_ifs at h
    cases h
    have hhead := (next_eq_iff s.iter).mp (not_not.mp hless)
    exact (Keeps.skip_head (by decide) hhead).trans (keeps_parseIdent hp hname)

/-- From behind the character behind the backslash on. -/
theorem keeps_parseAtomEscape (hp : p.Library) (h : p.parseAtomEscape n s = .ok s') :
    Keeps p.unicode isCharClass (skip s.iter) s'.iter := by
  unfold parseAtomEscape at h
  dsimp only at h
  rcases ite_eq_iff.mp h with ⟨_, h⟩ | ⟨_, h⟩
  · obtain ⟨⟨value, mid⟩, hdecimal, h⟩ := Outcome.bind_eq_ok.mp h
    cases h
    exact keeps_parseDecimalEscape (Outcome.ofExcept_eq_ok.mp hdecimal)
  rcases ite_eq_iff.mp h with ⟨_, h⟩ | ⟨_, h⟩
  · obtain ⟨⟨value, mid⟩, hhex, h⟩ := Outcome.bind_eq_ok.mp h
    cases h
    exact keeps_parseHexEscape (Outcome.ofExcept_eq_ok.mp hhex)
  rcases ite_eq_iff.mp h with ⟨_, h⟩ | ⟨_, h⟩
  · obtain ⟨⟨value, mid⟩, hunicode, h⟩ := Outcome.bind_eq_ok.mp h
    cases h
    exact keeps_parseUnicodeEscape (Outcome.ofExcept_eq_ok.mp hunicode)
  rcases ite_eq_iff.mp h with ⟨_, h⟩ | ⟨_, h⟩
  · exact keeps_parseNamedBackreference hp h
  rcases ite_eq_iff.mp h with ⟨_, h⟩ | ⟨_, h⟩
  · cases h
    exact .refl
  rcases ite_eq_iff.mp h with ⟨_, h⟩ | ⟨_, h⟩
  · obtain ⟨mid, hproperty, h⟩ := Outcome.bind_eq_ok.mp h
    cases h
    exact keeps_parseUnicodePropertyEscape (Outcome.ofExcept_eq_ok.mp hproperty)
  rcases ite_eq_iff.mp h with ⟨_, h⟩ | ⟨_, h⟩
  · rcases ite_eq_iff.mp h with ⟨_, ⟨⟩⟩ | ⟨hletter, ⟨⟩⟩
    refine .skip fun c hc hmem => hletter ?_
    obtain ⟨cs, hcs⟩ := List.head?_eq_some_iff.mp hc
    rw [isControlLetter_peek, State.skip_iter, hcs, next_fst]
    simp only [special, List.mem_cons, List.not_mem_nil, or_false] at hmem
    rcases hmem with rfl | rfl | rfl
    all_goals decide
  · rcases ite_eq_iff.mp h with ⟨_, ⟨⟩⟩ | ⟨_, ⟨⟩⟩
    exact .refl

theorem eq_of_parseBracedQuantifier (h : parseBracedQuantifier iter = .ok (false, rest)) : rest = iter := by
  grind [parseBracedQuantifier]

/-! ## Alternatives -/

theorem keeps_escapeTerm (hp : p.Library) (h : p.escapeTerm n s = .ok s') :
    Keeps p.unicode isCharClass (skip s.iter) s'.iter := by
  unfold escapeTerm at h
  split_ifs at h
  · cases h
    exact .refl
  · obtain ⟨mid, hatom, h⟩ := Outcome.bind_eq_ok.mp h
    exact (keeps_parseAtomEscape hp hatom).trans (keeps_quantified h)

theorem keeps_openGroup (hp : p.Library) {move : Move} (h : p.openGroup n s = .ok move) :
    Keeps p.unicode isCharClass s.iter move.state.iter := by
  have hnext {d : Char} (hd : d ∉ special) {iter : List Char} (h : (next iter).1 = d.toNat) :
      Keeps p.unicode isCharClass iter (skip iter) := .skip_head hd ((next_eq_iff iter).mp h)
  unfold openGroup at h
  by_cases hquestion : peek s.iter = '?'.toNat
  · have hskip : Keeps p.unicode isCharClass s.iter (skip s.iter) := .skip_peek (by decide) hquestion
    rw [if_neg (not_not.mpr hquestion)] at h
    dsimp only at h
    split_ifs at h with hcolon hassert hless hbehind
    · cases h
      exact hskip.trans (hnext (by decide) hcolon)
    · cases h
      rcases hassert with hassert | hassert
      · exact hskip.trans (hnext (by decide) hassert)
      · exact hskip.trans (hnext (by decide) hassert)
    · cases h
      have hless' := hskip.trans (hnext (by decide) (not_not.mp hless))
      rcases hbehind with hbehind | hbehind
      · exact hless'.trans (.skip_peek (by decide) hbehind)
      · exact hless'.trans (.skip_peek (by decide) hbehind)
    · have hless' := hskip.trans (hnext (by decide) (not_not.mp hless))
      obtain ⟨⟨name, mid⟩, hname, h⟩ := Outcome.bind_eq_ok.mp h
      dsimp only at h
      split_ifs at h
      cases h
      exact hless'.trans (keeps_parseIdent hp hname)
  · rw [if_pos hquestion] at h
    cases h
    exact .refl

theorem takes_characterTerm (h : p.characterTerm s = .ok s') (hescape : peek s.iter ≠ '\\'.toNat)
    (hopen : peek s.iter ≠ '['.toNat) : Takes p.unicode false s.iter s'.iter := by
  obtain ⟨⟨found, mid⟩, hquantifier, h⟩ := Outcome.bind_eq_ok.mp h
  dsimp only at h
  split_ifs at h with hfound hcharacter
  obtain rfl := eq_of_parseBracedQuantifier (by simpa [hfound] using Outcome.ofExcept_eq_ok.mp hquantifier)
  have hskip : (p.parsePatternCharacter s.iter).2 = skip s.iter := by
    unfold parsePatternCharacter at hcharacter ⊢
    split_ifs at hcharacter ⊢
    · exact absurd rfl hcharacter
    · rfl
  rw [hskip] at h
  refine .of_skip (.skip_outside fun c hc hmem => ?_) (keeps_quantified h)
  simp only [List.mem_cons, List.not_mem_nil, or_false] at hmem
  rcases hmem with rfl | rfl
  · exact hescape ((peek_eq_iff (by decide) s.iter).mpr hc)
  · exact hopen ((peek_eq_iff (by decide) s.iter).mpr hc)

/-- What `ParseAlternative` takes before it calls itself. -/
theorem takes_alternative (hp : p.Library) {move : Move} (h : p.alternative n s = .ok move) :
    Takes p.unicode false s.iter move.state.iter := by
  have hterm {a : Outcome State} {move : Move} (h : a.bind term = .ok move) :
      ∃ s', a = .ok s' ∧ move.state = s' := by
    obtain ⟨s', ha, h⟩ := Outcome.bind_eq_ok.mp h
    cases h
    exact ⟨s', ha, rfl⟩
  unfold alternative at h
  dsimp only at h
  split_ifs at h with hescape hassertion hparen hclass hdot
  · obtain ⟨s', hs', hmove⟩ := hterm h
    rw [hmove]
    exact .of_escape ((peek_eq_iff (by decide) s.iter).mp hescape) (keeps_escapeTerm hp hs')
  · cases h
    rcases hassertion with hpeek | hpeek
    · exact .skip (.skip_peek (by decide) hpeek)
    · exact .skip (.skip_peek (by decide) hpeek)
  · exact .of_skip (.skip_peek (by decide) hparen) (keeps_openGroup hp h)
  · obtain ⟨s', hs', hmove⟩ := hterm h
    rw [hmove]
    obtain ⟨mid, hmid, h⟩ := Outcome.bind_eq_ok.mp hs'
    have hcloses := closes_parseCharacterClass hmid
    have hquantified : Keeps p.unicode false mid s'.iter := keeps_quantified h
    have hhead := (peek_eq_iff (by decide) s.iter).mp hclass
    have hsuffix := hquantified.suffix.trans (hcloses.suffix.trans (Keeps.skip_suffix _))
    refine ⟨⟨hsuffix.trans (Keeps.skip_suffix _), fun hunicode hbody => ?_⟩, hsuffix⟩
    refine hquantified.body hunicode (hcloses.body hunicode ?_)
    obtain ⟨iter, hiter⟩ := List.head?_eq_some_iff.mp hhead
    rw [State.skip_iter, hiter]
    rw [hiter] at hbody
    cases hbody with
    | char _ _ _ hbody => exact hbody
  · obtain ⟨s', hs', hmove⟩ := hterm h
    rw [hmove]
    exact .of_skip (.skip_peek (by decide) hdot) (keeps_quantified hs')
  · obtain ⟨s', hs', hmove⟩ := hterm h
    rw [hmove]
    exact takes_characterTerm hs' hescape hclass

end

end ArkTs2abc.Es2panda.RegExpParser
