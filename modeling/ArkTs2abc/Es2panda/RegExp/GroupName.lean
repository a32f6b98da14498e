import ArkTs2abc.Es2panda.RegExp.ClassRange

/-!
# Names of groups

A name is a sequence of code points, spelled by characters and escapes. The parser makes another
code point of the escapes for a pair, and hands sixteen bits of a code point to the library.

## Main definitions

* `RegExpParser.NameCharacter`, `RegExpParser.NameText` — the spellings of a name.
* `RegExpParser.IsName`, `RegExpParser.ReadsName` — the names, and those of the parser.
* `RegExpParser.NamesRight` — the parser accepts and tells apart two names as it should.

## Main results

* `RegExpParser.exists_parseIdent_iff` — the names that the parser reads, and what it keeps of them.
* `RegExpParser.namesRight_iff` — where it is right.
-/

namespace ArkTs2abc.Es2panda.RegExpParser

open Unicode
open Lexer (isHexDigit)

/-! ## Spellings -/

/-- A code point of a name, by its spelling. -/
inductive NameCharacter where
  | literal (c : Char)
  | unit (ds : List Char)
  /-- The escapes for both surrogates of a pair. -/
  | pair (high low : List Char)
  /-- `\u` with digits in braces. -/
  | braced (ds : List Char)
  deriving DecidableEq, Repr

namespace NameCharacter

def text : NameCharacter → List Char
  | literal c => [c]
  | unit ds => '\\' :: 'u' :: ds
  | pair high low => '\\' :: 'u' :: (high ++ '\\' :: 'u' :: low)
  | braced ds => '\\' :: 'u' :: '\x7b' :: (ds ++ ['\x7d'])

/-- A text before another is a spelling. Braces are for Unicode mode. -/
def Spelled (unicode : Bool) (behind : List Char) : NameCharacter → Prop
  | literal c => c ≠ '\\' ∧ c ≠ '>'
  | unit ds => UnitText ds ∧
      (IsHighSurrogate (hexNumber ds) → ¬ ∃ low rest, LowEscape behind low rest)
  | pair high low => UnitText high ∧ UnitText low ∧
      IsHighSurrogate (hexNumber high) ∧ IsLowSurrogate (hexNumber low)
  | braced ds => unicode = true ∧ ds ≠ [] ∧ (∀ c ∈ ds, isHexDigit c.toNat = true) ∧ hexNumber ds ≤ 0x10FFFF

/-- What a spelling stands for. -/
def codePoint : NameCharacter → ℕ
  | literal c => c.toNat
  | unit ds => hexNumber ds
  | pair high low => ofPair (hexNumber high) (hexNumber low)
  | braced ds => hexNumber ds

/-- What the parser makes of it. -/
def read : NameCharacter → ℕ
  | literal c => c.toNat
  | unit ds => hexNumber ds
  | pair high low => shortPair (hexNumber high) (hexNumber low)
  | braced ds => hexNumber ds

theorem read_lt {unicode : Bool} {behind : List Char} {e : NameCharacter} (h : e.Spelled unicode behind) :
    e.read < 0x110000 := by
  cases e with
  | literal c =>
    rw [read]
    exact (toNat_char_lt c).1
  | unit ds =>
    have hlt := foldl_pushHex_lt 0 h.1.digits
    rw [h.1.length] at hlt
    exact hlt.trans (by decide)
  | pair high low => exact Nat.lt_of_le_of_lt (Nat.sub_le _ _) (ofPair_lt h.2.2.1 h.2.2.2).2
  | braced ds => exact Nat.lt_of_le_of_lt h.2.2.2 (by decide)

end NameCharacter

/-- A name with the sign that ends it, and what is behind. -/
inductive NameText (unicode : Bool) : List NameCharacter → List Char → List Char → Prop where
  | nil (rest : List Char) : NameText unicode [] ('>' :: rest) rest
  | cons {e : NameCharacter} {es : List NameCharacter} {iter rest : List Char}
      (he : e.Spelled unicode iter) (h : NameText unicode es iter rest) :
      NameText unicode (e :: es) (e.text ++ iter) rest

/-! ## A text has one spelling -/

theorem hexDigits_append_inj {ds es iter iter' : List Char} (hds : ∀ c ∈ ds, isHexDigit c.toNat = true)
    (hes : ∀ c ∈ es, isHexDigit c.toNat = true) (h : ds ++ '\x7d' :: iter = es ++ '\x7d' :: iter') :
    ds = es ∧ iter = iter' := by
  have hbrace : isHexDigit '\x7d'.toNat = false := by decide
  induction ds generalizing es with
  | nil =>
    cases es with
    | nil => exact ⟨rfl, (List.cons.inj h).2⟩
    | cons d es =>
      have hd := hes d List.mem_cons_self
      rw [← (List.cons.inj h).1, hbrace] at hd
      cases hd
  | cons c ds ih =>
    obtain ⟨hc, hds⟩ := List.forall_mem_cons.mp hds
    cases es with
    | nil =>
      rw [(List.cons.inj h).1, hbrace] at hc
      cases hc
    | cons d es =>
      obtain ⟨rfl, htail⟩ := List.cons.inj h
      obtain ⟨rfl, hiter⟩ := ih hds (List.forall_mem_cons.mp hes).2 htail
      exact ⟨rfl, hiter⟩

theorem UnitText.append_ne {ds : List Char} (hds : UnitText ds) (iter iter' : List Char) :
    ds ++ iter ≠ '\x7b' :: iter' := by
  intro h
  obtain ⟨c, ds', rfl, hc⟩ := hds.cons
  rw [(List.cons.inj h).1] at hc
  exact absurd hc (by decide)

namespace NameCharacter

variable {unicode : Bool} {e e' : NameCharacter} {iter iter' : List Char}

theorem text_pair_append (high low : List Char) (iter : List Char) :
    (pair high low).text ++ iter = '\\' :: 'u' :: (high ++ '\\' :: 'u' :: (low ++ iter)) := by
  simp [text]

theorem text_braced_append (ds iter : List Char) :
    (braced ds).text ++ iter = '\\' :: 'u' :: '\x7b' :: (ds ++ '\x7d' :: iter) := by
  simp [text]

theorem unit_ne_pair {ds high low : List Char} (h : (unit ds).Spelled unicode iter)
    (h' : (pair high low).Spelled unicode iter') : ds ++ iter ≠ high ++ '\\' :: 'u' :: (low ++ iter') := by
  intro htext
  obtain ⟨rfl, rfl⟩ := hexNumber_inj h.1 h'.1 htext
  exact h.2 h'.2.2.1 ⟨_, _, .intro h'.2.1 h'.2.2.2⟩

theorem spelled_unique (h : e.Spelled unicode iter) (h' : e'.Spelled unicode iter')
    (htext : e.text ++ iter = e'.text ++ iter') : e = e' ∧ iter = iter' := by
  -- behind the backslash and the letter of an escape
  have hescape {tail tail' : List Char} (h : '\\' :: 'u' :: tail = '\\' :: 'u' :: tail') : tail = tail' :=
    (List.cons.inj (List.cons.inj h).2).2
  cases e with
  | literal c =>
    cases e' with
    | literal c' =>
      cases htext
      exact ⟨rfl, rfl⟩
    | _ => exact absurd (List.cons.inj htext).1 h.1
  | unit ds =>
    cases e' with
    | literal c' => exact absurd (List.cons.inj htext).1.symm h'.1
    | unit ds' =>
      obtain ⟨rfl, rfl⟩ := hexNumber_inj h.1 h'.1 (hescape htext)
      exact ⟨rfl, rfl⟩
    | pair high low =>
      rw [text_pair_append] at htext
      exact absurd (hescape htext) (unit_ne_pair h h')
    | braced ds' =>
      rw [text_braced_append] at htext
      exact absurd (hescape htext) (h.1.append_ne _ _)
  | pair high low =>
    rw [text_pair_append] at htext
    cases e' with
    | literal c' => exact absurd (List.cons.inj htext).1.symm h'.1
    | unit ds' => exact absurd (hescape htext).symm (unit_ne_pair h' h)
    | pair high' low' =>
      rw [text_pair_append] at htext
      obtain ⟨rfl, htail⟩ := hexNumber_inj h.1 h'.1 (hescape htext)
      obtain ⟨rfl, rfl⟩ := hexNumber_inj h.2.1 h'.2.1 (hescape htail)
      exact ⟨rfl, rfl⟩
    | braced ds' =>
      rw [text_braced_append] at htext
      exact absurd (hescape htext) (h.1.append_ne _ _)
  | braced ds =>
    rw [text_braced_append] at htext
    cases e' with
    | literal c' => exact absurd (List.cons.inj htext).1.symm h'.1
    | unit ds' => exact absurd (hescape htext).symm (h'.1.append_ne _ _)
    | pair high low =>
      rw [text_pair_append] at htext
      exact absurd (hescape htext).symm (h'.1.append_ne _ _)
    | braced ds' =>
      rw [text_braced_append] at htext
      obtain ⟨rfl, rfl⟩ := hexDigits_append_inj h.2.2.1 h'.2.2.1 (List.cons.inj (hescape htext)).2
      exact ⟨rfl, rfl⟩

theorem Spelled.ne_close (h : e.Spelled unicode iter) (rest : List Char) : e.text ++ iter ≠ '>' :: rest := by
  intro htext
  cases e with
  | literal c => exact h.2 (List.cons.inj htext).1
  | _ => exact absurd (List.cons.inj htext).1 (by decide)

end NameCharacter

theorem NameText.unique {unicode : Bool} {es es' : List NameCharacter} {text rest rest' : List Char}
    (h : NameText unicode es text rest) (h' : NameText unicode es' text rest') : es = es' ∧ rest = rest' := by
  induction h generalizing es' with
  | nil rest =>
    generalize htext : '>' :: rest = text at h'
    cases h' with
    | nil => exact ⟨rfl, (List.cons.inj htext).2⟩
    | cons he => exact absurd htext.symm (he.ne_close rest)
  | @cons e es iter rest he h ih =>
    generalize htext : e.text ++ iter = text at h'
    cases h' with
    | nil => exact absurd htext (he.ne_close _)
    | cons he' h' =>
      obtain ⟨rfl, rfl⟩ := NameCharacter.spelled_unique he he' htext
      obtain ⟨rfl, rfl⟩ := ih h'
      exact ⟨rfl, rfl⟩

/-! ## The parser on a character -/

theorem digits_of_bracedDigits {value value' : ℕ} {iter rest : List Char}
    (h : bracedDigits value iter = .ok (value', rest)) (hmax : value ≤ 0x10FFFF) :
    ∃ ds, iter = ds ++ rest ∧ (∀ c ∈ ds, isHexDigit c.toNat = true) ∧ value' = ds.foldl pushHex value ∧
      value' ≤ 0x10FFFF ∧ isHexDigit (next rest).1 = false := by
  induction iter generalizing value with
  | nil =>
    cases h
    exact ⟨[], rfl, by simp, rfl, hmax, by decide⟩
  | cons c iter ih =>
    rw [bracedDigits, isHexDigit_peek, next_fst] at h
    cases hc : isHexDigit c.toNat with
    | false =>
      rw [hc, if_neg (by decide)] at h
      cases h
      exact ⟨[], rfl, by simp, rfl, hmax, hc⟩
    | true =>
      rw [hc, if_pos rfl] at h
      dsimp only at h
      split_ifs at h with hle
      obtain ⟨ds, rfl, hds, hvalue, hrest⟩ := ih h (Nat.le_of_not_lt hle)
      exact ⟨c :: ds, rfl, List.forall_mem_cons.mpr ⟨hc, hds⟩, hvalue, hrest⟩

theorem braced_of_parseUnicodeEscape {cp : ℕ} {iter rest : List Char}
    (h : parseUnicodeEscape ('\x7b' :: iter) = .ok (cp, rest)) :
    ∃ ds, iter = ds ++ '\x7d' :: rest ∧ ds ≠ [] ∧ (∀ c ∈ ds, isHexDigit c.toNat = true) ∧
      cp = hexNumber ds ∧ cp ≤ 0x10FFFF := by
  rw [parseUnicodeEscape, if_pos (peek_ascii (by decide) iter), skip_cons] at h
  dsimp only at h
  split_ifs at h with hfirst
  rw [isHexDigit_peek] at hfirst
  obtain ⟨⟨value, mid⟩, hdigits, h⟩ := of_bind_ok h
  dsimp only at h
  split_ifs at h with hclose
  cases h
  obtain ⟨ds, rfl, hds, hvalue, hmax, -⟩ := digits_of_bracedDigits hdigits (by decide)
  obtain ⟨rest, rfl⟩ := List.head?_eq_some_iff.mp ((peek_eq_iff (by decide) mid).mp (not_not.mp hclose))
  refine ⟨ds, rfl, ?_, hds, hvalue, hmax⟩
  rintro rfl
  exact hfirst (by rw [List.nil_append, next_fst]; decide)

section

variable {p : RegExpParser} {e : NameCharacter} {iter rest : List Char} {cp : ℕ}

theorem parseIdentCp_of_spelled (h : e.Spelled p.unicode iter) (hhigh : ¬ IsHighSurrogate e.read) :
    p.parseIdentCp (e.text ++ iter) = .ok (e.read, iter) := by
  cases e with
  | literal c => exact if_neg fun hbackslash => h.1 (Char.toNat_inj.mp hbackslash)
  | unit ds =>
    have htext : (NameCharacter.unit ds).text ++ iter = '\\' :: 'u' :: (ds ++ iter) := rfl
    rw [htext, parseIdentCp_unicode (h.1.peek_ne (by decide) iter),
      parseUnicodeEscape_single h.1 fun hboth => hhigh hboth.1]
    rfl
  | pair high low =>
    rw [NameCharacter.text_pair_append, parseIdentCp_unicode (h.1.peek_ne (by decide) _),
      parseUnicodeEscape_unit h.1 h.2.2.1 h.2.1, if_pos h.2.2.2, decodeSurrogates_eq h.2.2.1 h.2.2.2]
    rfl
  | braced ds =>
    obtain ⟨hunicode, hne, hds, hmax⟩ := h
    have hbraces : parseUnicodeEscape ('\x7b' :: (ds ++ '\x7d' :: iter)) = .ok (hexNumber ds, iter) :=
      parseUnicodeEscape_braced hne hds hmax iter
    have hmode : ¬ (p.unicode = false ∧ peek ('\x7b' :: (ds ++ '\x7d' :: iter)) = '\x7b'.toNat) := by
      simp [hunicode]
    rw [NameCharacter.text_braced_append, parseIdentCp, next_fst, skip_cons]
    exact (if_neg hmode).trans hbraces

/-- Whatever the parser reads is a spelling. -/
theorem spelled_of_parseIdentCp (h : p.parseIdentCp iter = .ok (cp, rest)) (hnil : iter ≠ [])
    (hclose : iter.head? ≠ some '>') : ∃ e : NameCharacter, e.Spelled p.unicode rest ∧
      iter = e.text ++ rest ∧ e.read = cp := by
  obtain ⟨c, iter, rfl⟩ := List.exists_cons_of_ne_nil hnil
  rw [parseIdentCp, next_fst, skip_cons] at h
  dsimp only at h
  by_cases hbackslash : c.toNat = '\\'.toNat
  · obtain rfl := Char.toNat_inj.mp hbackslash
    rw [if_pos rfl] at h
    by_cases hletter : (next iter).1 = 'u'.toNat
    · obtain ⟨iter, rfl⟩ := List.head?_eq_some_iff.mp ((next_eq_iff iter).mp hletter)
      rw [if_neg (not_not.mpr hletter), skip_cons] at h
      split_ifs at h with hmode
      by_cases hbrace : peek iter = '\x7b'.toNat
      · obtain ⟨iter, rfl⟩ := List.head?_eq_some_iff.mp ((peek_eq_iff (by decide) iter).mp hbrace)
        obtain ⟨ds, rfl, hne, hds, hcp, hmax⟩ := braced_of_parseUnicodeEscape h
        have hunicode : p.unicode = true := by
          cases hunicode : p.unicode with
          | true => rfl
          | false => exact absurd ⟨hunicode, hbrace⟩ hmode
        exact ⟨.braced ds, ⟨hunicode, hne, hds, hcp ▸ hmax⟩, (NameCharacter.text_braced_append ds rest).symm, hcp.symm⟩
      · have hparse := h
        rw [parseUnicodeEscape, if_neg hbrace] at hparse
        obtain ⟨⟨value, mid⟩, hdigits, -⟩ := of_bind_ok hparse
        obtain ⟨ds, rfl, hlength, hds⟩ := digits_of_unicodeDigits hdigits
        have hunit : UnitText ds := ⟨hlength, hds⟩
        by_cases hhigh : IsHighSurrogate (hexNumber ds)
        · rcases parseUnicodeEscape_cases hunit hhigh mid with
            ⟨low, behind, hescape, hok⟩ | ⟨hnone, -, hok⟩ | ⟨-, message, herror⟩
          · rw [h] at hok
            obtain ⟨hcp, hrest⟩ := Prod.mk.inj (Except.ok.inj hok)
            subst hrest
            cases hescape with
            | @intro low _ hlow hislow =>
              have hread : (NameCharacter.pair ds low).read = cp := by
                rw [NameCharacter.read, hcp, decodeSurrogates_eq hhigh hislow]
              have htext := (NameCharacter.text_pair_append ds low rest).symm
              exact ⟨.pair ds low, ⟨hunit, hlow, hhigh, hislow⟩, htext, hread⟩
          · rw [h] at hok
            cases hok
            exact ⟨.unit ds, ⟨hunit, fun _ => hnone⟩, rfl, rfl⟩
          · rw [h] at herror
            cases herror
        · rw [parseUnicodeEscape_single hunit fun hboth => hhigh hboth.1] at h
          cases h
          exact ⟨.unit ds, ⟨hunit, fun hboth => absurd hboth hhigh⟩, rfl, rfl⟩
    · rw [if_pos hletter] at h
      cases h
  · rw [if_neg hbackslash] at h
    cases h
    refine ⟨.literal c, ⟨?_, ?_⟩, rfl, rfl⟩
    · rintro rfl
      exact hbackslash rfl
    · rintro rfl
      exact hclose rfl

end

/-! ## The parser on a name -/

/-- What the parser relies on in the Unicode library, whose two properties are `ID_Start` and `ID_Continue`. -/
structure IdLibrary (p : RegExpParser) : Prop where
  surrogates : ∀ cp, IsSurrogate cp → p.isIDStart cp = false ∧ p.isIDPart cp = false
  noncharacter : p.isIDStart 0xFFFF = false ∧ p.isIDPart 0xFFFF = false
  close : p.isIDStart '>'.toNat = false
  underscore : p.isIDPart '_'.toNat = true

section

variable (p : RegExpParser)

/-- The names that the parser takes for names: each character passes its test as it is read. -/
def ReadsName : List NameCharacter → Prop
  | [] => False
  | e :: es => p.isIdStart e.read = true ∧ ∀ e ∈ es, p.isIdCont e.read = true

def StartsName (cp : ℕ) : Prop := p.isIDStart cp = true ∨ cp = '$'.toNat ∨ cp = '_'.toNat

def ContinuesName (cp : ℕ) : Prop :=
  p.isIDPart cp = true ∨ cp = '$'.toNat ∨ cp = '_'.toNat ∨ cp = Lexer.LEX_CHAR_ZWNJ ∨ cp = Lexer.LEX_CHAR_ZWJ

/-- The names. -/
def IsName : List NameCharacter → Prop
  | [] => False
  | e :: es => p.StartsName e.codePoint ∧ ∀ e ∈ es, p.ContinuesName e.codePoint

end

/-- What the parser keeps of a name. -/
def keptName (es : List NameCharacter) : List UInt8 := (es.map NameCharacter.read).flatMap utf8Encode

section

variable {p : RegExpParser}

theorem uchar_surrogate {cp : ℕ} (h : IsSurrogate cp) : Lexer.uchar cp = cp :=
  Nat.mod_eq_of_lt (h.2.trans (by decide))

section

variable (hp : p.IdLibrary)
include hp

theorem IdLibrary.isIdStart_surrogate {cp : ℕ} (h : IsSurrogate cp) : p.isIdStart cp = false := by
  obtain ⟨hlow, hhigh⟩ := h
  have hlib := (hp.surrogates cp ⟨hlow, hhigh⟩).1
  rw [isIdStart, uchar_surrogate ⟨hlow, hhigh⟩, hlib, decide_eq_false_iff_not]
  have hdollar : '$'.toNat = 36 := rfl
  have hunderscore : '_'.toNat = 95 := rfl
  simp only [Bool.false_eq_true, false_or]
  omega

theorem IdLibrary.isIdCont_surrogate {cp : ℕ} (h : IsSurrogate cp) : p.isIdCont cp = false := by
  obtain ⟨hlow, hhigh⟩ := h
  have hlib := (hp.surrogates cp ⟨hlow, hhigh⟩).2
  rw [isIdCont, uchar_surrogate ⟨hlow, hhigh⟩, hlib, decide_eq_false_iff_not]
  have hdollar : '$'.toNat = 36 := rfl
  simp only [Bool.false_eq_true, false_or, Lexer.LEX_CHAR_ZWNJ, Lexer.LEX_CHAR_ZWJ]
  omega

theorem IdLibrary.not_high {cp : ℕ} (h : p.isIdStart cp = true ∨ p.isIdCont cp = true) :
    ¬ IsHighSurrogate cp := by
  intro hhigh
  have hsurrogate : IsSurrogate cp := ⟨hhigh.1, hhigh.2.trans (by decide)⟩
  rcases h with h | h
  · rw [hp.isIdStart_surrogate hsurrogate] at h
    cases h
  · rw [hp.isIdCont_surrogate hsurrogate] at h
    cases h

theorem IdLibrary.isIdCont_end : p.isIdCont INVALID_CP = false := by
  have huchar : Lexer.uchar INVALID_CP = 0xFFFF := by decide
  rw [isIdCont, huchar, hp.noncharacter.2]
  decide

theorem IdLibrary.isIdStart_end : p.isIdStart INVALID_CP = false := by
  have huchar : Lexer.uchar INVALID_CP = 0xFFFF := by decide
  rw [isIdStart, huchar, hp.noncharacter.1]
  decide

theorem IdLibrary.isIdStart_close : p.isIdStart '>'.toNat = false := by
  have huchar : Lexer.uchar '>'.toNat = '>'.toNat := by decide
  rw [isIdStart, huchar, hp.close]
  decide

end

theorem parseIdentCp_nil : p.parseIdentCp [] = .ok (INVALID_CP, []) := rfl

theorem parseIdentCp_close (iter : List Char) : p.parseIdentCp ('>' :: iter) = .ok ('>'.toNat, iter) := rfl

theorem identLoop_of_text (hp : p.IdLibrary) {es : List NameCharacter} {iter rest : List Char}
    (h : NameText p.unicode es iter rest) (hes : ∀ e ∈ es, p.isIdCont e.read = true) (ident : List UInt8) :
    ∃ n, p.identLoop n ident iter = .ok (ident ++ keptName es, rest) := by
  induction h generalizing ident with
  | nil rest => exact ⟨1, by rw [identLoop, next_fst, if_pos rfl]; simp [keptName]⟩
  | @cons e es iter rest he h ih =>
    obtain ⟨hcont, hes⟩ := List.forall_mem_cons.mp hes
    obtain ⟨n, hn⟩ := ih hes (ident ++ utf8Encode e.read)
    have hne : (next (e.text ++ iter)).1 ≠ '>'.toNat := by
      intro hclose
      obtain ⟨tail, htail⟩ := List.head?_eq_some_iff.mp ((next_eq_iff _).mp hclose)
      exact he.ne_close tail htail
    refine ⟨n + 1, ?_⟩
    rw [identLoop, if_neg hne, parseIdentCp_of_spelled he (hp.not_high (.inr hcont))]
    have hkept : ident ++ keptName (e :: es) = ident ++ utf8Encode e.read ++ keptName es := by
      simp [keptName]
    rw [hkept, ← hn]
    exact if_neg (by rw [hcont]; decide)

theorem text_of_identLoop (hp : p.IdLibrary) {n : ℕ} {ident name : List UInt8} {iter rest : List Char}
    (h : p.identLoop n ident iter = .ok (name, rest)) :
    ∃ es, NameText p.unicode es iter rest ∧ (∀ e ∈ es, p.isIdCont e.read = true) ∧
      name = ident ++ keptName es := by
  induction n generalizing ident iter with
  | zero => cases h
  | succ n ih =>
    rw [identLoop] at h
    by_cases hend : (next iter).1 = '>'.toNat
    · rw [if_pos hend] at h
      cases h
      obtain ⟨iter, rfl⟩ := List.head?_eq_some_iff.mp ((next_eq_iff iter).mp hend)
      exact ⟨[], .nil iter, by simp, by simp [keptName]⟩
    rw [if_neg hend] at h
    obtain ⟨⟨cp, mid⟩, hcp, h⟩ := Outcome.bind_eq_ok.mp h
    have hcp := Outcome.ofExcept_eq_ok.mp hcp
    dsimp only at h
    split_ifs at h with hcont
    have hnil : iter ≠ [] := by
      rintro rfl
      rw [parseIdentCp_nil] at hcp
      rw [← (Prod.mk.inj (Except.ok.inj hcp)).1] at hcont
      exact hcont hp.isIdCont_end
    obtain ⟨e, he, rfl, rfl⟩ := spelled_of_parseIdentCp hcp hnil (mt (next_eq_iff iter).mpr hend)
    obtain ⟨es, htext, hes, rfl⟩ := ih h
    exact ⟨e :: es, .cons he htext, List.forall_mem_cons.mpr ⟨by simpa using hcont, hes⟩, by simp [keptName]⟩

/-- The names that the parser reads, and what it keeps of them. -/
theorem exists_parseIdent_iff (hp : p.IdLibrary) {name : List UInt8} {iter rest : List Char} :
    (∃ n, p.parseIdent n iter = .ok (name, rest)) ↔
      ∃ es, NameText p.unicode es iter rest ∧ p.ReadsName es ∧ name = keptName es := by
  constructor
  · rintro ⟨n, h⟩
    obtain ⟨⟨cp, mid⟩, hcp, h⟩ := Outcome.bind_eq_ok.mp h
    have hcp := Outcome.ofExcept_eq_ok.mp hcp
    dsimp only at h
    split_ifs at h with hstart
    have hnil : iter ≠ [] := by
      rintro rfl
      rw [parseIdentCp_nil] at hcp
      rw [← (Prod.mk.inj (Except.ok.inj hcp)).1] at hstart
      exact hstart hp.isIdStart_end
    have hclose : iter.head? ≠ some '>' := by
      intro hhead
      obtain ⟨iter, rfl⟩ := List.head?_eq_some_iff.mp hhead
      rw [parseIdentCp_close] at hcp
      rw [← (Prod.mk.inj (Except.ok.inj hcp)).1] at hstart
      exact hstart hp.isIdStart_close
    obtain ⟨e, he, rfl, rfl⟩ := spelled_of_parseIdentCp hcp hnil hclose
    obtain ⟨es, htext, hes, rfl⟩ := text_of_identLoop hp h
    exact ⟨e :: es, .cons he htext, ⟨by simpa using hstart, hes⟩, by simp [keptName]⟩
  · rintro ⟨es, htext, hreads, rfl⟩
    cases htext with
    | nil => exact hreads.elim
    | @cons e es iter rest he htext =>
      obtain ⟨hstart, hes⟩ := hreads
      obtain ⟨n, hn⟩ := identLoop_of_text hp htext hes (utf8Encode e.read)
      refine ⟨n, ?_⟩
      rw [parseIdent, parseIdentCp_of_spelled he (hp.not_high (.inl hstart))]
      have hkept : keptName (e :: es) = utf8Encode e.read ++ keptName es := by simp [keptName]
      rw [hkept, ← hn]
      exact if_neg (by rw [hstart]; decide)

end

/-! ## Where it is right -/

section

variable (p : RegExpParser)

/-- The parser accepts a text just if it spells a name. -/
def AcceptsRight (text : List Char) : Prop :=
  (∃ name rest n, p.parseIdent n text = .ok (name, rest)) ↔
    ∃ es rest, NameText p.unicode es text rest ∧ p.IsName es

/-- What the parser keeps of two texts is the same just if they spell the same code points. -/
def EqualRight (text text' : List Char) : Prop :=
  ∀ es es' rest rest' name name', NameText p.unicode es text rest → NameText p.unicode es' text' rest' →
    (∃ n, p.parseIdent n text = .ok (name, rest)) → (∃ n, p.parseIdent n text' = .ok (name', rest')) →
      (name = name' ↔ es.map NameCharacter.codePoint = es'.map NameCharacter.codePoint)

structure NamesRight (text text' : List Char) : Prop where
  left : p.AcceptsRight text
  right : p.AcceptsRight text'
  equal : p.EqualRight text text'

/-- The test of the parser on the characters as it reads them comes to the same as that of a name. -/
def TestsRight (text : List Char) : Prop :=
  ∀ es rest, NameText p.unicode es text rest → (p.ReadsName es ↔ p.IsName es)

/-- Of two names that pass the test the characters are the same just if they are as they are read. -/
def CodePointsRight (text text' : List Char) : Prop :=
  ∀ es es' rest rest', NameText p.unicode es text rest → NameText p.unicode es' text' rest' →
    p.ReadsName es → p.ReadsName es' → (es.map NameCharacter.read = es'.map NameCharacter.read ↔
      es.map NameCharacter.codePoint = es'.map NameCharacter.codePoint)

end

theorem NameText.read_lt {unicode : Bool} {es : List NameCharacter} {text rest : List Char}
    (h : NameText unicode es text rest) : ∀ cp ∈ es.map NameCharacter.read, cp < 0x110000 := by
  induction h with
  | nil => simp
  | cons he h ih => exact List.forall_mem_cons.mpr ⟨NameCharacter.read_lt he, ih⟩

theorem keptName_eq_iff {unicode : Bool} {es es' : List NameCharacter} {text text' rest rest' : List Char}
    (h : NameText unicode es text rest) (h' : NameText unicode es' text' rest') :
    keptName es = keptName es' ↔ es.map NameCharacter.read = es'.map NameCharacter.read := by
  have hutf8 {cps : List ℕ} (hcps : ∀ cp ∈ cps, cp < 0x110000) : cps.flatMap utf8Encode = cps.flatMap utf8 :=
    List.flatMap_congr fun cp hcp => utf8Encode_eq_utf8 (hcps cp hcp)
  constructor
  · intro heq
    rw [keptName, keptName, hutf8 h.read_lt, hutf8 h'.read_lt] at heq
    exact Lexer.flatMap_utf8_inj h.read_lt h'.read_lt heq
  · intro heq
    rw [keptName, keptName, heq]

section

variable {p : RegExpParser} (hp : p.IdLibrary)

include hp

theorem acceptsRight_iff (text : List Char) : p.AcceptsRight text ↔ p.TestsRight text := by
  have haccepts : (∃ name rest n, p.parseIdent n text = .ok (name, rest)) ↔
      ∃ es rest, NameText p.unicode es text rest ∧ p.ReadsName es := by
    constructor
    · rintro ⟨name, rest, h⟩
      obtain ⟨es, htext, hreads, -⟩ := (exists_parseIdent_iff hp).mp h
      exact ⟨es, rest, htext, hreads⟩
    · rintro ⟨es, rest, htext, hreads⟩
      exact ⟨keptName es, rest, (exists_parseIdent_iff hp).mpr ⟨es, htext, hreads, rfl⟩⟩
  rw [AcceptsRight, haccepts]
  constructor
  · intro h es rest htext
    constructor
    · intro hreads
      obtain ⟨es', rest', htext', hname⟩ := h.mp ⟨es, rest, htext, hreads⟩
      rwa [(htext.unique htext').1]
    · intro hname
      obtain ⟨es', rest', htext', hreads⟩ := h.mpr ⟨es, rest, htext, hname⟩
      rwa [(htext.unique htext').1]
  · intro h
    exact exists_congr fun es => exists_congr fun rest => and_congr_right fun htext => h es rest htext

theorem equalRight_iff (text text' : List Char) : p.EqualRight text text' ↔ p.CodePointsRight text text' := by
  constructor
  · intro h es es' rest rest' htext htext' hreads hreads'
    rw [← keptName_eq_iff htext htext']
    exact h es es' rest rest' _ _ htext htext' ((exists_parseIdent_iff hp).mpr ⟨es, htext, hreads, rfl⟩)
      ((exists_parseIdent_iff hp).mpr ⟨es', htext', hreads', rfl⟩)
  · intro h es es' rest rest' name name' htext htext' hparse hparse'
    obtain ⟨fs, hfs, hreads, rfl⟩ := (exists_parseIdent_iff hp).mp hparse
    obtain ⟨fs', hfs', hreads', rfl⟩ := (exists_parseIdent_iff hp).mp hparse'
    obtain ⟨rfl, -⟩ := htext.unique hfs
    obtain ⟨rfl, -⟩ := htext'.unique hfs'
    rw [keptName_eq_iff htext htext']
    exact h es es' rest rest' htext htext' hreads hreads'

/-- The parser is right about two names just where its tests and its code points are. -/
theorem namesRight_iff (text text' : List Char) : p.NamesRight text text' ↔
    p.TestsRight text ∧ p.TestsRight text' ∧ p.CodePointsRight text text' := by
  have hleft := acceptsRight_iff hp text
  have hright := acceptsRight_iff hp text'
  have hequal := equalRight_iff hp text text'
  constructor
  · intro h
    exact ⟨hleft.mp h.left, hright.mp h.right, hequal.mp h.equal⟩
  · rintro ⟨h, h', hcodes⟩
    exact ⟨hleft.mpr h, hright.mpr h', hequal.mpr hcodes⟩

end

theorem asciiParser_idLibrary (unicode : Bool) : (asciiParser unicode).IdLibrary where
  surrogates cp h := by
    have hwide : 0x80 ≤ cp := Nat.le_trans (by decide) h.1
    have hne : cp ≠ '_'.toNat := Nat.ne_of_gt (Nat.lt_of_lt_of_le (by decide) hwide)
    simp [asciiParser, isControlLetter_wide hwide, isDecimalDigit_wide hwide]
    exact hne
  noncharacter := by cases unicode <;> decide
  close := by cases unicode <;> decide
  underscore := by cases unicode <;> decide

theorem namesRight_iff_letter : (asciiParser true).NamesRight ['a', '>'] ['b', '>'] ↔
    (asciiParser true).TestsRight ['a', '>'] ∧ (asciiParser true).TestsRight ['b', '>'] ∧
      (asciiParser true).CodePointsRight ['a', '>'] ['b', '>'] :=
  namesRight_iff (asciiParser_idLibrary true) ['a', '>'] ['b', '>']

/-- A parser that knows the ideographs of the second plane too. -/
def ideographParser (unicode : Bool) : RegExpParser where
  unicode := unicode
  isIDStart cp := (asciiParser unicode).isIDStart cp || (0x20000 ≤ cp ∧ cp ≤ 0x2A6DF)
  isIDPart cp := (asciiParser unicode).isIDPart cp || (0x20000 ≤ cp ∧ cp ≤ 0x2A6DF)

theorem ideographParser_idLibrary (unicode : Bool) : (ideographParser unicode).IdLibrary where
  surrogates cp h := by
    have hplane : ¬ (0x20000 ≤ cp ∧ cp ≤ 0x2A6DF) := fun hcp =>
      absurd (Nat.lt_of_le_of_lt hcp.1 h.2) (by decide)
    obtain ⟨hstart, hpart⟩ := (asciiParser_idLibrary unicode).surrogates cp h
    exact ⟨by simp only [ideographParser, hstart, hplane]; decide,
      by simp only [ideographParser, hpart, hplane]; decide⟩
  noncharacter := by cases unicode <;> decide
  close := by cases unicode <;> decide
  underscore := by cases unicode <;> decide

/-- The name of `/(?<𠀀>)/` starts with an ideograph, of which the library sees sixteen bits. -/
theorem ideograph_rejected :
    (ideographParser true).IdLibrary ∧ ¬ (ideographParser true).NamesRight ['𠀀', '>'] ['a', '>'] ∧
      (ideographParser true).parsePattern 9 ['(', '?', '<', '𠀀', '>', ')'] = .error "Invalid group name" := by
  refine ⟨ideographParser_idLibrary true, fun h => ?_, by decide +kernel⟩
  have htext : NameText true [.literal '𠀀'] ['𠀀', '>'] [] :=
    NameText.cons (e := .literal '𠀀') ⟨by decide, by decide⟩ (.nil [])
  have hname : (ideographParser true).IsName [.literal '𠀀'] := ⟨.inl (by decide), by simp⟩
  obtain ⟨name, rest, hparse⟩ := h.left.mpr ⟨_, _, htext, hname⟩
  obtain ⟨es, htext', hreads, -⟩ := (exists_parseIdent_iff (ideographParser_idLibrary true)).mp hparse
  obtain ⟨rfl, -⟩ := htext.unique htext'
  exact absurd hreads.1 (by decide)

end ArkTs2abc.Es2panda.RegExpParser
