import ArkTs2abc.Es2panda.Lexer.Iterator

/-!
# Which texts are string literals

`scanEscape` and `scanText` do on the characters of a text what the lexer does on its
bytes. They also say if braces without a digit were read as an escape, which is the
one thing the lexer takes and the grammar does not.

## Main definitions

* `Denotes` — the bytes of a string, for its code units.
* `WithEmptyBraces` — texts that would be those of a literal but for an escape without digits.
* `ScansStringLiteral` — the lexer takes the literals of the grammar, with their values.

## Main results

* `scanString_utf8Text` — the lexer on a text.
* `scansStringLiteral_iff` — where it is right about string literals.
-/

namespace ArkTs2abc.Es2panda

open Unicode

namespace Lexer

/-! ## The lexer on the characters of a text -/

/-- `ScanHexEscape`, for `n` more digits. -/
def scanHexDigits : ℕ → ℕ → List Char → Option (ℕ × List Char)
  | 0, code, cs => some (code, cs)
  | _ + 1, _, [] => none
  | n + 1, code, c :: cs =>
    if isHexDigit c.toNat then scanHexDigits n (code * 16 + hexValue c.toNat) cs else none

/-- `ScanUnicodeCodePointEscape`. -/
def scanBraces (code : ℕ) : List Char → Option (ℕ × List Char)
  | [] => none
  | c :: cs =>
    if isHexDigit c.toNat then
      if 0x10FFFF < code * 16 + hexValue c.toNat then none
      else scanBraces (code * 16 + hexValue c.toNat) cs
    else if c = '}' then some (code, cs) else none

/-- `ScanUnicodeEscapeSequence` behind the `u`: also if it is braces without digits. -/
def scanUnicode (cs : List Char) : Option (ℕ × Bool × List Char) :=
  if cs.head? = some '\x7b' then
    (scanBraces 0 cs.tail).map fun (cp, rest) => (cp, decide (cs.tail.head? = some '}'), rest)
  else (scanHexDigits 4 0 cs).map fun (cp, rest) => (cp, false, rest)

/-- An escape: its code points, if it is one without digits, and what is left of the text. -/
def scanEscape : List Char → Option (List ℕ × Bool × List Char)
  | [] => none
  | c :: cs =>
    if c = '\r' then some ([], false, if cs.head? = some '\n' then cs.tail else cs)
    else if c = '\u2028' ∨ c = '\u2029' ∨ c = '\n' then some ([], false, cs)
    else match singleEscape c.toNat with
      | some cp => some ([cp], false, cs)
      | none =>
        if c = 'x' then (scanHexDigits 2 0 cs).map fun (cp, rest) => ([cp], false, rest)
        else if c = 'u' then (scanUnicode cs).map fun (cp, empty, rest) => ([cp], empty, rest)
        else if c = '0' ∧ ∀ d ∈ cs.head?, isDecimalDigit d.toNat = false then some ([0], false, cs)
        else if isDecimalDigit c.toNat then none
        else some ([c.toNat], false, cs)

/-- The text of a literal, for at most `n` rounds: its code points, if there is an escape without digits
in it, and what is left from its end on. -/
def scanText (quote : Char) : ℕ → List Char → Option (List ℕ × Bool × List Char)
  | 0, _ => none
  | _ + 1, [] => none
  | n + 1, c :: cs =>
    if c = '\r' ∨ c = '\n' then
      if quote = '`' then
        (scanText quote n (if c = '\r' ∧ cs.head? = some '\n' then cs.tail else cs)).map
          fun (cps, empty, rest) => (LEX_CHAR_LF :: cps, empty, rest)
      else none
    else if c = '\\' then do
      let (cps, empty, cs) ← scanEscape cs
      let (cps', empty', rest) ← scanText quote n cs
      some (cps ++ cps', empty || empty', rest)
    else if c = quote ∨ quote = '`' ∧ c = '$' ∧ cs.head? = some '\x7b' then some ([], false, c :: cs)
    else (scanText quote n cs).map fun (cps, empty, rest) => (c.toNat :: cps, empty, rest)

/-! ## Digits -/

theorem isDecimalDigit_peek (c : Char) (cs : List Char) :
    isDecimalDigit (peek (utf8Text (c :: cs))) = isDecimalDigit c.toNat := by
  rcases Nat.lt_or_ge c.toNat 0x80 with hascii | hge
  · rw [peek_utf8Text_ascii hascii]
  · have hpeek := (le_peek_utf8Text hge cs).1
    have hzero : '0'.toNat = 0x30 := rfl
    have hnine : '9'.toNat = 0x39 := rfl
    have hwide (n : ℕ) (hn : 0x80 ≤ n) : isDecimalDigit n = false := by
      simp [isDecimalDigit]
      omega
    rw [hwide _ hge, hwide _ (by omega)]

theorem isHexDigit_of_wide {n : ℕ} (h : 0x80 ≤ n) : isHexDigit n = false := by
  simp [isHexDigit, isDecimalDigit]
  omega

theorem isHexDigit_peek (c : Char) (cs : List Char) :
    isHexDigit (peek (utf8Text (c :: cs))) = isHexDigit c.toNat := by
  rcases Nat.lt_or_ge c.toNat 0x80 with hascii | hge
  · rw [peek_utf8Text_ascii hascii]
  · have hpeek := (le_peek_utf8Text hge cs).1
    rw [isHexDigit_of_wide hge, isHexDigit_of_wide (by omega)]

theorem ascii_of_isHexDigit {c : Char} (h : isHexDigit c.toNat = true) : c.toNat < 0x80 := by
  by_contra hge
  rw [isHexDigit_of_wide (by omega)] at h
  exact absurd h nofun

theorem scanHexEscape_utf8Text (n code : ℕ) (cs : List Char) :
    scanHexEscape n code (utf8Text cs) =
      (scanHexDigits n code cs).map fun (cp, cs) => (cp, utf8Text cs) := by
  induction n generalizing code cs with
  | zero => rfl
  | succ n ih =>
    rcases cs with _ | ⟨c, cs⟩
    · rfl
    rw [scanHexEscape, isHexDigit_peek, scanHexDigits]
    split_ifs with hdigit
    · have hascii := ascii_of_isHexDigit hdigit
      rw [peek_utf8Text_ascii hascii, tail_utf8Text_ascii hascii, ih]
    · rfl

theorem scanUnicodeCodePointEscape_of_ne_nil (code : ℕ) {iter : List UInt8} (h : iter ≠ []) :
    scanUnicodeCodePointEscape code iter =
      if isHexDigit (peek iter) then
        if 0x10FFFF < code * 16 + hexValue (peek iter) then none
        else scanUnicodeCodePointEscape (code * 16 + hexValue (peek iter)) iter.tail
      else if peek iter = '}'.toNat then some (code, iter.tail) else none := by
  cases iter with
  | nil => contradiction
  | cons b iter => rfl

theorem scanUnicodeCodePointEscape_utf8Text (code : ℕ) (cs : List Char) :
    scanUnicodeCodePointEscape code (utf8Text cs) =
      (scanBraces code cs).map fun (cp, cs) => (cp, utf8Text cs) := by
  induction cs generalizing code with
  | nil => rfl
  | cons c cs ih =>
    have hne : utf8Text (c :: cs) ≠ [] := mt utf8Text_eq_nil_iff.mp nofun
    have hbrace := peek_utf8Text_eq_iff (d := '}') (by decide) (c :: cs)
    rw [List.head?_cons, Option.some.injEq] at hbrace
    rw [scanUnicodeCodePointEscape_of_ne_nil code hne, isHexDigit_peek, scanBraces]
    by_cases hdigit : isHexDigit c.toNat = true
    · have hascii := ascii_of_isHexDigit hdigit
      rw [if_pos hdigit, if_pos hdigit, peek_utf8Text_ascii hascii, tail_utf8Text_ascii hascii, ih]
      split_ifs <;> rfl
    · rw [if_neg hdigit, if_neg hdigit]
      simp only [hbrace]
      split_ifs with hclose
      · subst hclose
        rw [tail_utf8Text_ascii (by decide), Option.map_some]
      · rfl

theorem scanUnicodeEscapeSequence_utf8Text (cs : List Char) :
    scanUnicodeEscapeSequence (utf8Text ('u' :: cs)) =
      (scanUnicode cs).map fun (cp, _, rest) => (cp, utf8Text rest) := by
  have hbrace := peek_utf8Text_eq_iff (d := '\x7b') (by decide) cs
  rw [scanUnicodeEscapeSequence, tail_utf8Text_ascii (by decide), scanUnicode]
  by_cases hhead : cs.head? = some '\x7b'
  · obtain ⟨ds, rfl⟩ := List.head?_eq_some_iff.mp hhead
    rw [if_pos (hbrace.mpr hhead), if_pos hhead, tail_utf8Text_ascii (by decide),
      scanUnicodeCodePointEscape_utf8Text, Option.map_map]
    rfl
  · rw [if_neg (mt hbrace.mp hhead), if_neg hhead, scanHexEscape_utf8Text, Option.map_map]
    rfl

/-! ## Escapes -/

theorem isDecimalDigit_peek_eq_false_iff (cs : List Char) :
    isDecimalDigit (peek (utf8Text cs)) = false ↔ ∀ d ∈ cs.head?, isDecimalDigit d.toNat = false := by
  cases cs with
  | nil => exact iff_of_true rfl nofun
  | cons d cs => simp [isDecimalDigit_peek]

/-- An escape appends the UTF-8 form of its code points. -/
theorem scanStringUnicodePart_utf8Text (str : List UInt8) (cs : List Char) :
    scanStringUnicodePart str (utf8Text cs) = (scanEscape cs).map fun (cps, _, rest) =>
      (str ++ cps.flatMap utf8Encode, utf8Text rest) := by
  cases cs with
  | nil => rfl
  | cons c cs =>
    have hchar (d : Char) : c.toNat = d.toNat ↔ c = d := Char.toNat_inj
    have hinvalid : c.toNat ≠ INVALID_CP := by
      have := char_lt c
      rw [INVALID_CP]
      omega
    have hcr : c.toNat = LEX_CHAR_CR ↔ c = '\r' := hchar '\r'
    have hls : c.toNat = LEX_CHAR_LS ↔ c = '\u2028' := hchar '\u2028'
    have hps : c.toNat = LEX_CHAR_PS ↔ c = '\u2029' := hchar '\u2029'
    have hlf : c.toNat = LEX_CHAR_LF ↔ c = '\n' := hchar '\n'
    rw [scanStringUnicodePart, decodeCP_utf8Text_cons, scanEscape]
    simp only [Option.bind_eq_bind, Option.bind_some, if_neg hinvalid, hcr, hls, hps, hlf, hchar]
    by_cases hreturn : c = '\r'
    · subst hreturn
      have hline := peek_utf8Text_eq_iff (d := '\n') (by decide) cs
      have hlf' : LEX_CHAR_LF = '\n'.toNat := rfl
      rw [if_pos rfl, if_pos rfl, tail_utf8Text_ascii (by decide), hlf']
      by_cases hhead : cs.head? = some '\n'
      · obtain ⟨ds, rfl⟩ := List.head?_eq_some_iff.mp hhead
        simp [hline.mpr hhead, tail_utf8Text_ascii]
      · rw [if_neg (mt hline.mp hhead), if_neg hhead, tail_utf8Text_ascii (by decide)]
        simp
    rw [if_neg hreturn, if_neg hreturn]
    by_cases hbreak : c = '\u2028' ∨ c = '\u2029' ∨ c = '\n'
    · rw [if_pos hbreak, if_pos hbreak]
      simp
    rw [if_neg hbreak, if_neg hbreak]
    cases hsingle : singleEscape c.toNat with
    | some cp => simp
    | none =>
      by_cases hhex : c = 'x'
      · subst hhex
        rw [tail_utf8Text_ascii (by decide), scanHexEscape_utf8Text]
        cases scanHexDigits 2 0 cs <;> simp
      by_cases hunicode : c = 'u'
      · subst hunicode
        rw [scanUnicodeEscapeSequence_utf8Text]
        cases scanUnicode cs <;> simp
      by_cases hzero : c = '0'
      · subst hzero
        rw [tail_utf8Text_ascii (by decide), peek_utf8Text_ascii (by decide)]
        simp only [isDecimalDigit_peek_eq_false_iff]
        split_ifs <;> simp_all
      · rw [isDecimalDigit_peek]
        simp only [hhex, hunicode, hzero, if_false, false_and]
        split_ifs <;> simp

/-! ## The loop -/

variable {cs rest : List Char} {quote : Char}

theorem finishString_eq {startPos pending str : List UInt8} {hasEscape : Bool}
    (hstart : hasEscape = false → str = [] ∧ startPos = pending ++ utf8Text cs) :
    finishString quote.toNat startPos (utf8Text cs) (pending ++ utf8Text cs) str hasEscape =
      (str ++ pending, if quote = '`' then utf8Text cs else (utf8Text cs).tail) := by
  have hquote : quote.toNat = '`'.toNat ↔ quote = '`' := Char.toNat_inj
  simp only [finishString, hquote]
  cases hasEscape with
  | true => simp [sourceView_append]
  | false =>
    obtain ⟨rfl, rfl⟩ := hstart rfl
    simp [sourceView_append]

theorem scanStringLoop_stop {c : Char} (hquote : quote ∈ ['"', '\'', '`'])
    (hend : c = quote ∨ quote = '`' ∧ c = '$' ∧ cs.head? = some '\x7b') (n : ℕ)
    (startPos escapeEnd str : List UInt8) (hasEscape : Bool) :
    scanStringLoop quote.toNat startPos (n + 1) (utf8Text (c :: cs)) escapeEnd str hasEscape =
      some (finishString quote.toNat startPos (utf8Text (c :: cs)) escapeEnd str hasEscape) := by
  rw [scanStringLoop]
  rcases hend with rfl | ⟨rfl, rfl, hhead⟩
  · simp only [List.mem_cons, List.not_mem_nil, or_false] at hquote
    rcases hquote with rfl | rfl | rfl
    all_goals
      rw [peek_utf8Text_ascii (by decide)]
      rfl
  · have hbrace := (peek_utf8Text_eq_iff (d := '\x7b') (by decide) cs).mpr hhead
    have hspecial : '$'.toNat ≠ INVALID_CP ∧ '$'.toNat ≠ LEX_CHAR_CR ∧ '$'.toNat ≠ LEX_CHAR_LF := by
      decide
    rw [peek_utf8Text_ascii (by decide), tail_utf8Text_ascii (by decide)]
    simp only [hspecial.1, hspecial.2.1, hspecial.2.2, hbrace]
    rfl

theorem scanStringLoop_utf8Text (hquote : quote ∈ ['"', '\'', '`']) (cs : List Char) {n : ℕ}
    {startPos pending str : List UInt8} {hasEscape : Bool}
    (hstart : hasEscape = false → str = [] ∧ startPos = pending ++ utf8Text cs) :
    scanStringLoop quote.toNat startPos n (utf8Text cs) (pending ++ utf8Text cs) str hasEscape =
      (scanText quote n cs).map fun (cps, _, rest) => (str ++ pending ++ cps.flatMap utf8Encode,
        if quote = '`' then utf8Text rest else (utf8Text rest).tail) := by
  induction n generalizing cs startPos pending str hasEscape with
  | zero => rfl
  | succ n ih =>
    rcases cs with _ | ⟨c, cs⟩
    · rfl
    rw [scanText]
    by_cases hbreak : c = '\r' ∨ c = '\n'
    · rw [if_pos hbreak]
      by_cases htemplate : quote = '`'
      · rw [if_pos htemplate]
        subst htemplate
        have hcode : [LEX_CHAR_LF].flatMap utf8 = utf8Encode LEX_CHAR_LF := by decide
        have hnext (seq : List Char) (ds : List Char) (hcs : c :: cs = seq ++ ds)
            (hseq : utf8Text seq = [byte '\n'] ∨ utf8Text seq = [byte '\r', byte '\n'] ∨
              utf8Text seq = [byte '\r'] ∧ (utf8Text ds).head? ≠ some (byte '\n')) :
            scanStringLoop '`'.toNat startPos (n + 1) (utf8Text (c :: cs)) (pending ++ utf8Text (c :: cs))
              str hasEscape = ((scanText '`' n ds).map fun (cps, empty, rest) =>
                (LEX_CHAR_LF :: cps, empty, rest)).map fun (cps, _, rest) =>
                  (str ++ pending ++ cps.flatMap utf8Encode, utf8Text rest) := by
          have hih := @ih ds startPos [] (str ++ pending ++ utf8Encode LEX_CHAR_LF) true nofun
          rw [List.nil_append, List.append_nil] at hih
          rw [hcs, utf8Text_append, scanStringLoop_lineBreak hseq, hcode, hih]
          cases scanText '`' n ds <;> simp
        rcases hbreak with rfl | rfl
        · by_cases hhead : cs.head? = some '\n'
          · obtain ⟨ds, rfl⟩ := List.head?_eq_some_iff.mp hhead
            exact hnext ['\r', '\n'] ds rfl (.inr (.inl rfl))
          · simp only [hhead, and_false, if_false]
            exact hnext ['\r'] cs rfl
              (.inr (.inr ⟨rfl, mt (head?_utf8Text_eq_iff (by decide) cs).mp hhead⟩))
        · exact hnext ['\n'] cs rfl (.inl rfl)
      · have htemplate' : quote.toNat ≠ 96 := @toNat_ne quote '`' htemplate
        rw [if_neg htemplate, Option.map_none, scanStringLoop]
        rcases hbreak with rfl | rfl
        all_goals
          rw [peek_utf8Text_ascii (by decide)]
          simp [htemplate', LEX_CHAR_CR, LEX_CHAR_LF, INVALID_CP]
    rw [if_neg hbreak]
    by_cases hescape : c = '\\'
    · subst hescape
      have hspecial : '\\'.toNat ≠ INVALID_CP ∧ '\\'.toNat ≠ LEX_CHAR_CR ∧
          '\\'.toNat ≠ LEX_CHAR_LF := by decide
      rw [if_pos rfl, scanStringLoop, peek_utf8Text_ascii (by decide), tail_utf8Text_ascii (by decide)]
      simp only [hspecial.1, hspecial.2.1, hspecial.2.2, or_self, if_false, if_true, sourceView_append,
        scanStringUnicodePart_utf8Text]
      cases hscan : scanEscape cs with
      | none => rfl
      | some r =>
        obtain ⟨cps, empty, cs'⟩ := r
        have hih := @ih cs' startPos [] (str ++ pending ++ cps.flatMap utf8Encode) true nofun
        rw [List.nil_append, List.append_nil] at hih
        simp only [Option.map_some, Option.bind_eq_bind, Option.bind_some, hih]
        cases scanText quote n cs' <;> simp
    rw [if_neg hescape]
    by_cases hend : c = quote ∨ quote = '`' ∧ c = '$' ∧ cs.head? = some '\x7b'
    · rw [if_pos hend, scanStringLoop_stop hquote hend, finishString_eq hstart]
      simp
    · have hc : c ∉ [quote, '\\', '\n', '\r'] := by grind
      have hdollar : quote = '`' → c = '$' → (utf8Text cs).head? ≠ some (byte '\x7b') := by
        intro hq hd hhead
        exact hend (.inr ⟨hq, hd, (head?_utf8Text_eq_iff (by decide) cs).mp hhead⟩)
      rw [if_neg hend, utf8Text_cons, scanStringLoop_char hc hdollar, ← List.append_assoc, ih cs ?_]
      · cases scanText quote n cs <;> simp [utf8Encode_eq_utf8 (char_lt c)]
      · intro hflag
        obtain ⟨rfl, rfl⟩ := hstart hflag
        simp [utf8Text_cons]

theorem scanString_utf8Text (hquote : quote ∈ ['"', '\'', '`']) (cs : List Char) (hasEscape : Bool) :
    scanString quote.toNat (utf8Text cs) hasEscape =
      (scanText quote ((utf8Text cs).length + 1) cs).map fun (cps, _, rest) =>
        (cps.flatMap utf8Encode, if quote = '`' then utf8Text rest else (utf8Text rest).tail) := by
  have h := @scanStringLoop_utf8Text quote hquote cs ((utf8Text cs).length + 1) (utf8Text cs) [] []
    hasEscape fun _ => ⟨rfl, rfl⟩
  simpa [scanString] using h

/-! ## What was read as an escape -/

theorem hexDigit_byte {c : Char} (h : isHexDigit c.toNat = true) :
    hexDigit (byte c) = some (hexValue c.toNat) := by
  have hascii := ascii_of_isHexDigit h
  have hbyte := byte_toNat hascii
  have hmask (n : ℕ) : n &&& 0xF = n % 0x10 := and_mask n 4
  have hzero : (byte '0').toNat = 0x30 := rfl
  have hnine : (byte '9').toNat = 0x39 := rfl
  have hA : (byte 'A').toNat = 0x41 := rfl
  have hF : (byte 'F').toNat = 0x46 := rfl
  have ha : (byte 'a').toNat = 0x61 := rfl
  have hf : (byte 'f').toNat = 0x66 := rfl
  simp only [isHexDigit, isDecimalDigit, Char.reduceToNat] at h
  simp only [hexDigit, hexValue, UInt8.le_iff_toNat_le, hzero, hnine, hA, hF, ha, hf, hbyte, hmask,
    Char.reduceToNat]
  grind

theorem scanHexDigits_sound {n code cp : ℕ} (h : scanHexDigits n code cs = some (cp, rest)) :
    ∃ digits : List Char, cs = digits ++ rest ∧
      (∀ c ∈ digits, isHexDigit c.toNat = true) ∧ (utf8Text digits).length = n ∧
      hexNumber code (utf8Text digits) = some cp := by
  induction n generalizing code cs with
  | zero =>
    cases h
    exact ⟨[], rfl, nofun, rfl, rfl⟩
  | succ n ih =>
    rcases cs with _ | ⟨c, cs⟩
    · cases h
    rw [scanHexDigits] at h
    split_ifs at h with hdigit
    obtain ⟨digits, rfl, hdigits, hlength, hnumber⟩ := ih h
    refine ⟨c :: digits, rfl, List.forall_mem_cons.mpr ⟨hdigit, hdigits⟩, ?_, ?_⟩
    · rw [utf8Text_cons_ascii (ascii_of_isHexDigit hdigit), List.length_cons, hlength]
    · rw [utf8Text_cons_ascii (ascii_of_isHexDigit hdigit), hexNumber, hexDigit_byte hdigit]
      exact hnumber

theorem scanBraces_sound {code cp : ℕ} (hcode : code ≤ 0x10FFFF)
    (h : scanBraces code cs = some (cp, rest)) : ∃ digits : List Char, cs = digits ++ '}' :: rest ∧
      (∀ c ∈ digits, isHexDigit c.toNat = true) ∧ hexNumber code (utf8Text digits) = some cp ∧
      cp ≤ 0x10FFFF := by
  induction cs generalizing code with
  | nil => cases h
  | cons c cs ih =>
    rw [scanBraces] at h
    split_ifs at h with hdigit hlarge hclose
    · obtain ⟨digits, rfl, hdigits, hnumber, hle⟩ := ih (by omega) h
      refine ⟨c :: digits, rfl, List.forall_mem_cons.mpr ⟨hdigit, hdigits⟩, ?_, hle⟩
      rw [utf8Text_cons_ascii (ascii_of_isHexDigit hdigit), hexNumber, hexDigit_byte hdigit]
      exact hnumber
    · cases h
      exact ⟨[], by rw [hclose]; rfl, List.forall_mem_nil _, rfl, hcode⟩

theorem singleEscape_sound {c : Char} {cp : ℕ} (h : singleEscape c.toNat = some cp) :
    c.toNat < 0x80 ∧ cp < 0x80 ∧ ∃ v : UInt16, units cp = [v] ∧
      (c, v) ∈ [('b', (8 : UInt16)), ('t', 9), ('n', 10), ('v', 11), ('f', 12), ('r', 13)] := by
  have hchar (d : Char) : c.toNat = d.toNat ↔ c = d := Char.toNat_inj
  simp only [singleEscape, hchar] at h
  split_ifs at h with hb ht hn hv hf hr
  all_goals
    subst c
    cases h
    exact ⟨by decide, by decide, _, rfl, by decide⟩

theorem head?_of_append {text tail : List UInt8} (h : utf8Text rest = text ++ tail) {d : Char}
    (hd : d.toNat < 0x80) (hne : rest.head? ≠ some d) :
    text.head? ≠ some (byte d) := by
  intro hhead
  obtain ⟨bytes, rfl⟩ := List.head?_eq_some_iff.mp hhead
  exact hne ((head?_utf8Text_eq_iff hd rest).mp (by rw [h]; rfl))

theorem not_digit_of_append {text tail : List UInt8} (h : utf8Text rest = text ++ tail)
    (hnext : ∀ d ∈ rest.head?, isDecimalDigit d.toNat = false) :
    ∀ b ∈ text.head?, ¬ (byte '0' ≤ b ∧ b ≤ byte '9') := by
  rintro b hb ⟨hzero, hnine⟩
  obtain ⟨bytes, rfl⟩ := List.head?_eq_some_iff.mp hb
  have hpeek := (isDecimalDigit_peek_eq_false_iff rest).mpr hnext
  have hzero' : 0x30 ≤ b.toNat := hzero
  have hnine' : b.toNat ≤ 0x39 := hnine
  rw [h, List.cons_append, peek_cons (by omega)] at hpeek
  simp [isDecimalDigit] at hpeek
  omega

theorem scanUnicode_sound {cp : ℕ} {empty : Bool} (h : scanUnicode cs = some (cp, empty, rest)) :
    ∃ esc, cs = esc ++ rest ∧ cp < 0x110000 ∧
      if empty then esc = ['\x7b', '}'] else ∀ text, Escape text (utf8Text ('u' :: esc)) (units cp) := by
  unfold scanUnicode at h
  split_ifs at h with hhead
  · obtain ⟨ds, rfl⟩ := List.head?_eq_some_iff.mp hhead
    rw [List.tail_cons, Option.map_eq_some_iff] at h
    obtain ⟨⟨cp', rest'⟩, hscan, heq⟩ := h
    simp only [Prod.mk.injEq] at heq
    obtain ⟨rfl, rfl, rfl⟩ := heq
    obtain ⟨digits, rfl, hdigits, hnumber, hle⟩ := scanBraces_sound (by decide) hscan
    refine ⟨'\x7b' :: digits ++ ['}'], by simp, by omega, ?_⟩
    rcases digits with _ | ⟨d, digits⟩
    · simp
    · have hd : d ≠ '}' := by
        rintro rfl
        exact absurd (hdigits '}' (by simp)) (by decide)
      have hempty : ¬ (d :: digits ++ '}' :: rest').head? = some '}' := by simpa using hd
      rw [decide_eq_false hempty]
      intro text
      have hne : utf8Text (d :: digits) ≠ [] := mt utf8Text_eq_nil_iff.mp nofun
      have hbytes : utf8Text ('u' :: ('\x7b' :: (d :: digits) ++ ['}'])) =
          byte 'u' :: byte '\x7b' :: utf8Text (d :: digits) ++ [byte '}'] := by
        rw [utf8Text_cons_ascii (by decide), utf8Text_append, utf8Text_cons_ascii (by decide)]
        rfl
      rw [hbytes]
      exact .codePoint hne hnumber hle
  · rw [Option.map_eq_some_iff] at h
    obtain ⟨⟨cp', rest'⟩, hscan, heq⟩ := h
    simp only [Prod.mk.injEq] at heq
    obtain ⟨rfl, rfl, rfl⟩ := heq
    obtain ⟨digits, rfl, -, hlength, hnumber⟩ := scanHexDigits_sound hscan
    have hbound := (hexNumber_bounds hnumber).2
    rw [hlength] at hbound
    refine ⟨digits, rfl, by omega, ?_⟩
    intro text
    rw [utf8Text_cons_ascii (by decide)]
    exact .unicode hlength hnumber

/-- What is read is an escape of the grammar, or braces without a digit. -/
theorem scanEscape_sound {cps : List ℕ} {empty : Bool} (h : scanEscape cs = some (cps, empty, rest)) :
    ∃ esc, cs = esc ++ rest ∧
      (∀ cp ∈ cps, cp < 0x110000) ∧
      if empty then esc = ['u', '\x7b', '}']
      else ∀ text tail, utf8Text rest = text ++ tail → Escape text (utf8Text esc) (cps.flatMap units) := by
  rcases cs with _ | ⟨c, cs⟩
  · cases h
  have hsingleton (d : Char) : utf8Text [d] = String.utf8EncodeChar d := by simp [utf8Text]
  rw [scanEscape] at h
  split at h
  next hreturn =>
    simp only [Option.some.injEq, Prod.mk.injEq] at h
    obtain ⟨rfl, rfl, rfl⟩ := h
    subst hreturn
    by_cases hhead : cs.head? = some '\n'
    · obtain ⟨ds, rfl⟩ := List.head?_eq_some_iff.mp hhead
      exact ⟨['\r', '\n'], rfl, by simp, fun _ _ _ => .continuedCRLF⟩
    · refine ⟨['\r'], by rw [if_neg hhead]; rfl, by simp, fun text tail htext => .continuedCR ?_⟩
      rw [if_neg hhead] at htext
      exact head?_of_append htext (by decide) hhead
  next hreturn =>
  split at h
  next hbreak =>
    simp only [Option.some.injEq, Prod.mk.injEq] at h
    obtain ⟨rfl, rfl, rfl⟩ := h
    refine ⟨[c], rfl, by simp, fun _ _ _ => ?_⟩
    rw [hsingleton]
    exact .continued (by simpa [or_assoc, or_comm, or_left_comm] using hbreak)
  next hbreak =>
  split at h
  next cp hsingle =>
    simp only [Option.some.injEq, Prod.mk.injEq] at h
    obtain ⟨rfl, rfl, rfl⟩ := h
    obtain ⟨hascii, hcp, v, hv, hmem⟩ := singleEscape_sound hsingle
    refine ⟨[c], rfl, by simp; omega, fun _ _ _ => ?_⟩
    rw [utf8Text_cons_ascii hascii, List.flatMap_singleton, hv]
    exact .single hmem
  next hsingle =>
  split at h
  next hhex =>
    subst hhex
    rw [Option.map_eq_some_iff] at h
    obtain ⟨⟨cp, rest'⟩, hscan, heq⟩ := h
    simp only [Prod.mk.injEq] at heq
    obtain ⟨rfl, rfl, rfl⟩ := heq
    obtain ⟨digits, rfl, -, hlength, hnumber⟩ := scanHexDigits_sound hscan
    have hbound := (hexNumber_bounds hnumber).2
    rw [hlength] at hbound
    refine ⟨'x' :: digits, rfl, by simp; omega, fun _ _ _ => ?_⟩
    rw [utf8Text_cons_ascii (by decide), List.flatMap_singleton]
    exact .hex hlength hnumber
  next hhex =>
  split at h
  next hunicode =>
    subst hunicode
    rw [Option.map_eq_some_iff] at h
    obtain ⟨⟨cp, empty', rest'⟩, hscan, heq⟩ := h
    simp only [Prod.mk.injEq] at heq
    obtain ⟨rfl, rfl, rfl⟩ := heq
    obtain ⟨esc, rfl, hlt, hesc⟩ := scanUnicode_sound hscan
    refine ⟨'u' :: esc, rfl, by simpa using hlt, ?_⟩
    cases empty' with
    | true =>
      obtain rfl : esc = ['\x7b', '}'] := hesc
      rfl
    | false =>
      intro text _ _
      rw [List.flatMap_singleton]
      exact hesc text
  next hunicode =>
  split at h
  next hzero =>
    simp only [Option.some.injEq, Prod.mk.injEq] at h
    obtain ⟨rfl, rfl, rfl⟩ := h
    obtain ⟨rfl, hnext⟩ := hzero
    refine ⟨['0'], rfl, by simp, fun text tail htext => .null ?_⟩
    exact not_digit_of_append htext hnext
  next hzero =>
  split at h
  next => cases h
  next hdigit =>
    simp only [Option.some.injEq, Prod.mk.injEq] at h
    obtain ⟨rfl, rfl, rfl⟩ := h
    refine ⟨[c], rfl, by simpa using char_lt c, fun text tail htext => ?_⟩
    rw [hsingleton, List.flatMap_singleton]
    refine .char ?_ ?_
    · simp only [List.mem_cons, List.not_mem_nil, or_false]
      rintro (rfl | rfl | rfl | rfl | rfl | rfl | rfl | rfl | rfl | rfl | rfl | rfl)
      iterate 6 exact absurd hsingle (by decide)
      · exact hhex rfl
      · exact hunicode rfl
      · exact hbreak (by decide)
      · exact hreturn rfl
      · exact hbreak (by decide)
      · exact hbreak (by decide)
    · rintro ⟨hzero', hnine⟩
      exact hdigit (by simpa [isDecimalDigit] using ⟨hzero', hnine⟩)

end Lexer

theorem StringText.lineBreak {quote : Char} {text seq : List UInt8} {us : List UInt16}
    (h : StringText quote text us) (hquote : quote = '`') (hseq : seq = [byte '\n'] ∨
      seq = [byte '\r', byte '\n'] ∨ seq = [byte '\r'] ∧ text.head? ≠ some (byte '\n')) :
    StringText quote (seq ++ text) (unit '\n' :: us) := by
  rcases hseq with rfl | rfl | ⟨rfl, hnext⟩
  · exact .lineFeed hquote h
  · exact .carriageReturnLineFeed hquote h
  · exact .carriageReturn hquote hnext h

/-! ## Braces without a digit -/

def emptyBraces : List UInt8 := utf8Text ['\\', 'u', '\x7b', '}']

/-- The texts between quotes that have braces without a digit for an escape, once at least, and else are
as they should be. -/
inductive WithEmptyBraces (quote : Char) : List UInt8 → Prop where
  | last {text : List UInt8} {us : List UInt16} (h : StringText quote text us) :
      WithEmptyBraces quote (emptyBraces ++ text)
  | more {text : List UInt8} : WithEmptyBraces quote text → WithEmptyBraces quote (emptyBraces ++ text)
  | char {c : Char} {text : List UInt8} (hc : c ∉ [quote, '\\', '\n', '\r'])
      (hdollar : quote = '`' → c = '$' → text.head? ≠ some (byte '\x7b')) :
      WithEmptyBraces quote text → WithEmptyBraces quote (String.utf8EncodeChar c ++ text)
  | escape {text esc : List UInt8} {vs : List UInt16} (hesc : Escape text esc vs) :
      WithEmptyBraces quote text → WithEmptyBraces quote (byte '\\' :: esc ++ text)
  | lineBreak {text seq : List UInt8} (hquote : quote = '`') (hseq : seq = [byte '\n'] ∨
      seq = [byte '\r', byte '\n'] ∨ seq = [byte '\r'] ∧ text.head? ≠ some (byte '\n')) :
      WithEmptyBraces quote text → WithEmptyBraces quote (seq ++ text)

namespace Lexer

theorem not_escape_braces {text : List UInt8} {vs : List UInt16} :
    ¬ Escape text [byte 'u', byte '\x7b', byte '}'] vs := by
  intro h
  have hchar (c : Char) : String.utf8EncodeChar c ≠ [byte 'u', byte '\x7b', byte '}'] := by
    intro heq
    have hone : utf8Text [c] = String.utf8EncodeChar c := by simp [utf8Text]
    have htext : utf8Text [c] = utf8Text ['u', '\x7b', '}'] := hone.trans heq
    exact absurd (utf8Text_injective htext) (by simp)
  generalize heq : [byte 'u', byte '\x7b', byte '}'] = esc at h
  cases h with
  | hex => exact absurd (List.cons.inj heq).1 (by decide)
  | unicode hlength =>
    obtain ⟨-, rfl⟩ := List.cons.inj heq
    exact absurd hlength (by decide)
  | codePoint hne =>
    simp only [List.cons_append, List.cons.injEq, true_and] at heq
    have hdigits := congrArg List.length heq
    simp only [List.length_cons, List.length_nil, List.length_append] at hdigits
    exact hne (List.length_eq_zero_iff.mp (by omega))
  | null => cases heq
  | single => exact absurd (congrArg List.length heq) (by simp)
  | char => exact hchar _ heq.symm
  | continued => exact hchar _ heq.symm
  | continuedCRLF => cases heq
  | continuedCR => cases heq

theorem scanEscape_of_escape {text esc tail : List UInt8} {vs : List UInt16} {cs : List Char}
    (h : Escape text esc vs) (htail : Follows tail) (hcs : utf8Text cs = esc ++ (text ++ tail)) :
    ∃ cps rest, scanEscape cs = some (cps, false, rest) ∧ utf8Text rest = text ++ tail ∧
      cps.flatMap units = vs := by
  obtain ⟨cps, hcps, rfl, hpart⟩ := scanStringUnicodePart_append h htail
  have hscan := hpart []
  rw [← hcs, scanStringUnicodePart_utf8Text, Option.map_eq_some_iff] at hscan
  obtain ⟨⟨cps', empty, rest⟩, hscan, heq⟩ := hscan
  simp only [List.nil_append, Prod.mk.injEq] at heq
  obtain ⟨hbytes, hrest⟩ := heq
  obtain ⟨esc', rfl, hcps', hesc'⟩ := scanEscape_sound hscan
  have hempty : empty = false := by
    by_contra htrue
    rw [if_pos (by simpa using htrue)] at hesc'
    subst hesc'
    rw [utf8Text_append, hrest] at hcs
    have hesc := List.append_cancel_right hcs
    exact not_escape_braces (hesc ▸ h : Escape text (utf8Text ['u', '\x7b', '}']) _)
  subst hempty
  have hencode : cps'.flatMap utf8Encode = cps'.flatMap utf8 :=
    List.flatMap_congr fun cp hcp => utf8Encode_eq_utf8 (hcps' cp hcp)
  rw [hencode] at hbytes
  obtain rfl := flatMap_utf8_inj hcps' hcps hbytes
  exact ⟨cps', rest, hscan, hrest, rfl⟩

/-! ## Literals -/

/-- What is read is a text of the grammar, or one with braces without a digit. -/
theorem scanText_sound {quote : Char} (hquote : quote ∈ ['"', '\'', '`']) {n : ℕ} {cs rest : List Char}
    {cps : List ℕ} {empty : Bool} (h : scanText quote n cs = some (cps, empty, rest)) :
    ∃ text, cs = text ++ rest ∧ Ends quote (utf8Text rest) ∧ (∀ cp ∈ cps, cp < 0x110000) ∧
      if empty then WithEmptyBraces quote (utf8Text text)
      else StringText quote (utf8Text text) (cps.flatMap units) := by
  induction n generalizing cs cps empty with
  | zero => cases h
  | succ n ih =>
    rcases cs with _ | ⟨c, cs⟩
    · cases h
    rw [scanText] at h
    split at h
    next hbreak =>
      split at h
      swap
      · cases h
      next htemplate =>
      rw [Option.map_eq_some_iff] at h
      obtain ⟨⟨cps', empty', rest'⟩, hscan, heq⟩ := h
      simp only [Prod.mk.injEq] at heq
      obtain ⟨rfl, rfl, rfl⟩ := heq
      obtain ⟨text, hds, hends, hcps, htext⟩ := ih hscan
      obtain ⟨seq, hseq, hcs⟩ : ∃ seq, (utf8Text seq = [byte '\n'] ∨ utf8Text seq = [byte '\r', byte '\n'] ∨
          utf8Text seq = [byte '\r'] ∧ (utf8Text text).head? ≠ some (byte '\n')) ∧
          c :: cs = seq ++ text ++ rest' := by
        rcases hbreak with rfl | rfl
        · by_cases hhead : cs.head? = some '\n'
          · obtain ⟨ds, rfl⟩ := List.head?_eq_some_iff.mp hhead
            obtain rfl : ds = text ++ rest' := by simpa using hds
            exact ⟨['\r', '\n'], .inr (.inl rfl), rfl⟩
          · obtain rfl : cs = text ++ rest' := by simpa [hhead] using hds
            refine ⟨['\r'], .inr (.inr ⟨rfl, fun htextHead => hhead ?_⟩), rfl⟩
            obtain ⟨ds, rfl⟩ := List.head?_eq_some_iff.mp
              ((head?_utf8Text_eq_iff (by decide) text).mp htextHead)
            rfl
        · obtain rfl : cs = text ++ rest' := by simpa using hds
          exact ⟨['\n'], .inl rfl, rfl⟩
      refine ⟨seq ++ text, hcs, hends, List.forall_mem_cons.mpr ⟨by decide, hcps⟩, ?_⟩
      rw [utf8Text_append]
      cases empty' with
      | true => exact .lineBreak htemplate hseq htext
      | false => exact htext.lineBreak htemplate hseq
    next hbreak =>
    split at h
    next hescape =>
      subst hescape
      rw [Option.bind_eq_bind, Option.bind_eq_some_iff] at h
      obtain ⟨⟨cps₁, empty₁, cs₁⟩, hesc, h⟩ := h
      simp only [Option.bind_eq_some_iff] at h
      obtain ⟨⟨cps₂, empty₂, rest₂⟩, htext, h⟩ := h
      simp only [Option.some.injEq, Prod.mk.injEq] at h
      obtain ⟨rfl, rfl, rfl⟩ := h
      obtain ⟨text, rfl, hends, hcps₂, htext⟩ := ih htext
      obtain ⟨esc, rfl, hcps₁, hesc⟩ := scanEscape_sound hesc
      refine ⟨'\\' :: esc ++ text, by simp, hends, ?_, ?_⟩
      · intro cp hcp
        exact (List.mem_append.mp hcp).elim (hcps₁ cp) (hcps₂ cp)
      · have hbytes : utf8Text ('\\' :: esc ++ text) = byte '\\' :: utf8Text esc ++ utf8Text text := by
          rw [List.cons_append, utf8Text_cons_ascii (by decide), utf8Text_append]
          rfl
        cases empty₁ with
        | true =>
          obtain rfl : esc = ['u', '\x7b', '}'] := hesc
          rw [utf8Text_append]
          cases empty₂ with
          | true => exact .more htext
          | false => exact .last htext
        | false =>
          have hescape := hesc (utf8Text text) (utf8Text rest₂) (utf8Text_append text rest₂)
          rw [hbytes]
          cases empty₂ with
          | true => exact .escape hescape htext
          | false =>
            rw [List.flatMap_append]
            exact .escape hescape htext
    next hescape =>
    split at h
    next hend =>
      simp only [Option.some.injEq, Prod.mk.injEq] at h
      obtain ⟨rfl, rfl, rfl⟩ := h
      refine ⟨[], rfl, ?_, nofun, .nil⟩
      rcases hend with rfl | ⟨rfl, rfl, hhead⟩
      · have hascii : c.toNat < 0x80 := by
          simp only [List.mem_cons, List.not_mem_nil, or_false] at hquote
          rcases hquote with rfl | rfl | rfl <;> decide
        exact ⟨utf8Text cs, .inl (utf8Text_cons_ascii hascii cs)⟩
      · obtain ⟨ds, rfl⟩ := List.head?_eq_some_iff.mp hhead
        exact ⟨utf8Text ds, .inr ⟨rfl, rfl⟩⟩
    next hend =>
      rw [Option.map_eq_some_iff] at h
      obtain ⟨⟨cps', empty', rest'⟩, hscan, heq⟩ := h
      simp only [Prod.mk.injEq] at heq
      obtain ⟨rfl, rfl, rfl⟩ := heq
      obtain ⟨text, rfl, hends, hcps, htext⟩ := ih hscan
      have hc : c ∉ [quote, '\\', '\n', '\r'] := by grind
      have hdollar : quote = '`' → c = '$' → (utf8Text text).head? ≠ some (byte '\x7b') := by
        intro hq hd hhead
        obtain ⟨ds, rfl⟩ := List.head?_eq_some_iff.mp ((head?_utf8Text_eq_iff (by decide) text).mp hhead)
        exact hend (.inr ⟨hq, hd, rfl⟩)
      refine ⟨c :: text, rfl, hends, List.forall_mem_cons.mpr ⟨char_lt c, hcps⟩, ?_⟩
      have hbytes : utf8Text (c :: text) = String.utf8EncodeChar c ++ utf8Text text := rfl
      rw [hbytes]
      cases empty' with
      | true => exact .char hc hdollar htext
      | false => exact .char hc hdollar htext

/-- One round of the loop: the code points it appends, and if it reads braces without a digit. -/
def ReadsPiece (quote : Char) (cs ds : List Char) (cps : List ℕ) (empty : Bool) : Prop :=
  ∀ n, scanText quote (n + 1) cs = (scanText quote n ds).map fun (cps', empty', rest) =>
    (cps ++ cps', empty || empty', rest)

section Pieces

variable {quote : Char} {cs : List Char}

theorem readsPiece_char {c : Char} {text tail : List UInt8} (hc : c ∉ [quote, '\\', '\n', '\r'])
    (hdollar : quote = '`' → c = '$' → (text ++ tail).head? ≠ some (byte '\x7b'))
    (hcs : utf8Text cs = String.utf8EncodeChar c ++ (text ++ tail)) :
    ∃ ds, utf8Text ds = text ++ tail ∧ ReadsPiece quote cs ds [c.toNat] false := by
  rw [utf8EncodeChar_eq_utf8] at hcs
  obtain ⟨ds, rfl, hds⟩ := utf8Text_eq_append hcs
  refine ⟨ds, hds, fun n => ?_⟩
  have hbrace : quote = '`' → c = '$' → ds.head? ≠ some '\x7b' := by
    intro hq hd hhead
    exact hdollar hq hd (hds ▸ (head?_utf8Text_eq_iff (by decide) ds).mpr hhead)
  have hend : ¬ (c = quote ∨ quote = '`' ∧ c = '$' ∧ ds.head? = some '\x7b') := by grind
  have hbreak : ¬ (c = '\r' ∨ c = '\n') := by grind
  have hescape : c ≠ '\\' := by grind
  rw [scanText, if_neg hbreak, if_neg hescape, if_neg hend]
  cases scanText quote n ds <;> rfl

theorem readsPiece_escape {text esc tail : List UInt8} {vs : List UInt16} (hesc : Escape text esc vs)
    (htail : Follows tail) (hcs : utf8Text cs = byte '\\' :: (esc ++ (text ++ tail))) :
    ∃ ds cps, utf8Text ds = text ++ tail ∧ cps.flatMap units = vs ∧
      ReadsPiece quote cs ds cps false := by
  obtain ⟨cs₁, rfl, hcs₁⟩ := utf8Text_eq_cons (by decide) hcs
  obtain ⟨cps, ds, hscan, hds, hcps⟩ := scanEscape_of_escape hesc htail hcs₁
  refine ⟨ds, cps, hds, hcps, fun n => ?_⟩
  rw [scanText, if_neg (by decide), if_pos rfl, hscan]
  simp only [Option.bind_eq_bind, Option.bind_some]
  cases scanText quote n ds <;> rfl

theorem readsPiece_lineBreak {seq text tail : List UInt8} (hquote : quote = '`')
    (hseq : seq = [byte '\n'] ∨ seq = [byte '\r', byte '\n'] ∨
      seq = [byte '\r'] ∧ (text ++ tail).head? ≠ some (byte '\n'))
    (hcs : utf8Text cs = seq ++ (text ++ tail)) :
    ∃ ds, utf8Text ds = text ++ tail ∧ ReadsPiece quote cs ds [LEX_CHAR_LF] false := by
  rcases hseq with rfl | rfl | ⟨rfl, hnext⟩
  · obtain ⟨ds, rfl, hds⟩ := utf8Text_eq_cons (by decide) hcs
    refine ⟨ds, hds, fun n => ?_⟩
    rw [scanText, if_pos (.inr rfl), if_pos hquote]
    simp
  · obtain ⟨cs₁, rfl, hcs₁⟩ := utf8Text_eq_cons (by decide) hcs
    obtain ⟨ds, rfl, hds⟩ := utf8Text_eq_cons (by decide) hcs₁
    refine ⟨ds, hds, fun n => ?_⟩
    rw [scanText, if_pos (.inl rfl), if_pos hquote]
    simp
  · obtain ⟨ds, rfl, hds⟩ := utf8Text_eq_cons (by decide) hcs
    have hds : utf8Text ds = text ++ tail := hds
    refine ⟨ds, hds, fun n => ?_⟩
    have hhead : ds.head? ≠ some '\n' := by
      intro hhead
      exact hnext (hds ▸ (head?_utf8Text_eq_iff (by decide) ds).mpr hhead)
    rw [scanText, if_pos (.inl rfl), if_pos hquote]
    simp [hhead]

theorem readsPiece_emptyBraces {rest : List UInt8} (hcs : utf8Text cs = emptyBraces ++ rest) :
    ∃ ds, utf8Text ds = rest ∧ ReadsPiece quote cs ds [0] true := by
  have hbytes : emptyBraces = [byte '\\', byte 'u', byte '\x7b', byte '}'] := rfl
  rw [hbytes] at hcs
  obtain ⟨cs₁, rfl, hcs₁⟩ := utf8Text_eq_cons (by decide) hcs
  obtain ⟨cs₂, rfl, hcs₂⟩ := utf8Text_eq_cons (by decide) hcs₁
  obtain ⟨cs₃, rfl, hcs₃⟩ := utf8Text_eq_cons (by decide) hcs₂
  obtain ⟨ds, rfl, hds⟩ := utf8Text_eq_cons (by decide) hcs₃
  refine ⟨ds, hds, fun n => ?_⟩
  have hscan : scanEscape ('u' :: '\x7b' :: '}' :: ds) = some ([0], true, ds) := rfl
  rw [scanText, if_neg (by decide), if_pos rfl, hscan]
  simp only [Option.bind_eq_bind, Option.bind_some]
  cases scanText quote n ds <;> rfl

theorem scanText_of_ends (hquote : quote ∈ ['"', '\'', '`']) (h : Ends quote (utf8Text cs)) (n : ℕ) :
    scanText quote (n + 1) cs = some ([], false, cs) := by
  have hascii : quote.toNat < 0x80 ∧ quote ≠ '\r' ∧ quote ≠ '\n' ∧ quote ≠ '\\' := by
    simp only [List.mem_cons, List.not_mem_nil, or_false] at hquote
    rcases hquote with rfl | rfl | rfl <;> decide
  obtain ⟨hlt, hcr, hlf, hescape⟩ := hascii
  obtain ⟨rest, hcs | ⟨hq, hcs⟩⟩ := h
  · obtain ⟨ds, rfl, -⟩ := utf8Text_eq_cons hlt hcs
    simp [scanText, hcr, hlf, hescape]
  · obtain ⟨cs₁, rfl, hcs₁⟩ := utf8Text_eq_cons (by decide) hcs
    obtain ⟨ds, rfl, -⟩ := utf8Text_eq_cons (by decide) hcs₁
    simp [scanText, hq]

/-- The loop reads to the end of the literal. -/
def ReadsTo (quote : Char) (tail : List UInt8) (n : ℕ) (cs : List Char) (empty : Bool)
    (us : List UInt16) : Prop :=
  ∃ cps rest, scanText quote n cs = some (cps, empty, rest) ∧ utf8Text rest = tail ∧
    cps.flatMap units = us

theorem ReadsPiece.readsTo {ds : List Char} {cps : List ℕ} {empty empty' : Bool} {n : ℕ}
    {tail : List UInt8} {us : List UInt16} (h : ReadsPiece quote cs ds cps empty) (hn : 0 < n)
    (hds : ReadsTo quote tail (n - 1) ds empty' us) :
    ReadsTo quote tail n cs (empty || empty') (cps.flatMap units ++ us) := by
  obtain ⟨n, rfl⟩ : ∃ k, n = k + 1 := ⟨n - 1, by omega⟩
  obtain ⟨cps', rest, hscan, hrest, rfl⟩ := hds
  refine ⟨_, rest, ?_, hrest, List.flatMap_append⟩
  rw [h n, show n = n + 1 - 1 from rfl, hscan, Option.map_some]

end Pieces

section Complete

variable {quote : Char} (hquote : quote ∈ ['"', '\'', '`']) {text tail : List UInt8}
include hquote

/-- A text of the grammar is read to its end. -/
theorem scanText_of_stringText {us : List UInt16} (h : StringText quote text us) (hends : Ends quote tail)
    {cs : List Char} (hcs : utf8Text cs = text ++ tail) {n : ℕ} (hn : text.length < n) :
    ReadsTo quote tail n cs false us := by
  have hfollows := Follows.of_ends hquote hends
  induction h generalizing cs n with
  | nil =>
    obtain ⟨n, rfl⟩ : ∃ k, n = k + 1 := ⟨n - 1, by omega⟩
    have hcs' : utf8Text cs = tail := hcs
    exact ⟨[], cs, scanText_of_ends hquote (hcs' ▸ hends) n, hcs', rfl⟩
  | @char c text us hc hdollar _ ih =>
    rw [List.append_assoc] at hcs
    obtain ⟨ds, hds, hpiece⟩ := readsPiece_char hc (fun hq hd => Ends.dollar hends hq (hdollar hq hd)) hcs
    have hpos := List.length_pos_iff.mpr (utf8_ne_nil c.toNat)
    rw [utf8EncodeChar_eq_utf8, List.length_append] at hn
    simpa using hpiece.readsTo (by omega) (@ih ds hds (n - 1) (by omega))
  | @escape text esc us vs hesc _ ih =>
    rw [List.append_assoc] at hcs
    obtain ⟨ds, cps', hds, rfl, hpiece⟩ := readsPiece_escape hesc hfollows hcs
    rw [List.length_append, List.length_cons] at hn
    exact hpiece.readsTo (by omega) (@ih ds hds (n - 1) (by omega))
  | @lineFeed text us hq _ ih =>
    obtain ⟨ds, hds, hpiece⟩ := readsPiece_lineBreak hq (.inl rfl) hcs
    rw [List.length_cons] at hn
    exact hpiece.readsTo (by omega) (@ih ds hds (n - 1) (by omega))
  | @carriageReturnLineFeed text us hq _ ih =>
    obtain ⟨ds, hds, hpiece⟩ := readsPiece_lineBreak hq (.inr (.inl rfl)) hcs
    rw [List.length_cons, List.length_cons] at hn
    exact hpiece.readsTo (by omega) (@ih ds hds (n - 1) (by omega))
  | @carriageReturn text us hq hnext _ ih =>
    obtain ⟨ds, hds, hpiece⟩ := readsPiece_lineBreak hq
      (.inr (.inr ⟨rfl, hfollows.append hnext⟩)) hcs
    rw [List.length_cons] at hn
    exact hpiece.readsTo (by omega) (@ih ds hds (n - 1) (by omega))

/-- So is one with braces without a digit, and they are noticed. -/
theorem scanText_of_emptyBraces (h : WithEmptyBraces quote text) (hends : Ends quote tail)
    {cs : List Char} (hcs : utf8Text cs = text ++ tail) {n : ℕ} (hn : text.length < n) :
    ∃ us, ReadsTo quote tail n cs true us := by
  have hfollows := Follows.of_ends hquote hends
  have hlength : emptyBraces.length = 4 := rfl
  induction h generalizing cs n with
  | last htext =>
    rw [List.append_assoc] at hcs
    obtain ⟨ds, hds, hpiece⟩ := readsPiece_emptyBraces hcs
    rw [List.length_append, hlength] at hn
    exact ⟨_, hpiece.readsTo (by omega) (scanText_of_stringText hquote htext hends hds (by omega))⟩
  | more _ ih =>
    rw [List.append_assoc] at hcs
    obtain ⟨ds, hds, hpiece⟩ := readsPiece_emptyBraces hcs
    rw [List.length_append, hlength] at hn
    obtain ⟨us, h⟩ := @ih ds hds (n - 1) (by omega)
    exact ⟨_, hpiece.readsTo (by omega) h⟩
  | @char c text hc hdollar _ ih =>
    rw [List.append_assoc] at hcs
    obtain ⟨ds, hds, hpiece⟩ := readsPiece_char hc (fun hq hd => Ends.dollar hends hq (hdollar hq hd)) hcs
    have hpos := List.length_pos_iff.mpr (utf8_ne_nil c.toNat)
    rw [utf8EncodeChar_eq_utf8, List.length_append] at hn
    obtain ⟨us, h⟩ := @ih ds hds (n - 1) (by omega)
    exact ⟨_, hpiece.readsTo (by omega) h⟩
  | @escape text esc vs hesc _ ih =>
    rw [List.append_assoc] at hcs
    obtain ⟨ds, cps', hds, -, hpiece⟩ := readsPiece_escape hesc hfollows hcs
    rw [List.length_append, List.length_cons] at hn
    obtain ⟨us, h⟩ := @ih ds hds (n - 1) (by omega)
    exact ⟨_, hpiece.readsTo (by omega) h⟩
  | @lineBreak text seq hq hseq _ ih =>
    rw [List.append_assoc] at hcs
    have hseq' := hseq.imp_right fun h => h.imp_right fun ⟨h, hnext⟩ =>
      (⟨h, hfollows.append hnext⟩ : _ ∧ (text ++ tail).head? ≠ some (byte '\n'))
    obtain ⟨ds, hds, hpiece⟩ := readsPiece_lineBreak hq hseq' hcs
    have hpos : 0 < seq.length := by rcases hseq with rfl | rfl | ⟨rfl, -⟩ <;> simp
    rw [List.length_append] at hn
    obtain ⟨us, h⟩ := @ih ds hds (n - 1) (by omega)
    exact ⟨_, hpiece.readsTo (by omega) h⟩

end Complete

end Lexer

/-! ## String literals -/

/-- The bytes of a string, for its code units: each code point in UTF-8, a surrogate too. -/
def Denotes (bytes : List UInt8) (us : List UInt16) : Prop :=
  ∃ cps : List ℕ, (∀ cp ∈ cps, cp < 0x110000) ∧ bytes = cps.flatMap utf8 ∧ us = cps.flatMap units

theorem Denotes.unique {bytes : List UInt8} {us vs : List UInt16} (h : Denotes bytes us)
    (h' : Denotes bytes vs) : us = vs := by
  obtain ⟨cps, hcps, rfl, rfl⟩ := h
  obtain ⟨cps', hcps', heq, rfl⟩ := h'
  rw [Lexer.flatMap_utf8_inj hcps hcps' heq]

/-- The lexer takes a text, from behind the opening quote on, for a literal just if it starts with one:
its string is the value of the literal, and it stops behind the closing quote. -/
def ScansStringLiteral (quote : Char) (cs : List Char) : Prop :=
  ∀ us rest, (∃ bytes, Lexer.scanString quote.toNat (utf8Text cs) false = some (bytes, rest) ∧
      Denotes bytes us) ↔
    ∃ text, utf8Text cs = text ++ byte quote :: rest ∧ StringText quote text us

theorem denotes_encode {cps : List ℕ} (h : ∀ cp ∈ cps, cp < 0x110000) :
    Denotes (cps.flatMap utf8Encode) (cps.flatMap units) :=
  ⟨cps, h, List.flatMap_congr fun cp hcp => utf8Encode_eq_utf8 (h cp hcp), rfl⟩

/-- The lexer is right unless the text is a literal but for braces without a digit. -/
theorem scansStringLiteral_iff {quote : Char} (hquote : quote ∈ ['"', '\'']) (cs : List Char) :
    ScansStringLiteral quote cs ↔
      ¬ ∃ text rest, utf8Text cs = text ++ byte quote :: rest ∧ WithEmptyBraces quote text := by
  have hquotes : quote ∈ ['"', '\'', '`'] := by
    simp only [List.mem_cons, List.not_mem_nil, or_false] at hquote ⊢
    exact hquote.imp_right .inl
  have htemplate : quote ≠ '`' := by
    rintro rfl
    exact absurd hquote (by decide)
  have hcode := Lexer.scanString_utf8Text hquotes cs false
  simp only [if_neg htemplate] at hcode
  have hends {rest : List UInt8} : Ends quote (byte quote :: rest) := ⟨rest, .inl rfl⟩
  have hlength {text tail : List UInt8} (h : utf8Text cs = text ++ tail) :
      text.length < (utf8Text cs).length + 1 := by
    rw [h, List.length_append]
    omega
  constructor
  · rintro h ⟨text, rest, hcs, hempty⟩
    obtain ⟨_, cps, rest', hscan, hrest, -⟩ := Lexer.scanText_of_emptyBraces hquotes hempty hends hcs
      (hlength hcs)
    obtain ⟨-, -, -, hcps, -⟩ := Lexer.scanText_sound hquotes hscan
    rw [hscan, Option.map_some] at hcode
    obtain ⟨text', hcs', htext'⟩ := (h _ _).mp ⟨_, hcode, denotes_encode hcps⟩
    obtain ⟨_, _, hscan', -, -⟩ := Lexer.scanText_of_stringText hquotes htext' hends hcs' (hlength hcs')
    rw [hscan] at hscan'
    cases hscan'
  · intro hnone us rest
    constructor
    · rintro ⟨bytes, hbytes, hdenotes⟩
      rw [hbytes, eq_comm, Option.map_eq_some_iff] at hcode
      obtain ⟨⟨cps, empty, rest'⟩, hscan, heq⟩ := hcode
      cases heq
      obtain ⟨text, rfl, hstop, hcps, htext⟩ := Lexer.scanText_sound hquotes hscan
      obtain ⟨tail, hrest | ⟨hq, -⟩⟩ := hstop
      swap
      · exact absurd hq htemplate
      have hcs : utf8Text (text ++ rest') = utf8Text text ++ byte quote :: (utf8Text rest').tail := by
        rw [utf8Text_append, hrest, List.tail_cons]
      cases empty with
      | true => exact absurd ⟨_, _, hcs, htext⟩ hnone
      | false =>
        obtain rfl := hdenotes.unique (denotes_encode hcps)
        exact ⟨utf8Text text, hcs, htext⟩
    · rintro ⟨text, hcs, htext⟩
      obtain ⟨cps, rest', hscan, hrest, rfl⟩ := Lexer.scanText_of_stringText hquotes htext hends hcs
        (hlength hcs)
      obtain ⟨-, -, -, hcps, -⟩ := Lexer.scanText_sound hquotes hscan
      rw [hscan, Option.map_some, hrest] at hcode
      exact ⟨_, hcode, denotes_encode hcps⟩

/-- The literal `"\u{}"` is taken for that of the null character. -/
theorem empty_braces_scanned : ¬ ScansStringLiteral '"' ['\\', 'u', '\x7b', '}', '"'] := by
  intro h
  have hscan : Lexer.scanString '"'.toNat (utf8Text ['\\', 'u', '\x7b', '}', '"']) false =
      some ([0], []) := by rfl
  have hdenotes : Denotes [0] [0] := ⟨[0], by simp, rfl, rfl⟩
  obtain ⟨text, hcs, htext⟩ := (h [0] []).mp ⟨[0], hscan, hdenotes⟩
  have hends : Ends '"' [byte '"'] := ⟨[], .inl rfl⟩
  have hlength : text.length < 5 + 1 := by
    have := congrArg List.length hcs
    simp [utf8Text_cons_ascii] at this
    omega
  obtain ⟨_, _, hread, -, -⟩ := Lexer.scanText_of_stringText (by decide) htext hends hcs hlength
  cases hread

/-- The literal `'a\x62'`. -/
theorem scansStringLiteral_example : ScansStringLiteral '\'' ['a', '\\', 'x', '6', '2', '\''] := by
  refine (scansStringLiteral_iff (by decide) _).mpr ?_
  rintro ⟨text, rest, hcs, hempty⟩
  have hends : Ends '\'' (byte '\'' :: rest) := ⟨rest, .inl rfl⟩
  have hlength : text.length < 6 + 1 := by
    have := congrArg List.length hcs
    simp [utf8Text_cons_ascii] at this
    omega
  obtain ⟨_, _, _, hread, -⟩ := Lexer.scanText_of_emptyBraces (by decide) hempty hends hcs hlength
  cases hread

end ArkTs2abc.Es2panda
