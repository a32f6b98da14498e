import ArkTs2abc.Es2panda.Util.UString

/-!
# String literals in the lexer

The iterator is what is left of the source. Text without escapes is taken over from
the source as a whole; an escape appends the UTF-8 bytes of one code point, also of
a surrogate.

## Main definitions

* `scanStringUnicodePart` — behind a backslash.
* `scanString` — `Lexer::ScanString`, for either quote and for template strings.
* `StringText` — the texts between quotes, and the code units they stand for.
-/

namespace ArkTs2abc.Es2panda

open Unicode

namespace Lexer

/-! ## The iterator -/

def LEX_CHAR_LF : ℕ := 0x0A
def LEX_CHAR_CR : ℕ := 0x0D
def LEX_CHAR_LS : ℕ := 0x2028
def LEX_CHAR_PS : ℕ := 0x2029

/-- `Peek`: a `char` is signed. -/
def peek : List UInt8 → ℕ
  | [] => INVALID_CP
  | b :: _ => if b.toNat < 0x80 then b.toNat else 0xFFFFFF00 + b.toNat

/-- `SkipCp`. -/
def skipCp : List UInt8 → List UInt8
  | [] => []
  | b :: iter =>
    let cu0 := b.toNat
    if cu0 < 0x80 then iter
    else if cu0 &&& 0xE0 = 0xC0 then iter.drop 1
    else if cu0 &&& 0xF0 = 0xE0 then iter.drop 2
    else if cu0 &&& 0xF8 = 0xF0 ∧ cu0 ≤ 0xF4 then iter.drop 3
    else iter

/-- `SourceView` from one position of the iterator to a later one. -/
def sourceView (first last : List UInt8) : List UInt8 := first.take (first.length - last.length)

/-! ## Escapes -/

def isDecimalDigit (cp : ℕ) : Bool := '0'.toNat ≤ cp ∧ cp ≤ '9'.toNat

def isHexDigit (ch : ℕ) : Bool :=
  isDecimalDigit ch || ('A'.toNat ≤ ch ∧ ch ≤ 'F'.toNat) || ('a'.toNat ≤ ch ∧ ch ≤ 'f'.toNat)

def hexValue (ch : ℕ) : ℕ :=
  if ch < 'A'.toNat then ch - '0'.toNat else (ch - 'A'.toNat + 10) &&& 0xF

/-- The loop of `ScanHexEscape`, for `n` more digits. -/
def scanHexEscape : ℕ → ℕ → List UInt8 → Option (ℕ × List UInt8)
  | 0, code, iter => some (code, iter)
  | n + 1, code, iter =>
    if isHexDigit (peek iter) then scanHexEscape n (code * 16 + hexValue (peek iter)) iter.tail
    else none

/-- The loop of `ScanUnicodeCodePointEscape`. -/
def scanUnicodeCodePointEscape (code : ℕ) : List UInt8 → Option (ℕ × List UInt8)
  | [] => none
  | b :: iter =>
    let cp := peek (b :: iter)
    if isHexDigit cp then
      let code := code * 16 + hexValue cp
      if 0x10FFFF < code then none else scanUnicodeCodePointEscape code iter
    else if cp = '}'.toNat then some (code, iter) else none

/-- The iterator stands before the `u`. -/
def scanUnicodeEscapeSequence (iter : List UInt8) : Option (ℕ × List UInt8) :=
  if peek iter.tail = '\x7b'.toNat then scanUnicodeCodePointEscape 0 iter.tail.tail
  else scanHexEscape 4 0 iter.tail

/-- The escapes of a single letter. -/
def singleEscape (cp : ℕ) : Option ℕ :=
  if cp = 'b'.toNat then some 0x08
  else if cp = 't'.toNat then some 0x09
  else if cp = 'n'.toNat then some LEX_CHAR_LF
  else if cp = 'v'.toNat then some 0x0B
  else if cp = 'f'.toNat then some 0x0C
  else if cp = 'r'.toNat then some LEX_CHAR_CR
  else none

/-- The string and the iterator behind one escape; an error is `none`. -/
def scanStringUnicodePart (str iter : List UInt8) : Option (List UInt8 × List UInt8) := do
  let (cp, next) ← decodeCP iter
  if cp = INVALID_CP then none
  else if cp = LEX_CHAR_CR then
    let iter := if peek iter.tail = LEX_CHAR_LF then iter.tail else iter
    some (str, iter.tail)
  else if cp = LEX_CHAR_LS ∨ cp = LEX_CHAR_PS ∨ cp = LEX_CHAR_LF then some (str, next)
  else match singleEscape cp with
    | some c => some (str ++ utf8Encode c, next)
    | none =>
      if cp = 'x'.toNat then do
        let (cp, iter) ← scanHexEscape 2 0 iter.tail
        some (str ++ utf8Encode cp, iter)
      else if cp = 'u'.toNat then do
        let (cp, iter) ← scanUnicodeEscapeSequence iter
        some (str ++ utf8Encode cp, iter)
      else if cp = '0'.toNat ∧ isDecimalDigit (peek iter.tail) = false then
        some (str ++ utf8Encode 0, next)
      else if isDecimalDigit (peek iter) then none
      else some (str ++ utf8Encode cp, next)

/-! ## The literal -/

/-- The end of `ScanString`: the string of the token, and the iterator. -/
def finishString (quote : ℕ) (startPos iter escapeEnd str : List UInt8) (hasEscape : Bool) :
    List UInt8 × List UInt8 :=
  let src := if hasEscape then str ++ sourceView escapeEnd iter else sourceView startPos iter
  (src, if quote = '`'.toNat then iter else iter.tail)

/-- The loop of `ScanString`, for at most `n` rounds. -/
def scanStringLoop (quote : ℕ) (startPos : List UInt8) :
    ℕ → (iter escapeEnd str : List UInt8) → (hasEscape : Bool) → Option (List UInt8 × List UInt8)
  | 0, _, _, _, _ => none
  | n + 1, iter, escapeEnd, str, hasEscape =>
    let cp := peek iter
    if cp = INVALID_CP then none
    else if cp = LEX_CHAR_CR ∨ cp = LEX_CHAR_LF then
      if quote ≠ '`'.toNat then none
      else
        let str := str ++ sourceView escapeEnd iter
        let iter := if cp = LEX_CHAR_CR ∧ peek iter.tail = LEX_CHAR_LF then iter.tail else iter
        scanStringLoop quote startPos n iter.tail iter.tail (str ++ utf8Encode LEX_CHAR_LF) true
    else if cp = '\\'.toNat then do
      let (str, iter) ← scanStringUnicodePart (str ++ sourceView escapeEnd iter) iter.tail
      scanStringLoop quote startPos n iter iter str true
    else if cp = '`'.toNat ∨ cp = '\''.toNat ∨ cp = '"'.toNat then
      if quote = cp then some (finishString quote startPos iter escapeEnd str hasEscape)
      else scanStringLoop quote startPos n iter.tail escapeEnd str hasEscape
    else if cp = '$'.toNat then
      if quote = '`'.toNat ∧ peek iter.tail = '\x7b'.toNat then
        some (finishString quote startPos iter escapeEnd str hasEscape)
      else scanStringLoop quote startPos n iter.tail escapeEnd str hasEscape
    else scanStringLoop quote startPos n (skipCp iter) escapeEnd str hasEscape

/-- `ScanString`: the string of the token, and what is left of the source. -/
def scanString (quote : ℕ) (iter : List UInt8) (hasEscape : Bool) : Option (List UInt8 × List UInt8) :=
  scanStringLoop quote iter (iter.length + 1) iter iter [] hasEscape

/-- The bytes that are emitted for a literal, from behind its opening quote on. -/
def literalMutf8 (quote : Char) (source : List UInt8) (hasEscape : Bool) : Option (List UInt8) := do
  let (src, _) ← scanString quote.toNat source hasEscape
  StringView.mutf8 src

end Lexer

/-! ## What a text between quotes stands for -/

/-- The value of a hexadecimal digit. -/
def hexDigit (b : UInt8) : Option ℕ :=
  if byte '0' ≤ b ∧ b ≤ byte '9' then some (b.toNat - '0'.toNat)
  else if byte 'A' ≤ b ∧ b ≤ byte 'F' then some (b.toNat - 'A'.toNat + 10)
  else if byte 'a' ≤ b ∧ b ≤ byte 'f' then some (b.toNat - 'a'.toNat + 10)
  else none

/-- The number some digits stand for, behind those of `n`. -/
def hexNumber (n : ℕ) : List UInt8 → Option ℕ
  | [] => some n
  | b :: digits => (hexDigit b).bind fun d => hexNumber (n * 16 + d) digits

/-- Escape sequences, without the backslash, and their code units, before a text. -/
inductive Escape (text : List UInt8) : List UInt8 → List UInt16 → Prop where
  | hex {digits : List UInt8} {n : ℕ} (hlen : digits.length = 2) (hn : hexNumber 0 digits = some n) :
      Escape text (byte 'x' :: digits) (units n)
  | unicode {digits : List UInt8} {n : ℕ} (hlen : digits.length = 4)
      (hn : hexNumber 0 digits = some n) : Escape text (byte 'u' :: digits) (units n)
  | codePoint {digits : List UInt8} {n : ℕ} (hne : digits ≠ []) (hn : hexNumber 0 digits = some n)
      (hmax : n ≤ 0x10FFFF) : Escape text (byte 'u' :: byte '\x7b' :: digits ++ [byte '}']) (units n)
  /-- The null character, with no digit behind it. -/
  | null (hnext : ∀ b ∈ text.head?, ¬ (byte '0' ≤ b ∧ b ≤ byte '9')) : Escape text [byte '0'] [0]
  | single {c : Char} {v : UInt16} (hc : (c, v) ∈ [('b', 8), ('t', 9), ('n', 10), ('v', 11), ('f', 12),
      ('r', 13)]) : Escape text [byte c] [v]
  /-- Any other character stands for itself. -/
  | char {c : Char} (hc : c ∉ ['b', 't', 'n', 'v', 'f', 'r', 'x', 'u', '\n', '\r', '\u2028', '\u2029'])
      (hdigit : ¬ ('0' ≤ c ∧ c ≤ '9')) : Escape text (String.utf8EncodeChar c) (units c.toNat)
  /-- A line is continued. -/
  | continued {c : Char} (hc : c ∈ ['\n', '\u2028', '\u2029']) : Escape text (String.utf8EncodeChar c) []
  | continuedCRLF : Escape text [byte '\r', byte '\n'] []
  | continuedCR (hnext : text.head? ≠ some (byte '\n')) : Escape text [byte '\r'] []

/-- The texts a literal has between its quotes, and the code units of its value. Template strings may
have line breaks, and end before an expression. -/
inductive StringText (quote : Char) : List UInt8 → List UInt16 → Prop where
  | nil : StringText quote [] []
  | char {c : Char} {text : List UInt8} {us : List UInt16} (hc : c ∉ [quote, '\\', '\n', '\r'])
      (hdollar : quote = '`' → c = '$' → text.head? ≠ some (byte '\x7b')) :
      StringText quote text us → StringText quote (String.utf8EncodeChar c ++ text) (units c.toNat ++ us)
  | escape {text esc : List UInt8} {us vs : List UInt16} (hesc : Escape text esc vs) :
      StringText quote text us → StringText quote (byte '\\' :: esc ++ text) (vs ++ us)
  | lineFeed {text : List UInt8} {us : List UInt16} (hquote : quote = '`') :
      StringText quote text us → StringText quote (byte '\n' :: text) (unit '\n' :: us)
  | carriageReturnLineFeed {text : List UInt8} {us : List UInt16} (hquote : quote = '`') :
      StringText quote text us → StringText quote (byte '\r' :: byte '\n' :: text) (unit '\n' :: us)
  | carriageReturn {text : List UInt8} {us : List UInt16} (hquote : quote = '`')
      (hnext : text.head? ≠ some (byte '\n')) :
      StringText quote text us → StringText quote (byte '\r' :: text) (unit '\n' :: us)

/-- What ends a literal: its quote, or the start of an expression in a template string. -/
def Ends (quote : Char) (tail : List UInt8) : Prop :=
  ∃ rest, tail = byte quote :: rest ∨ quote = '`' ∧ tail = byte '$' :: byte '\x7b' :: rest

namespace Lexer

/-! ## The iterator on well-formed text -/

theorem peek_cons {b : UInt8} (h : b.toNat < 0x80) (iter : List UInt8) : peek (b :: iter) = b.toNat :=
  if_pos h

theorem sourceView_append (text rest : List UInt8) : sourceView (text ++ rest) rest = text := by
  simp [sourceView]

theorem exists_utf8_eq {cp : ℕ} (hge : 0x80 ≤ cp) (hlt : cp < 0x110000) :
    ∃ b bytes, utf8 cp = b :: bytes ∧ 0x80 ≤ b.toNat ∧ b.toNat ≤ 0xF4 := by
  unfold utf8
  split_ifs
  · omega
  all_goals
    refine ⟨_, _, rfl, ?_⟩
    rw [toNat_lead (by omega)]
    omega

theorem le_peek_utf8 {cp : ℕ} (hge : 0x80 ≤ cp) (hlt : cp < 0x110000) (rest : List UInt8) :
    0xFFFFFF80 ≤ peek (utf8 cp ++ rest) ∧ peek (utf8 cp ++ rest) < INVALID_CP := by
  obtain ⟨b, bytes, heq, hb₁, hb₂⟩ := exists_utf8_eq hge hlt
  rw [heq, List.cons_append, peek, if_neg (by omega), INVALID_CP]
  omega

theorem skipCp_of_decodeCP {iter rest : List UInt8} {cp : ℕ} (h : decodeCP iter = some (cp, rest)) :
    skipCp iter = rest := by
  cases iter with
  | nil =>
    cases h
    rfl
  | cons b iter =>
    dsimp only [decodeCP, skipCp] at h ⊢
    split_ifs at h ⊢
    case pos | neg =>
      cases h
      rfl
    all_goals
      split at h <;> cases h
      rfl

theorem skipCp_utf8_append {cp : ℕ} (h : cp < 0x110000) (rest : List UInt8) :
    skipCp (utf8 cp ++ rest) = rest :=
  skipCp_of_decodeCP (decodeCP_utf8_append h rest)

/-! ## Digits -/

theorem hexDigit_spec {b : UInt8} {d : ℕ} (h : hexDigit b = some d) (iter : List UInt8) :
    isHexDigit (peek (b :: iter)) = true ∧ hexValue (peek (b :: iter)) = d ∧ d < 16 := by
  have hmask (n : ℕ) : n &&& 0xF = n % 0x10 := and_mask n 4
  have hzero : (byte '0').toNat = 0x30 := rfl
  have hnine : (byte '9').toNat = 0x39 := rfl
  have hA : (byte 'A').toNat = 0x41 := rfl
  have hF : (byte 'F').toNat = 0x46 := rfl
  have ha : (byte 'a').toNat = 0x61 := rfl
  have hf : (byte 'f').toNat = 0x66 := rfl
  simp only [hexDigit, UInt8.le_iff_toNat_le, hzero, hnine, hA, hF, ha, hf, Char.reduceToNat] at h
  simp only [isHexDigit, isDecimalDigit, hexValue, hmask, Char.reduceToNat]
  split_ifs at h with h₁ h₂ h₃
  · cases h
    rw [peek_cons (by omega)]
    grind
  · cases h
    rw [peek_cons (by omega)]
    grind
  · cases h
    rw [peek_cons (by omega)]
    grind

section

variable {digits : List UInt8} {k n : ℕ} (h : hexNumber k digits = some n)
include h

theorem scanHexEscape_append (rest : List UInt8) : scanHexEscape digits.length k (digits ++ rest) = some (n, rest) := by
  induction digits generalizing k with
  | nil =>
    cases h
    rfl
  | cons b digits ih =>
    rw [hexNumber, Option.bind_eq_some_iff] at h
    obtain ⟨d, hd, h⟩ := h
    obtain ⟨hdigit, hvalue, -⟩ := hexDigit_spec hd (digits ++ rest)
    rw [List.length_cons, List.cons_append, scanHexEscape, if_pos hdigit, hvalue]
    exact ih h

theorem hexNumber_bounds :
    k ≤ n ∧ n < (k + 1) * 16 ^ digits.length := by
  induction digits generalizing k with
  | nil =>
    cases h
    simp
  | cons b digits ih =>
    rw [hexNumber, Option.bind_eq_some_iff] at h
    obtain ⟨d, hd, h⟩ := h
    obtain ⟨-, -, hlt⟩ := hexDigit_spec hd []
    obtain ⟨hle, hub⟩ := ih h
    refine ⟨by omega, hub.trans_le ?_⟩
    rw [List.length_cons, Nat.pow_succ, Nat.mul_comm (16 ^ _), ← Nat.mul_assoc]
    exact Nat.mul_le_mul_right _ (by omega)

theorem scanUnicodeCodePointEscape_append (hmax : n ≤ 0x10FFFF) (rest : List UInt8) :
    scanUnicodeCodePointEscape k (digits ++ byte '}' :: rest) = some (n, rest) := by
  induction digits generalizing k with
  | nil =>
    cases h
    rfl
  | cons b digits ih =>
    rw [hexNumber, Option.bind_eq_some_iff] at h
    obtain ⟨d, hd, h⟩ := h
    obtain ⟨hdigit, hvalue, -⟩ := hexDigit_spec hd (digits ++ byte '}' :: rest)
    have hle := (hexNumber_bounds h).1
    rw [List.cons_append, scanUnicodeCodePointEscape]
    simp only [hdigit, hvalue, if_true]
    rw [if_neg (by omega)]
    exact ih h

end

/-! ## Escapes and characters -/

theorem toNat_ne {c d : Char} (h : c ≠ d) : c.toNat ≠ d.toNat := fun heq => h (Char.toNat_inj.mp heq)

theorem char_lt (c : Char) : c.toNat < 0x110000 := by
  have h := c.valid
  simp only [UInt32.isValidChar, Nat.isValidChar] at h
  show c.val.toNat < _
  omega

theorem decodeCP_ascii {b : UInt8} (h : b.toNat < 0x80) (iter : List UInt8) :
    decodeCP (b :: iter) = some (b.toNat, iter) := by
  unfold decodeCP
  simp [h]

theorem utf8Encode_append {cp : ℕ} (h : cp < 0x110000) (str : List UInt8) :
    str ++ utf8Encode cp = str ++ [cp].flatMap utf8 := by
  rw [utf8Encode_eq_utf8 h]
  simp

/-- Nothing behind the text goes on with an escape at its end. -/
def Follows (tail : List UInt8) : Prop :=
  ∀ b ∈ tail.head?, b ≠ byte '\n' ∧ ¬ (byte '0' ≤ b ∧ b ≤ byte '9')

theorem head?_append_of {P : UInt8 → Prop} {text tail : List UInt8} (h : ∀ b ∈ text.head?, P b)
    (h' : ∀ b ∈ tail.head?, P b) : ∀ b ∈ (text ++ tail).head?, P b := by
  cases text with
  | nil => exact h'
  | cons b text => exact h

theorem isDecimalDigit_peek_eq_false {iter : List UInt8}
    (h : ∀ b ∈ iter.head?, ¬ (byte '0' ≤ b ∧ b ≤ byte '9')) : isDecimalDigit (peek iter) = false := by
  cases iter with
  | nil => decide
  | cons b iter =>
    have hb := h b rfl
    have hzero : (byte '0').toNat = 0x30 := rfl
    have hnine : (byte '9').toNat = 0x39 := rfl
    simp only [UInt8.le_iff_toNat_le, hzero, hnine] at hb
    by_cases hascii : b.toNat < 0x80
    · simp [isDecimalDigit, peek, hascii]
      omega
    · simp [isDecimalDigit, peek, hascii]
      omega

theorem byte_toNat {c : Char} (h : c.toNat < 0x80) : (byte c).toNat = c.toNat := by
  rw [byte, UInt8.toNat_ofNat', Nat.mod_eq_of_lt (by omega)]

theorem isDecimalDigit_peek_utf8 {c : Char} (h : ¬ ('0' ≤ c ∧ c ≤ '9')) (rest : List UInt8) :
    isDecimalDigit (peek (utf8 c.toNat ++ rest)) = false := by
  have h' : ¬ (0x30 ≤ c.toNat ∧ c.toNat ≤ 0x39) := h
  rcases Nat.lt_or_ge c.toNat 0x80 with hascii | hge
  · have hbyte : utf8 c.toNat = [byte c] := utf8_ascii hascii
    have hpeek := peek_cons (byte_toNat hascii ▸ hascii) rest
    rw [hbyte, List.singleton_append, hpeek, byte_toNat hascii]
    simp [isDecimalDigit]
    omega
  · have hpeek := (le_peek_utf8 hge (char_lt c) rest).1
    simp [isDecimalDigit]
    omega

theorem peek_ne_lineFeed {iter : List UInt8} (h : iter.head? ≠ some (byte '\n')) :
    peek iter ≠ LEX_CHAR_LF := by
  cases iter with
  | nil => decide
  | cons b iter =>
    have hb : b.toNat ≠ 0x0A := fun heq => h (congrArg some (UInt8.toNat_inj.mp heq))
    by_cases hascii : b.toNat < 0x80
    · simpa [peek, hascii, LEX_CHAR_LF] using hb
    · simp only [peek, hascii, LEX_CHAR_LF, if_false]
      omega

theorem Follows.append {text tail : List UInt8} (h : Follows tail) (hline : text.head? ≠ some (byte '\n')) :
    (text ++ tail).head? ≠ some (byte '\n') := by
  intro hhead
  have hne := @head?_append_of (· ≠ byte '\n') text tail
    (fun b hb heq => hline (heq ▸ hb)) fun b hb => (h b hb).1
  exact hne _ hhead rfl

theorem scanStringUnicodePart_append {text esc tail : List UInt8} {vs : List UInt16}
    (h : Escape text esc vs) (htail : Follows tail) :
    ∃ cps : List ℕ, (∀ cp ∈ cps, cp < 0x110000) ∧ vs = cps.flatMap units ∧
      ∀ str, scanStringUnicodePart str (esc ++ (text ++ tail)) =
        some (str ++ cps.flatMap utf8, text ++ tail) := by
  cases h with
  | @hex digits n hlen hn =>
    have hlt : n < 0x110000 := by
      have := (hexNumber_bounds hn).2
      rw [hlen] at this
      omega
    refine ⟨[n], by simpa using hlt, by simp, fun str => ?_⟩
    have hscan := scanHexEscape_append hn (text ++ tail)
    rw [hlen] at hscan
    rw [← utf8Encode_append hlt]
    simp [scanStringUnicodePart, decodeCP_ascii, hscan, byte, singleEscape, INVALID_CP, LEX_CHAR_CR,
      LEX_CHAR_LF, LEX_CHAR_LS, LEX_CHAR_PS]
  | @unicode digits n hlen hn =>
    have hlt : n < 0x110000 := by
      have := (hexNumber_bounds hn).2
      rw [hlen] at this
      omega
    refine ⟨[n], by simpa using hlt, by simp, fun str => ?_⟩
    have hscan := scanHexEscape_append hn (text ++ tail)
    rw [hlen] at hscan
    have hbrace : peek (digits ++ (text ++ tail)) ≠ 123 := by
      cases digits with
      | nil => cases hlen
      | cons b digits =>
        rw [hexNumber, Option.bind_eq_some_iff] at hn
        obtain ⟨d, hd, -⟩ := hn
        obtain ⟨hdigit, -⟩ := hexDigit_spec hd (digits ++ (text ++ tail))
        intro heq
        rw [List.cons_append] at heq
        rw [heq] at hdigit
        exact absurd hdigit (by decide)
    rw [← utf8Encode_append hlt]
    simp [scanStringUnicodePart, decodeCP_ascii, hscan, byte, singleEscape, INVALID_CP, LEX_CHAR_CR,
      LEX_CHAR_LF, LEX_CHAR_LS, LEX_CHAR_PS, scanUnicodeEscapeSequence, hbrace]
  | @codePoint digits n hne hn hmax =>
    have hlt : n < 0x110000 := by omega
    refine ⟨[n], by simpa using hlt, by simp, fun str => ?_⟩
    have hscan : scanUnicodeCodePointEscape 0 (digits ++ 125 :: (text ++ tail)) =
        some (n, text ++ tail) := scanUnicodeCodePointEscape_append hn hmax (text ++ tail)
    have hbrace (iter : List UInt8) : peek (123 :: iter) = 123 := rfl
    rw [← utf8Encode_append hlt]
    simp [scanStringUnicodePart, decodeCP_ascii, hscan, byte, singleEscape, INVALID_CP, LEX_CHAR_CR,
      LEX_CHAR_LF, LEX_CHAR_LS, LEX_CHAR_PS, scanUnicodeEscapeSequence, hbrace]
  | null hnext =>
    refine ⟨[0], by simp, rfl, fun str => ?_⟩
    have hdigit := isDecimalDigit_peek_eq_false (head?_append_of hnext fun b hb => (htail b hb).2)
    rw [← utf8Encode_append (by decide)]
    simp [scanStringUnicodePart, decodeCP_ascii, hdigit, byte, singleEscape, INVALID_CP, LEX_CHAR_CR,
      LEX_CHAR_LF, LEX_CHAR_LS, LEX_CHAR_PS]
  | @single c v hc =>
    have hc' : singleEscape c.toNat = some v.toNat ∧ c.toNat < 0x80 ∧ v.toNat < 0x80 ∧
        c.toNat ≠ 0x0A ∧ c.toNat ≠ 0x0D := by
      simp only [List.mem_cons, List.not_mem_nil, or_false, Prod.mk.injEq] at hc
      rcases hc with ⟨rfl, rfl⟩ | ⟨rfl, rfl⟩ | ⟨rfl, rfl⟩ | ⟨rfl, rfl⟩ | ⟨rfl, rfl⟩ | ⟨rfl, rfl⟩ <;>
        decide
    obtain ⟨hsingle, hascii, hvalue, hlf, hcr⟩ := hc'
    have hbyte := byte_toNat hascii
    refine ⟨[v.toNat], ?_, ?_, fun str => ?_⟩
    · simp only [List.mem_singleton]
      omega
    · rw [List.flatMap_singleton, units_toNat]
    · have hinvalid : c.toNat ≠ INVALID_CP := by
        rw [INVALID_CP]
        omega
      have hls : c.toNat ≠ 0x2028 := by omega
      have hps : c.toNat ≠ 0x2029 := by omega
      rw [← utf8Encode_append (by omega)]
      simp [scanStringUnicodePart, decodeCP_ascii, hbyte, hascii, hinvalid, hsingle, LEX_CHAR_CR,
        LEX_CHAR_LF, LEX_CHAR_LS, LEX_CHAR_PS, hlf, hcr, hls, hps]
  | @char c hc hdigit =>
    have hlt := char_lt c
    simp only [List.mem_cons, List.not_mem_nil, or_false, not_or] at hc
    obtain ⟨hb, ht, hn, hv, hf, hr, hx, hu, hlf, hcr, hls, hps⟩ := hc
    have hsingle : singleEscape c.toNat = none := by
      simp only [singleEscape, if_neg (toNat_ne hb), if_neg (toNat_ne ht), if_neg (toNat_ne hn),
        if_neg (toNat_ne hv), if_neg (toNat_ne hf), if_neg (toNat_ne hr)]
    have hzero : c.toNat ≠ 48 := by
      refine @toNat_ne c '0' ?_
      rintro rfl
      exact hdigit (by decide)
    have hx' : c.toNat ≠ 120 := toNat_ne hx
    have hu' : c.toNat ≠ 117 := toNat_ne hu
    have hdecimal := isDecimalDigit_peek_utf8 hdigit (text ++ tail)
    have hinvalid : c.toNat ≠ INVALID_CP := by
      rw [INVALID_CP]
      omega
    refine ⟨[c.toNat], by simpa using hlt, by simp, fun str => ?_⟩
    rw [← utf8Encode_append hlt, utf8EncodeChar_eq_utf8]
    unfold scanStringUnicodePart
    have hlf' : c.toNat ≠ LEX_CHAR_LF := toNat_ne hlf
    have hcr' : c.toNat ≠ LEX_CHAR_CR := toNat_ne hcr
    have hls' : c.toNat ≠ LEX_CHAR_LS := toNat_ne hls
    have hps' : c.toNat ≠ LEX_CHAR_PS := toNat_ne hps
    rw [decodeCP_utf8_append hlt]
    simp [hinvalid, hlf', hcr', hls', hps', hsingle, hx', hu', hzero, hdecimal]
  | @continued c hc =>
    have hlt := char_lt c
    refine ⟨[], by simp, rfl, fun str => ?_⟩
    have hc' : c.toNat ≠ INVALID_CP ∧ c.toNat ≠ LEX_CHAR_CR ∧
        (c.toNat = LEX_CHAR_LS ∨ c.toNat = LEX_CHAR_PS ∨ c.toNat = LEX_CHAR_LF) := by
      simp only [List.mem_cons, List.not_mem_nil, or_false] at hc
      rcases hc with rfl | rfl | rfl <;> decide
    obtain ⟨hinvalid, hcr, hbreak⟩ := hc'
    rw [utf8EncodeChar_eq_utf8, scanStringUnicodePart, decodeCP_utf8_append hlt]
    simp [hinvalid, hcr, hbreak]
  | continuedCRLF =>
    refine ⟨[], by simp, rfl, fun str => ?_⟩
    have hpeek (iter : List UInt8) : peek (10 :: iter) = LEX_CHAR_LF := rfl
    simp [scanStringUnicodePart, decodeCP_ascii, byte, INVALID_CP, LEX_CHAR_CR, hpeek]
  | continuedCR hnext =>
    refine ⟨[], by simp, rfl, fun str => ?_⟩
    have hpeek : peek (text ++ tail) ≠ LEX_CHAR_LF := by
      exact peek_ne_lineFeed (htail.append hnext)
    simp [scanStringUnicodePart, decodeCP_ascii, byte, INVALID_CP, LEX_CHAR_CR, hpeek]

/-! ## The loop -/

section Loop

variable {quote : Char} {startPos escapeEnd str : List UInt8} {hasEscape : Bool}

/-- A character that neither ends the literal nor starts an escape is passed over. -/
theorem scanStringLoop_char {c : Char} {iter : List UInt8} (hc : c ∉ [quote, '\\', '\n', '\r'])
    (hdollar : quote = '`' → c = '$' → iter.head? ≠ some (byte '\x7b')) (n : ℕ) :
    scanStringLoop quote.toNat startPos (n + 1) (utf8 c.toNat ++ iter) escapeEnd str hasEscape =
      scanStringLoop quote.toNat startPos n iter escapeEnd str hasEscape := by
  have hlt := char_lt c
  simp only [List.mem_cons, List.not_mem_nil, or_false, not_or] at hc
  obtain ⟨hquote, hbackslash, hlf, hcr⟩ := hc
  have hskip := skipCp_utf8_append hlt iter
  rw [scanStringLoop]
  rcases Nat.lt_or_ge c.toNat 0x80 with hascii | hge
  · have hbyte : utf8 c.toNat = [byte c] := utf8_ascii hascii
    have hpeek : peek (utf8 c.toNat ++ iter) = c.toNat := by
      rw [hbyte, List.singleton_append, peek_cons (byte_toNat hascii ▸ hascii), byte_toNat hascii]
    have htail : (utf8 c.toNat ++ iter).tail = iter := by
      rw [hbyte]
      rfl
    have hinvalid : c.toNat ≠ INVALID_CP := by
      rw [INVALID_CP]
      omega
    have hlf' : c.toNat ≠ LEX_CHAR_LF := toNat_ne hlf
    have hcr' : c.toNat ≠ LEX_CHAR_CR := toNat_ne hcr
    simp only [hpeek, htail, hskip, hinvalid, hlf', hcr', toNat_ne hbackslash, toNat_ne (Ne.symm hquote),
      or_self, if_false]
    split_ifs with hquotes hdollar' hbrace
    · rfl
    · exfalso
      have hq : quote = '`' := Char.toNat_inj.mp hbrace.1
      have hd : c = '$' := Char.toNat_inj.mp hdollar'
      refine hdollar hq hd ?_
      cases iter with
      | nil => exact absurd hbrace.2 (by decide)
      | cons b iter =>
        have hb : peek (b :: iter) = 123 := hbrace.2
        rw [peek] at hb
        split at hb
        · exact congrArg some (UInt8.toNat_inj.mp hb)
        · omega
    · rfl
    · rfl
  · obtain ⟨hle, hinvalid⟩ := le_peek_utf8 hge hlt iter
    have hspecial {k : ℕ} (hk : k < 0x80) : peek (utf8 c.toNat ++ iter) ≠ k := by omega
    have hlf' : peek (utf8 c.toNat ++ iter) ≠ LEX_CHAR_LF := hspecial (by decide)
    have hcr' : peek (utf8 c.toNat ++ iter) ≠ LEX_CHAR_CR := hspecial (by decide)
    have hbs : peek (utf8 c.toNat ++ iter) ≠ '\\'.toNat := hspecial (by decide)
    have hbt : peek (utf8 c.toNat ++ iter) ≠ '`'.toNat := hspecial (by decide)
    have hsq : peek (utf8 c.toNat ++ iter) ≠ '\''.toNat := hspecial (by decide)
    have hdq : peek (utf8 c.toNat ++ iter) ≠ '"'.toNat := hspecial (by decide)
    have hds : peek (utf8 c.toNat ++ iter) ≠ '$'.toNat := hspecial (by decide)
    simp only [hskip, hinvalid.ne, hlf', hcr', hbs, hbt, hsq, hdq, hds, or_self, if_false]

theorem Follows.of_ends {tail : List UInt8} (hquote : quote ∈ ['"', '\'', '`']) (h : Ends quote tail) :
    Follows tail := by
  obtain ⟨rest, rfl | ⟨-, rfl⟩⟩ := h
  · intro b hb
    cases hb
    simp only [List.mem_cons, List.not_mem_nil, or_false] at hquote
    rcases hquote with rfl | rfl | rfl <;> decide
  · intro b hb
    cases hb
    decide

theorem Ends.dollar {quote : Char} {text tail : List UInt8} (h : Ends quote tail) (hquote : quote = '`')
    (htext : text.head? ≠ some (byte '\x7b')) : (text ++ tail).head? ≠ some (byte '\x7b') := by
  cases text with
  | cons b text => exact htext
  | nil =>
    subst hquote
    obtain ⟨rest, rfl | ⟨-, rfl⟩⟩ := h
    · exact fun hhead => absurd (Option.some.inj hhead) (by decide)
    · exact fun hhead => absurd (Option.some.inj hhead) (by decide)

/-- At the end of the literal the string is complete. -/
theorem scanStringLoop_end {tail pending : List UInt8} (hquote : quote ∈ ['"', '\'', '`'])
    (hends : Ends quote tail) (hstart : hasEscape = false → str = [] ∧ startPos = pending ++ tail)
    (n : ℕ) : ∃ after, scanStringLoop quote.toNat startPos (n + 1) tail (pending ++ tail) str hasEscape =
      some (str ++ pending, after) := by
  have hfinish : (finishString quote.toNat startPos tail (pending ++ tail) str hasEscape).1 =
      str ++ pending := by
    cases hasEscape with
    | true => simp [finishString, sourceView_append]
    | false =>
      obtain ⟨rfl, rfl⟩ := hstart rfl
      simp [finishString, sourceView_append]
  refine ⟨(finishString quote.toNat startPos tail (pending ++ tail) str hasEscape).2, ?_⟩
  rw [← hfinish, scanStringLoop]
  obtain ⟨rest, rfl | ⟨rfl, rfl⟩⟩ := hends
  · have hpeek : peek (byte quote :: rest) = quote.toNat ∧ quote.toNat ≠ INVALID_CP ∧
        quote.toNat ≠ LEX_CHAR_CR ∧ quote.toNat ≠ LEX_CHAR_LF ∧ quote.toNat ≠ '\\'.toNat ∧
        (quote.toNat = '`'.toNat ∨ quote.toNat = '\''.toNat ∨ quote.toNat = '"'.toNat) := by
      simp only [List.mem_cons, List.not_mem_nil, or_false] at hquote
      rcases hquote with rfl | rfl | rfl
      all_goals exact ⟨rfl, by decide, by decide, by decide, by decide, by decide⟩
    obtain ⟨hpeek, hinvalid, hcr, hlf, hbs, hquotes⟩ := hpeek
    simp only [hpeek, hinvalid, hcr, hlf, hbs, hquotes, or_self, if_false, if_true]
  · have hpeek : peek (byte '$' :: byte '\x7b' :: rest) = '$'.toNat := rfl
    have hpeek' : peek (byte '$' :: byte '\x7b' :: rest).tail = '\x7b'.toNat := rfl
    have hinvalid : '$'.toNat ≠ INVALID_CP := by decide
    simp only [hpeek, hpeek', hinvalid, LEX_CHAR_CR, LEX_CHAR_LF]
    rfl

theorem scanStringLoop_lineBreak {seq iter pending : List UInt8}
    (hseq : seq = [byte '\n'] ∨ seq = [byte '\r', byte '\n'] ∨
      seq = [byte '\r'] ∧ iter.head? ≠ some (byte '\n')) (n : ℕ) :
    scanStringLoop '`'.toNat startPos (n + 1) (seq ++ iter) (pending ++ (seq ++ iter)) str hasEscape =
      scanStringLoop '`'.toNat startPos n iter iter (str ++ pending ++ [LEX_CHAR_LF].flatMap utf8)
        true := by
  have hlf : LEX_CHAR_LF ≠ INVALID_CP ∧ LEX_CHAR_LF ≠ LEX_CHAR_CR := by decide
  have hcr : LEX_CHAR_CR ≠ INVALID_CP := by decide
  have hencode : utf8Encode LEX_CHAR_LF = [LEX_CHAR_LF].flatMap utf8 := by decide
  have hpeekLf (iter : List UInt8) : peek (byte '\n' :: iter) = LEX_CHAR_LF := rfl
  have hpeekCr (iter : List UInt8) : peek (byte '\r' :: iter) = LEX_CHAR_CR := rfl
  rw [scanStringLoop, sourceView_append]
  rcases hseq with rfl | rfl | ⟨rfl, hnext⟩
  · simp [hpeekLf, hlf.1, hlf.2, hencode]
  · simp [hpeekLf, hpeekCr, hcr, hencode]
  · simp [hpeekCr, hcr, peek_ne_lineFeed hnext, hencode]

/-- A text is scanned to its end. -/
def ScansText (quote : Char) (tail text : List UInt8) (us : List UInt16) : Prop :=
  ∃ cps : List ℕ, (∀ cp ∈ cps, cp < 0x110000) ∧ us = cps.flatMap units ∧
    ∀ (n : ℕ) (startPos pending str : List UInt8) (hasEscape : Bool), text.length < n →
      (hasEscape = false → str = [] ∧ startPos = pending ++ (text ++ tail)) →
      ∃ after, scanStringLoop quote.toNat startPos n (text ++ tail) (pending ++ (text ++ tail)) str
        hasEscape = some (str ++ pending ++ cps.flatMap utf8, after)

theorem ScansText.lineBreak {seq text tail : List UInt8} {us : List UInt16}
    (h : ScansText '`' tail text us)
    (hseq : seq = [byte '\n'] ∨ seq = [byte '\r', byte '\n'] ∨
      seq = [byte '\r'] ∧ (text ++ tail).head? ≠ some (byte '\n')) :
    ScansText '`' tail (seq ++ text) (units LEX_CHAR_LF ++ us) := by
  obtain ⟨cps, hcps, rfl, hscan⟩ := h
  refine ⟨LEX_CHAR_LF :: cps, List.forall_mem_cons.mpr ⟨by decide, hcps⟩, rfl,
    fun n startPos pending str hasEscape hn hstart => ?_⟩
  have hlength : 0 < seq.length := by
    rcases hseq with rfl | rfl | ⟨rfl, -⟩ <;> exact Nat.succ_pos _
  rw [List.length_append] at hn
  obtain ⟨n, rfl⟩ : ∃ k, n = k + 1 := ⟨n - 1, by omega⟩
  obtain ⟨after, h⟩ := hscan n startPos [] (str ++ pending ++ [LEX_CHAR_LF].flatMap utf8) true
    (by omega) nofun
  rw [List.append_assoc]
  refine ⟨after, (scanStringLoop_lineBreak hseq n).trans ?_⟩
  simpa using h

theorem scanStringLoop_text {text tail : List UInt8} {us : List UInt16}
    (hquote : quote ∈ ['"', '\'', '`']) (h : StringText quote text us) (hends : Ends quote tail) :
    ScansText quote tail text us := by
  have hfollows := Follows.of_ends hquote hends
  induction h with
  | nil =>
    refine ⟨[], by simp, rfl, fun n startPos pending str hasEscape hn hstart => ?_⟩
    obtain ⟨n, rfl⟩ : ∃ k, n = k + 1 := ⟨n - 1, by omega⟩
    simpa using scanStringLoop_end hquote hends hstart n
  | @char c text us hc hdollar _ ih =>
    obtain ⟨cps, hcps, rfl, hscan⟩ := ih
    refine ⟨c.toNat :: cps, List.forall_mem_cons.mpr ⟨char_lt c, hcps⟩, rfl,
      fun n startPos pending str hasEscape hn hstart => ?_⟩
    rw [utf8EncodeChar_eq_utf8] at hn hstart ⊢
    rw [List.length_append] at hn
    have hpos := List.length_pos_iff.mpr (utf8_ne_nil c.toNat)
    obtain ⟨n, rfl⟩ : ∃ k, n = k + 1 := ⟨n - 1, by omega⟩
    rw [List.append_assoc] at hstart ⊢
    rw [scanStringLoop_char hc ?_ n]
    · obtain ⟨after, h⟩ := hscan n startPos (pending ++ utf8 c.toNat) str hasEscape (by omega)
        (fun hflag => by simpa using hstart hflag)
      refine ⟨after, ?_⟩
      simpa using h
    · exact fun hq hd => Ends.dollar hends hq (hdollar hq hd)
  | @escape text esc us vs hesc _ ih =>
    obtain ⟨cps, hcps, rfl, hscan⟩ := ih
    obtain ⟨cps', hcps', rfl, hpart⟩ := scanStringUnicodePart_append hesc hfollows
    refine ⟨cps' ++ cps, ?_, by simp, fun n startPos pending str hasEscape hn hstart => ?_⟩
    · intro cp hcp
      exact (List.mem_append.mp hcp).elim (hcps' cp) (hcps cp)
    · rw [List.length_append, List.length_cons] at hn
      obtain ⟨n, rfl⟩ : ∃ k, n = k + 1 := ⟨n - 1, by omega⟩
      obtain ⟨after, h⟩ := hscan n startPos [] (str ++ pending ++ cps'.flatMap utf8) true (by omega) nofun
      refine ⟨after, ?_⟩
      have hpeek (iter : List UInt8) : peek (byte '\\' :: iter) = '\\'.toNat := rfl
      have hspecial : '\\'.toNat ≠ INVALID_CP ∧ '\\'.toNat ≠ LEX_CHAR_CR ∧
          '\\'.toNat ≠ LEX_CHAR_LF := by decide
      rw [List.append_assoc, List.cons_append, scanStringLoop]
      simp only [hpeek, hspecial.1, hspecial.2.1, hspecial.2.2, or_self, if_false, if_true,
        sourceView_append, List.tail_cons, hpart, Option.bind_eq_bind, Option.bind_some]
      simpa using h
  | lineFeed hq _ ih =>
    subst hq
    exact ih.lineBreak (.inl rfl)
  | carriageReturnLineFeed hq _ ih =>
    subst hq
    exact ih.lineBreak (.inr (.inl rfl))
  | carriageReturn hq hnext _ ih =>
    subst hq
    exact ih.lineBreak (.inr (.inr ⟨rfl, hfollows.append hnext⟩))

end Loop

theorem literalMutf8_append {quote : Char} {text tail : List UInt8} {us : List UInt16}
    (hquote : quote ∈ ['"', '\'', '`']) (h : StringText quote text us) (hends : Ends quote tail)
    (hasEscape : Bool) : literalMutf8 quote (text ++ tail) hasEscape = some (Unicode.mutf8 us) := by
  obtain ⟨cps, hcps, rfl, hscan⟩ := scanStringLoop_text hquote h hends
  have hlength : text.length < (text ++ tail).length + 1 := by
    rw [List.length_append]
    omega
  obtain ⟨after, h⟩ := hscan _ (text ++ tail) [] [] hasEscape hlength fun _ => ⟨rfl, rfl⟩
  rw [List.nil_append] at h
  rw [literalMutf8, scanString, h]
  simpa using StringView.mutf8_flatMap hcps

/-- The literals of a source text, from behind the opening quote on, with their values. -/
def Literal (quote : Char) (source : List UInt8) (us : List UInt16) : Prop :=
  quote ∈ ['"', '\'', '`'] ∧ ∃ text tail, source = text ++ tail ∧ StringText quote text us ∧
    Ends quote tail

/-- The bytes of every literal have no zero in them and decode to its value. So literals have the same
bytes just if they have the same value, as a character outside the basic plane and the escapes of
its two surrogates do. -/
theorem literalMutf8_faithful :
    (∀ quote source us hasEscape, Literal quote source us → ∃ bytes,
      literalMutf8 quote source hasEscape = some bytes ∧ 0 ∉ bytes ∧ decodeMutf8 bytes = some us) ∧
    (∀ quote quote' source source' us us' hasEscape hasEscape', Literal quote source us →
      Literal quote' source' us' →
      (literalMutf8 quote source hasEscape = literalMutf8 quote' source' hasEscape' ↔ us = us')) ∧
    ∀ (c : Char) (high low : UInt16) (digits digits' : List UInt8) (hasEscape : Bool),
      0x10000 ≤ c.toNat → units c.toNat = [high, low] →
      digits.length = 4 → digits'.length = 4 → hexNumber 0 digits = some high.toNat →
      hexNumber 0 digits' = some low.toNat →
      literalMutf8 '"' (String.utf8EncodeChar c ++ [byte '"']) hasEscape =
        literalMutf8 '"' (byte '\\' :: byte 'u' :: digits ++ (byte '\\' :: byte 'u' :: digits' ++
          [byte '"'])) hasEscape := by
  refine ⟨?decodes, ?injective, ?astral⟩
  case decodes =>
    rintro quote source us hasEscape ⟨hquote, text, tail, rfl, htext, hends⟩
    exact ⟨_, literalMutf8_append hquote htext hends hasEscape, zero_not_mem_mutf8 us,
      decodeMutf8_mutf8 us⟩
  case injective =>
    rintro quote quote' source source' us us' hasEscape hasEscape' ⟨hquote, text, tail, rfl, htext, hends⟩
      ⟨hquote', text', tail', rfl, htext', hends'⟩
    rw [literalMutf8_append hquote htext hends, literalMutf8_append hquote' htext' hends']
    exact ⟨fun h => mutf8_injective (Option.some.inj h), fun h => h ▸ rfl⟩
  case astral =>
    intro c high low digits digits' hasEscape hc hunits hlen hlen' hn hn'
    have hends : Ends '"' [byte '"'] := ⟨[], .inl rfl⟩
    have hquote : '"' ∈ ['"', '\'', '`'] := by decide
    have hne {d : Char} (hd : d.toNat < 0x10000) : c ≠ d := by
      rintro rfl
      omega
    have hliteral : StringText '"' (String.utf8EncodeChar c ++ []) (units c.toNat ++ []) := by
      refine .char ?_ (fun h => absurd h (by decide)) .nil
      simp only [List.mem_cons, List.not_mem_nil, or_false, not_or]
      exact ⟨hne (by decide), hne (by decide), hne (by decide), hne (by decide)⟩
    have hescapes : StringText '"' (byte '\\' :: (byte 'u' :: digits) ++
        (byte '\\' :: (byte 'u' :: digits') ++ [])) (units high.toNat ++ (units low.toNat ++ [])) :=
      .escape (.unicode hlen hn) (.escape (.unicode hlen' hn') .nil)
    have h₁ := literalMutf8_append hquote hliteral hends hasEscape
    have h₂ := literalMutf8_append hquote hescapes hends hasEscape
    simp only [List.append_nil, List.append_assoc, List.cons_append, hunits, units_toNat] at h₁ h₂ ⊢
    exact h₁.trans h₂.symm

/-- A letter, its escape, and a character outside the basic plane. -/
theorem literalMutf8_faithful_examples :
    (∃ bytes, literalMutf8 '"' [byte 'A', byte '"'] false = some bytes ∧ 0 ∉ bytes ∧
      decodeMutf8 bytes = some [unit 'A']) ∧
    (literalMutf8 '"' [byte 'A', byte '"'] false =
        literalMutf8 '\'' (byte '\\' :: (byte 'x' :: [byte '4', byte '1']) ++ [byte '\'']) true ↔
      [unit 'A'] = [unit 'A']) ∧
    literalMutf8 '"' (String.utf8EncodeChar (Char.ofNat 0x1F600) ++ [byte '"']) false =
      literalMutf8 '"' (byte '\\' :: byte 'u' :: [byte 'D', byte '8', byte '3', byte 'D'] ++
        (byte '\\' :: byte 'u' :: [byte 'D', byte 'E', byte '0', byte '0'] ++ [byte '"'])) false := by
  have htext : StringText '"' (String.utf8EncodeChar 'A' ++ []) (units 'A'.toNat ++ []) :=
    .char (by decide) (fun h => absurd h (by decide)) .nil
  have hdigits : hexNumber 0 [byte '4', byte '1'] = some 0x41 := by decide
  have htext' : StringText '\'' (byte '\\' :: (byte 'x' :: [byte '4', byte '1']) ++ []) (units 0x41 ++ []) :=
    .escape (.hex rfl hdigits) .nil
  have hletter : Literal '"' [byte 'A', byte '"'] [unit 'A'] :=
    ⟨by decide, _, [byte '"'], rfl, htext, [], .inl rfl⟩
  have hescape : Literal '\'' (byte '\\' :: (byte 'x' :: [byte '4', byte '1']) ++ [byte '\''])
      [unit 'A'] :=
    ⟨by decide, _, [byte '\''], rfl, htext', [], .inl rfl⟩
  exact ⟨literalMutf8_faithful.1 _ _ _ _ hletter, literalMutf8_faithful.2.1 _ _ _ _ _ _ _ _ hletter hescape,
    literalMutf8_faithful.2.2 _ 0xD83D 0xDE00 _ _ _ (by decide) (by decide) rfl rfl (by decide) (by decide)⟩

end Lexer

end ArkTs2abc.Es2panda
