import ArkTs2abc.Es2panda.Lexer.TemplateString
import Mathlib.Algebra.Ring.Nat

/-!
# Escapes of regular expressions

The functions of `RegExpParser` that read one escape. The iterator is the text that is
left; `Peek` looks at one byte of it, `Next` reads a code point. A thrown error is its message.

## Main definitions

* `peek`, `next` — the iterator.
* `parseHexEscape`, `parseUnicodeEscape`, … — as in the source, by the iterator before the escape.
-/

namespace ArkTs2abc.Es2panda.RegExpParser

open Unicode
open Lexer (isDecimalDigit isHexDigit isOctalDigit)

/-! ## The iterator -/

def peek (iter : List Char) : ℕ := Lexer.peek (utf8Text iter)

def next : List Char → ℕ × List Char
  | [] => (INVALID_CP, [])
  | c :: iter => (c.toNat, iter)

/-- The iterator behind `Next`. -/
def skip (iter : List Char) : List Char := (next iter).2

@[simp] theorem next_nil : next [] = (INVALID_CP, []) := rfl

@[simp] theorem next_cons (c : Char) (iter : List Char) : next (c :: iter) = (c.toNat, iter) := rfl

theorem next_fst (c : Char) (iter : List Char) : (next (c :: iter)).1 = c.toNat := rfl

@[simp] theorem skip_nil : skip [] = [] := rfl

@[simp] theorem skip_cons (c : Char) (iter : List Char) : skip (c :: iter) = iter := rfl

@[simp] theorem peek_nil : peek [] = INVALID_CP := rfl

theorem peek_ascii {c : Char} (h : c.toNat < 0x80) (iter : List Char) : peek (c :: iter) = c.toNat :=
  Lexer.peek_utf8Text_ascii h iter

/-- What `Peek` tells apart are the ASCII characters. -/
theorem peek_eq_iff {d : Char} (hd : d.toNat < 0x80) (iter : List Char) :
    peek iter = d.toNat ↔ iter.head? = some d :=
  Lexer.peek_utf8Text_eq_iff hd iter

theorem of_bind_ok {ε α β : Type} {x : Except ε α} {f : α → Except ε β} {b : β} (h : x >>= f = .ok b) :
    ∃ a, x = .ok a ∧ f a = .ok b := by
  cases x with
  | error e => cases h
  | ok a => exact ⟨a, rfl, h⟩

/-- An arithmetic value in a `uint32_t`. -/
def uint32 (n : ℕ) : ℕ := n % 2 ^ 32

/-! ## Digits -/

def digitValue (cp : ℕ) : ℕ := cp - '0'.toNat

def hexValue (cp : ℕ) : ℕ :=
  if isDecimalDigit cp then digitValue cp
  else if cp < 'a'.toNat then cp - 'A'.toNat + 10
  else cp - 'a'.toNat + 10

/-! ## Escapes of one character -/

/-- The letters of the two ranges that `\c` takes. -/
def isControlLetter (cp : ℕ) : Bool :=
  ('a'.toNat ≤ cp ∧ cp ≤ 'z'.toNat) ∨ ('A'.toNat ≤ cp ∧ cp ≤ 'Z'.toNat)

def parseControlEscape (unicode : Bool) (iter : List Char) : Except String (ℕ × List Char) :=
  let cp := peek iter
  if isControlLetter cp = false ∧ unicode then .error "Invalid control escape"
  else if isControlLetter cp = false ∧ isDecimalDigit cp = false then .ok ('c'.toNat, iter)
  else .ok (cp % 32, skip iter)

def parseLegacyOctalEscape (iter : List Char) : ℕ × List Char :=
  let octalValue := digitValue (next iter).1
  let iter := skip iter
  if isOctalDigit (peek iter) = false then (octalValue, iter)
  else
    let octalValue := octalValue * 8 + digitValue (next iter).1
    let iter := skip iter
    if isOctalDigit (peek iter) = false then (octalValue, iter)
    else
      let newValue := octalValue * 8 + digitValue (peek iter)
      if newValue ≤ 0xFF then (newValue, skip iter) else (octalValue, iter)

def parseHexEscape (iter : List Char) : Except String (ℕ × List Char) :=
  let digit := (next iter).1
  if isHexDigit digit = false then .error "Invalid hex escape"
  else
    let cpValue := hexValue digit * 16
    let iter := skip iter
    let digit := (next iter).1
    if isHexDigit digit = false then .error "Invalid hex escape"
    else .ok (cpValue + hexValue digit, skip iter)

/-- The loop of `ParseUnicodeDigits`, for `count` more digits. -/
def unicodeDigits : (count value : ℕ) → List Char → Except String (ℕ × List Char)
  | 0, value, iter => .ok (value, iter)
  | count + 1, value, iter =>
    let digit := (next iter).1
    if isHexDigit digit = false then .error "Invalid Unicode escape"
    else unicodeDigits count (value * 16 + hexValue digit) (skip iter)

def parseUnicodeDigits (iter : List Char) : Except String (ℕ × List Char) := unicodeDigits 4 0 iter

/-- `StringView::DecodeSurrogates`, as it is: the low surrogate is taken off `SURROGATE_LOW_MAX`. -/
def decodeSurrogates (high low : ℕ) : ℕ :=
  uint32 ((high - 0xD800) <<< 10 + (2 ^ 32 + low - 0xE000) + 0x10000)

/-- The loop over the digits between the braces. -/
def bracedDigits (value : ℕ) : List Char → Except String (ℕ × List Char)
  | [] => .ok (value, [])
  | c :: iter =>
    if isHexDigit (peek (c :: iter)) then
      let value := value * 16 + hexValue c.toNat
      if 0x10FFFF < value then .error "Invalid Unicode escape" else bracedDigits value iter
    else .ok (value, c :: iter)

/-- Behind a high surrogate `\u` makes `ParseUnicodeDigits` read on, which may throw; the iterator is
put back only behind digits of something else than a low surrogate. -/
def parseUnicodeEscape (iter : List Char) : Except String (ℕ × List Char) :=
  if peek iter = '\x7b'.toNat then
    let iter := skip iter
    if isHexDigit (peek iter) = false then .error "Invalid Unicode escape"
    else do
      let (value, iter) ← bracedDigits 0 iter
      if peek iter ≠ '\x7d'.toNat then .error "Invalid Unicode escape"
      else .ok (value, skip iter)
  else do
    let (value, iter) ← parseUnicodeDigits iter
    if IsHighSurrogate value then
      if (next iter).1 = '\\'.toNat ∧ (next (skip iter)).1 = 'u'.toNat then do
        let (low, behind) ← parseUnicodeDigits (skip (skip iter))
        if IsLowSurrogate low then .ok (decodeSurrogates value low, behind)
        else .ok (value, iter)
      else .ok (value, iter)
    else .ok (value, iter)

/-- The search for the end of a property escape, from behind its brace on. -/
def skipProperty : List Char → Except String (List Char)
  | [] => .error "Unterminated Unicode property escape"
  | c :: iter => if c = '\x7b' then .ok iter else skipProperty iter

def parseUnicodePropertyEscape (unicode : Bool) (iter : List Char) : Except String (List Char) :=
  if unicode = false then .ok iter
  else if peek iter ≠ '\x7b'.toNat then .error "Invalid Unicode property escape"
  else skipProperty (skip iter)

/-! ## Decimal escapes -/

/-- The loop of `ParseDecimalEscape`: it throws where the value gets smaller. -/
def decimalDigits (decimalValue : ℕ) : List Char → Except String (ℕ × List Char)
  | [] => .ok (decimalValue, [])
  | c :: iter =>
    if isDecimalDigit (peek (c :: iter)) then
      let newValue := uint32 (decimalValue * 10 + digitValue c.toNat)
      if newValue < decimalValue then .error "Invalid decimal escape"
      else decimalDigits newValue iter
    else .ok (decimalValue, c :: iter)

def parseDecimalEscape (unicode : Bool) (capturingGroupCount : ℕ) (iter : List Char) :
    Except String (ℕ × List Char) :=
  let digitStart := iter
  let decimalValue := digitValue (next iter).1
  let iter := skip iter
  if decimalValue = 0 then
    if isDecimalDigit (peek iter) = false then .ok (decimalValue, iter)
    else if unicode then .error "Invalid decimal escape"
    else .ok (parseLegacyOctalEscape digitStart)
  else do
    let (decimalValue, iter) ← decimalDigits decimalValue iter
    if decimalValue ≤ capturingGroupCount then .ok (decimalValue, iter)
    else if unicode then .error "Invalid decimal escape"
    else if isOctalDigit (peek digitStart) = false then
      -- `\8` or `\9`
      .ok (digitValue (next digitStart).1, skip digitStart)
    else .ok (parseLegacyOctalEscape digitStart)

/-! ## Characters -/

def isSyntaxCharacter (unicode : Bool) (cp : ℕ) : Bool :=
  if cp = ']'.toNat ∨ cp = '\x7b'.toNat ∨ cp = '\x7d'.toNat then unicode
  else cp ∈ ['^', '$', '\\', '.', '*', '+', '?', '(', ')', '[', '|'].map Char.toNat

/-- The letters of the control escapes and their values. -/
def classControl (cp : ℕ) : Option ℕ :=
  if cp = 'b'.toNat then some 0x08
  else if cp = 'f'.toNat then some 0x0C
  else if cp = 'n'.toNat then some 0x0A
  else if cp = 'r'.toNat then some 0x0D
  else if cp = 't'.toNat then some 0x09
  else if cp = 'v'.toNat then some 0x0B
  else none

/-- The value of a `ClassEscape` that is no character. -/
def classEscape : ℕ := 2 ^ 32 - 1

def IsClassEscape (cp : ℕ) : Prop := cp = classEscape

instance (cp : ℕ) : Decidable (IsClassEscape cp) := inferInstanceAs (Decidable (_ = _))

def parseClassAtom (unicode : Bool) (capturingGroupCount : ℕ) (iter : List Char) :
    Except String (ℕ × List Char) :=
  let cp := (next iter).1
  let iter := skip iter
  if cp ≠ '\\'.toNat then .ok (cp, iter)
  else
    let cp := peek iter
    if cp = '0'.toNat ∧ unicode = false then parseDecimalEscape unicode capturingGroupCount iter
    else if cp = '0'.toNat then
      let iter := skip iter
      if isDecimalDigit (peek iter) then .error "Invalid class escape" else .ok (0, iter)
    else
      let iter := skip iter
      if cp = 'c'.toNat then parseControlEscape unicode iter
      else if cp = 'x'.toNat then parseHexEscape iter
      else if cp = 'u'.toNat then
        if unicode = false ∧ peek iter = '\x7b'.toNat then .ok (cp, iter) else parseUnicodeEscape iter
      else if cp = 'p'.toNat ∨ cp = 'P'.toNat then
        if unicode = false then .ok (cp, iter)
        else do
          let iter ← parseUnicodePropertyEscape unicode iter
          .ok (classEscape, iter)
      else if cp ∈ ['d', 'D', 's', 'S', 'w', 'W'].map Char.toNat then .ok (classEscape, iter)
      else match classControl cp with
        | some value => .ok (value, iter)
        | none =>
          if cp = '-'.toNat then .ok (cp, iter)
          else if unicode ∧ isSyntaxCharacter unicode cp = false ∧ cp ≠ '/'.toNat then
            .error "Invalid escape"
          else .ok (cp, iter)

end ArkTs2abc.Es2panda.RegExpParser
