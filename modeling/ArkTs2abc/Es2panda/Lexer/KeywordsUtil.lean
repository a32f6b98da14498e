import ArkTs2abc.Es2panda.Lexer.Iterator

/-!
# Characters of identifiers

Outside of ASCII the lexer asks a library for the Unicode properties, and hands it
sixteen bits of the code point. The two properties are parameters, on all code points.

## Main definitions

* `isIdentifierStart`, `isIdentifierPart` — as in `KeywordsUtil`.
* `IdentifierStart`, `IdentifierPart` — the same for a character as a whole.
-/

namespace ArkTs2abc.Es2panda.Lexer

/-- The entries of `ASCII_FLAGS` with `ID_START`. -/
def asciiIdStart (cp : ℕ) : Bool :=
  cp = '$'.toNat ∨ ('A'.toNat ≤ cp ∧ cp ≤ 'Z'.toNat) ∨ cp = '_'.toNat ∨
    ('a'.toNat ≤ cp ∧ cp ≤ 'z'.toNat)

/-- The entries of `ASCII_FLAGS` with `ID_CONTINUE`. -/
def asciiIdContinue (cp : ℕ) : Bool := asciiIdStart cp || isDecimalDigit cp

def LEX_CHAR_ZWNJ : ℕ := 0x200C
def LEX_CHAR_ZWJ : ℕ := 0x200D

/-- `static_cast<UChar>`. -/
def uchar (cp : ℕ) : ℕ := cp % 2 ^ 16

/-- `KeywordsUtil::IsIdentifierStart`; `idStart` is the property `UCHAR_ID_START`. -/
def isIdentifierStart (idStart : ℕ → Bool) (cp : ℕ) : Bool :=
  if cp < 0x80 then asciiIdStart cp else idStart (uchar cp)

/-- `KeywordsUtil::IsIdentifierPart`; `idContinue` is the property `UCHAR_ID_CONTINUE`. -/
def isIdentifierPart (idContinue : ℕ → Bool) (cp : ℕ) : Bool :=
  if cp < 0x80 then asciiIdContinue cp
  else idContinue (uchar cp) || cp = LEX_CHAR_ZWNJ || cp = LEX_CHAR_ZWJ

/-- Whether an identifier may start with a character. -/
def IdentifierStart (idStart : ℕ → Bool) (c : Char) : Bool :=
  if c.toNat < 0x80 then asciiIdStart c.toNat else idStart c.toNat

/-- Whether an identifier may go on with a character. -/
def IdentifierPart (idContinue : ℕ → Bool) (c : Char) : Bool :=
  if c.toNat < 0x80 then asciiIdContinue c.toNat
  else idContinue c.toNat || c.toNat = LEX_CHAR_ZWNJ || c.toNat = LEX_CHAR_ZWJ

end ArkTs2abc.Es2panda.Lexer
