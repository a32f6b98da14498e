import ArkTs2abc.Es2panda.Lexer.KeywordsUtil
import ArkTs2abc.Es2panda.Lexer.TemplateString

/-!
# Numbers in the lexer

The iterator is on the characters of the text here: what `Peek` returns is compared with ASCII characters
only, and one step back is to a character that was passed. The value of a token is left out.

## Main definitions

* `scanDecimalNumbers`, `scanNumberRadix`, `checkNumberLiteralEnd` — as in the lexer.
* `scanNumber`, `scanNumberLeadingZero` — as in the lexer, without the conversion.
* `scanNumericLiteral` — what `NextToken` does with a digit, or with a dot before a digit.
-/

namespace ArkTs2abc.Es2panda.Lexer

def isDigit (c : Char) : Bool := isDecimalDigit c.toNat

def isBinaryDigit (ch : ℕ) : Bool := ch = '0'.toNat ∨ ch = '1'.toNat

def LEX_CHAR_UPPERCASE_E : ℕ := 0x45

/-- `PeekCp`. -/
def peekCp : List Char → ℕ
  | [] => INVALID_CP
  | c :: _ => c.toNat

/-- What the scanners leave of a number: flags of the token, the place for the sign of its exponent, from
its start, and the iterator. -/
structure NumberToken where
  hasUnderscore : Bool
  isBigInt : Bool
  exponentSignPos : Option ℕ
  rest : List Char

/-- `ScanDecimalNumbers` behind the character `prev`: whether there is an underscore, and the iterator. -/
def scanDecimalNumbers (allowNumericSeparator : Bool) :
    (prev : Char) → (allowNumericOnNext : Bool) → List Char → Option (Bool × List Char)
  | _, allowNumericOnNext, [] => if allowNumericOnNext then some (false, []) else none
  | prev, allowNumericOnNext, c :: cs =>
    if isDigit c then scanDecimalNumbers allowNumericSeparator c true cs
    else if c = '_' then
      if prev = '.' ∨ allowNumericSeparator = false ∨ allowNumericOnNext = false then none
      else (scanDecimalNumbers allowNumericSeparator c false cs).map fun (_, rest) => (true, rest)
    else if allowNumericOnNext then some (false, c :: cs)
    else none

/-- The loop of `ScanNumberRadix`. -/
def scanNumberRadixLoop (rangeCheck : ℕ → Bool) : (allowNumericOnNext : Bool) → List Char → Option (List Char)
  | allowNumericOnNext, [] => if allowNumericOnNext then some [] else none
  | allowNumericOnNext, c :: cs =>
    if rangeCheck c.toNat then scanNumberRadixLoop rangeCheck true cs
    else if c = '_' then
      if allowNumericOnNext = false then none else scanNumberRadixLoop rangeCheck false cs
    else if allowNumericOnNext then some (c :: cs)
    else none

def scanNumberRadix (rangeCheck : ℕ → Bool) (cs : List Char) : Option (List Char) :=
  if rangeCheck (peekCp cs) = false then none  -- "Invalid digit"
  else scanNumberRadixLoop rangeCheck true cs

/-- The check for what may not follow a number. -/
def numberEnds (idStart : ℕ → Bool) (cs : List Char) : Bool :=
  !(isIdentifierStart idStart (peekCp cs) || isDecimalDigit (peekCp cs))

def checkNumberLiteralEnd (idStart : ℕ → Bool) (cs : List Char) : Option (Bool × List Char) :=
  let isBigInt := cs.head? = some 'n'
  let cs := if isBigInt then cs.tail else cs
  if numberEnds idStart cs then some (isBigInt, cs) else none

/-- The part of `ScanNumber` behind a dot, if there is one; the second component is `parseExponent`. -/
def scanNumberDot (allowNumericSeparator : Bool) (cs : List Char) :
    Option (Bool × Bool × Bool × List Char) :=
  if cs.head? = some '.' then
    let cp := peekCp cs.tail
    -- the last condition is a constant
    if isDecimalDigit cp ∨ cp = 'e'.toNat ∨ LEX_CHAR_UPPERCASE_E ≠ 0 then
      (scanDecimalNumbers allowNumericSeparator '.' true cs.tail).map fun (hasUnderscore, rest) =>
        (true, true, hasUnderscore, rest)
    else some (true, false, false, cs.tail)
  else some (false, true, false, cs)

/-- The sign of the exponent, in the token that starts at `start`. -/
def scanExponentSign (start cs : List Char) : Option ℕ × List Char :=
  match cs.head? with
  | some '_' => (none, cs)
  | some '+' | some '-' => (none, cs.tail)
  | _ => (some (start.length - cs.length), cs)

/-- The digits of the exponent. -/
def scanExponentDigits (allowNumericSeparator : Bool) (exponentSignPos : Option ℕ) (cs : List Char) :
    Option (Bool × Option ℕ × Bool × List Char) :=
  if isDecimalDigit (peekCp cs) = false then none  -- "Invalid numeric literal"
  else (scanDecimalNumbers allowNumericSeparator 'e' true cs).map fun (hasUnderscore, rest) =>
    (true, exponentSignPos, hasUnderscore, rest)

/-- The exponent of `ScanNumber`, if there is one. -/
def scanNumberExponent (start : List Char) (allowNumericSeparator parseExponent : Bool) (cs : List Char) :
    Option (Bool × Option ℕ × Bool × List Char) :=
  if cs.head? = some 'e' ∨ cs.head? = some 'E' then
    if parseExponent = false then some (true, none, false, cs)
    else
      let (exponentSignPos, cs) := scanExponentSign start cs.tail
      scanExponentDigits allowNumericSeparator exponentSignPos cs
  else some (false, none, false, cs)

/-- `ScanNumber` behind the character `prev`. -/
def scanNumber (idStart : ℕ → Bool) (start : List Char) (allowNumericSeparator allowBigInt : Bool)
    (prev : Char) (cs : List Char) : Option NumberToken := do
  let (hasUnderscore, cs) ← scanDecimalNumbers allowNumericSeparator prev true cs
  let (hasDot, parseExponent, hasUnderscore', cs) ← scanNumberDot allowNumericSeparator cs
  let (hasExponent, exponentSignPos, hasUnderscore'', cs) ←
    scanNumberExponent start allowNumericSeparator parseExponent cs
  let (isBigInt, rest) ← checkNumberLiteralEnd idStart cs
  if isBigInt ∧ (allowBigInt = false ∨ hasDot ∨ hasExponent) then none  -- "Invalid BigInt number"
  else some ⟨hasUnderscore || hasUnderscore' || hasUnderscore'', isBigInt, exponentSignPos, rest⟩

/-- A literal with a radix, behind its letter. -/
def scanRadixLiteral (idStart : ℕ → Bool) (rangeCheck : ℕ → Bool) (cs : List Char) : Option NumberToken := do
  let cs' ← scanNumberRadix rangeCheck cs
  let (isBigInt, rest) ← checkNumberLiteralEnd idStart cs'
  some ⟨'_' ∈ cs.take (cs.length - cs'.length), isBigInt, none, rest⟩

/-- `ScanNumberLeadingZero`, behind the zero. -/
def scanNumberLeadingZero (idStart : ℕ → Bool) (start cs : List Char) : Option NumberToken :=
  match cs.head? with
  | some 'x' | some 'X' => scanRadixLiteral idStart isHexDigit cs.tail
  | some 'b' | some 'B' => scanRadixLiteral idStart isBinaryDigit cs.tail
  | some 'o' | some 'O' => do
    let cs' ← scanNumberRadix isOctalDigit cs.tail
    if cs'.head? = some '8' ∨ cs'.head? = some '9' then none  -- "Invalid octal digit"
    else scanRadixLiteral idStart isOctalDigit cs.tail
  | _ =>
    if isDecimalDigit (peekCp cs) then none
    else scanNumber idStart start (cs.head? = some '0') true '0' cs

def scanNumericLiteral (idStart : ℕ → Bool) (cs : List Char) : Option NumberToken :=
  match cs with
  | c :: rest =>
    if c = '0' then scanNumberLeadingZero idStart cs rest
    else if isDigit c then scanNumber idStart cs true true c rest
    else if c = '.' ∧ isDecimalDigit (peekCp rest) then scanNumber idStart cs true true '.' rest
    else none
  | [] => none

end ArkTs2abc.Es2panda.Lexer
