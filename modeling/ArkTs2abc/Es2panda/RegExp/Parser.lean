import ArkTs2abc.Es2panda.Lexer.KeywordsUtil
import ArkTs2abc.Es2panda.RegExp.Escapes

/-!
# The parser of regular expressions

`RegExpParser` checks a pattern in one pass, and keeps the number and the names of the groups that
it has opened. The loops of classes and of names, which may read on at the end of the pattern, and the
recursion have fuel.

## Main definitions

* `RegExpParser` — the flag and the Unicode properties that a parser asks for.
* `RegExpParser.State` — the iterator and the groups opened so far.
* `RegExpParser.parsePattern` — the parser on a pattern.
-/

namespace ArkTs2abc.Es2panda

open Unicode

/-- How a call of the parser ends. -/
inductive Outcome (α : Type) where
  | ok (a : α)
  | error (message : String)
  | outOfFuel
  deriving DecidableEq, Repr

namespace Outcome

variable {α β : Type}

def bind : Outcome α → (α → Outcome β) → Outcome β
  | ok a, f => f a
  | error message, _ => error message
  | outOfFuel, _ => outOfFuel

def ofExcept : Except String α → Outcome α
  | .ok a => ok a
  | .error message => error message

@[simp] theorem ok_bind (a : α) (f : α → Outcome β) : (ok a).bind f = f a := rfl

@[simp] theorem error_bind (message : String) (f : α → Outcome β) :
    (error message).bind f = error message := rfl

@[simp] theorem outOfFuel_bind (f : α → Outcome β) : (outOfFuel : Outcome α).bind f = outOfFuel := rfl

end Outcome

/-- `RegExpParser`, with the two properties of the Unicode library. -/
structure RegExpParser where
  unicode : Bool
  isIDStart : ℕ → Bool
  isIDPart : ℕ → Bool

namespace RegExpParser

open Lexer (isDecimalDigit)

structure State where
  iter : List Char
  capturingGroupCount : ℕ
  groupNames : List (List UInt8)
  deriving DecidableEq, Repr

/-- The state behind `Next`. -/
def State.skip (s : State) : State := { s with iter := RegExpParser.skip s.iter }

@[simp] theorem State.skip_iter (s : State) : s.skip.iter = RegExpParser.skip s.iter := rfl

@[simp] theorem State.skip_count (s : State) : s.skip.capturingGroupCount = s.capturingGroupCount := rfl

@[simp] theorem State.skip_names (s : State) : s.skip.groupNames = s.groupNames := rfl

/-- A state in which a pattern is left. -/
def State.at (s : State) (iter : List Char) : State := { s with iter := iter }

@[simp] theorem State.at_iter (s : State) (iter : List Char) : (s.at iter).iter = iter := rfl

@[simp] theorem State.at_count (s : State) (iter : List Char) :
    (s.at iter).capturingGroupCount = s.capturingGroupCount := rfl

@[simp] theorem State.at_names (s : State) (iter : List Char) :
    (s.at iter).groupNames = s.groupNames := rfl

variable (p : RegExpParser)

/-! ## Classes -/

/-- A round of the loop of `ParseCharacterClass`: whether it leaves the loop, and the iterator. -/
def characterClassRound (capturingGroupCount : ℕ) (iter : List Char) : Except String (Bool × List Char) :=
  if peek iter = ']'.toNat then .ok (true, skip iter)
  else do
    let (left, iter) ← parseClassAtom p.unicode capturingGroupCount iter
    if peek iter ≠ '-'.toNat then .ok (false, iter)
    else
      let iter := skip iter
      if peek iter = ']'.toNat then .ok (true, skip iter)
      else do
        let (right, iter) ← parseClassAtom p.unicode capturingGroupCount iter
        if IsClassEscape left ∨ IsClassEscape right then
          if p.unicode then .error "Invalid character class" else .ok (false, iter)
        else if right < left then .error "Class range out of order"
        else .ok (false, iter)

/-- At most `n` rounds. -/
def characterClassLoop (capturingGroupCount : ℕ) : ℕ → List Char → Outcome (List Char)
  | 0, _ => .outOfFuel
  | n + 1, iter =>
    (Outcome.ofExcept (p.characterClassRound capturingGroupCount iter)).bind fun (closed, iter) =>
      if closed then .ok iter else characterClassLoop capturingGroupCount n iter

def parseCharacterClass (capturingGroupCount n : ℕ) (iter : List Char) : Outcome (List Char) :=
  if peek iter = '^'.toNat then characterClassLoop p capturingGroupCount n (skip iter)
  else characterClassLoop p capturingGroupCount n iter

/-! ## Quantifiers -/

/-- The value of the digits that are left, which stays at the greatest number once it would get
smaller, and the iterator behind them. -/
def quantifierDigits (value : ℕ) : List Char → ℕ × List Char
  | [] => (value, [])
  | c :: iter =>
    if isDecimalDigit (peek (c :: iter)) then
      let newValue := uint32 (value * 10 + digitValue c.toNat)
      if newValue < value then quantifierDigits (2 ^ 32 - 1) iter else quantifierDigits newValue iter
    else (value, c :: iter)

/-- Whether there is a quantifier, and the iterator behind it. -/
def parseBracedQuantifier (iter : List Char) : Except String (Bool × List Char) :=
  if peek iter ≠ '\x7b'.toNat then .ok (false, iter)
  else
    let startPos := iter
    let iter := skip iter
    if isDecimalDigit (peek iter) = false then .ok (false, startPos)
    else
      let (leftValue, iter) := quantifierDigits 0 iter
      let iter := if peek iter = ','.toNat then skip iter else iter
      if peek iter = '\x7d'.toNat then .ok (true, skip iter)
      else if isDecimalDigit (peek iter) then
        let (rightValue, iter) := quantifierDigits 0 iter
        if peek iter = '\x7d'.toNat then
          if rightValue < leftValue then .error "Quantifier range out of order"
          else .ok (true, skip iter)
        else .ok (false, startPos)
      else .ok (false, startPos)

/-- The question mark behind a quantifier. -/
def skipLazy (iter : List Char) : List Char := if peek iter = '?'.toNat then skip iter else iter

def parseQuantifier (iter : List Char) : Except String (List Char) :=
  if peek iter = '*'.toNat ∨ peek iter = '+'.toNat ∨ peek iter = '?'.toNat then
    .ok (skipLazy (skip iter))
  else if peek iter = '\x7b'.toNat then do
    let (found, iter) ← parseBracedQuantifier iter
    if found then .ok (skipLazy iter) else .ok iter
  else .ok iter

/-- Whether there is a character, and the iterator behind it. -/
def parsePatternCharacter (iter : List Char) : Bool × List Char :=
  if isSyntaxCharacter p.unicode (peek iter) then (false, iter) else (true, skip iter)

/-! ## Names -/

/-- `IsIdStart`, which hands sixteen bits to the library. -/
def isIdStart (cp : ℕ) : Bool :=
  p.isIDStart (Lexer.uchar cp) ∨ cp = '$'.toNat ∨ cp = '_'.toNat

def isIdCont (cp : ℕ) : Bool :=
  p.isIDPart (Lexer.uchar cp) ∨ cp = '$'.toNat ∨ cp = Lexer.LEX_CHAR_ZWNJ ∨ cp = Lexer.LEX_CHAR_ZWJ

/-- A code point of a name, which an escape may stand for. -/
def parseIdentCp (iter : List Char) : Except String (ℕ × List Char) :=
  let cp := (next iter).1
  let iter := skip iter
  if cp = '\\'.toNat then
    if (next iter).1 ≠ 'u'.toNat then .error "Invalid group name"
    else
      let iter := skip iter
      if p.unicode = false ∧ peek iter = '\x7b'.toNat then .error "Invalid Unicode escape"
      else parseUnicodeEscape iter
  else .ok (cp, iter)

/-- The loop of `ParseIdent`, for at most `n` rounds. -/
def identLoop : ℕ → (ident : List UInt8) → List Char → Outcome (List UInt8 × List Char)
  | 0, _, _ => .outOfFuel
  | n + 1, ident, iter =>
    if (next iter).1 = '>'.toNat then .ok (ident, skip iter)
    else (Outcome.ofExcept (p.parseIdentCp iter)).bind fun (cp, iter) =>
      if p.isIdCont cp = false then .error "Invalid group name"
      else identLoop n (ident ++ utf8Encode cp) iter

def parseIdent (n : ℕ) (iter : List Char) : Outcome (List UInt8 × List Char) :=
  (Outcome.ofExcept (p.parseIdentCp iter)).bind fun (cp, iter) =>
    if p.isIdStart cp = false then .error "Invalid group name"
    else p.identLoop n (utf8Encode cp) iter

def parseNamedBackreference (n : ℕ) (s : State) : Outcome State :=
  -- without names `\k` is an identity escape
  if s.groupNames = [] then .ok s
  else if (next s.iter).1 ≠ '<'.toNat then .error "Invalid named backreference"
  else (p.parseIdent n (skip s.iter)).bind fun (name, iter) =>
    if name ∈ s.groupNames then .ok (s.at iter) else .error "Invalid named capture referenced"

/-! ## Atoms -/

/-- The letters behind a backslash that stand alone: `ControlEscape` and `CharacterClassEscape`. -/
def atomLetters : List ℕ :=
  ['f', 'n', 'r', 't', 'v', 'd', 'D', 's', 'S', 'w', 'W'].map Char.toNat

def parseAtomEscape (n : ℕ) (s : State) : Outcome State :=
  let cp := peek s.iter
  if isDecimalDigit cp then
    (Outcome.ofExcept (parseDecimalEscape p.unicode s.capturingGroupCount s.iter)).bind fun (_, iter) =>
      .ok (s.at iter)
  else
    let s := s.skip
    if cp = 'x'.toNat then
      (Outcome.ofExcept (parseHexEscape s.iter)).bind fun (_, iter) => .ok (s.at iter)
    else if cp = 'u'.toNat then
      (Outcome.ofExcept (parseUnicodeEscape s.iter)).bind fun (_, iter) => .ok (s.at iter)
    else if cp = 'k'.toNat then p.parseNamedBackreference n s
    else if cp ∈ atomLetters then .ok s
    else if cp = 'p'.toNat ∨ cp = 'P'.toNat then
      (Outcome.ofExcept (parseUnicodePropertyEscape p.unicode s.iter)).bind fun iter => .ok (s.at iter)
    else if cp = 'c'.toNat then
      if isControlLetter (peek s.iter) = false then .error "Invalid control escape" else .ok s.skip
    else if p.unicode ∧ isSyntaxCharacter p.unicode cp = false ∧ cp ≠ '/'.toNat then
      .error "Invalid escape"
    else .ok s

/-! ## The recursion -/

/-- `ParseQuantifier`, as the last call of `ParseAlternative`. -/
def quantified (s : State) : Outcome State :=
  (Outcome.ofExcept (parseQuantifier s.iter)).bind fun iter => .ok (s.at iter)

/-- What the functions of the groups do behind their disjunction. -/
def closeGroup (message : String) (s : State) : Outcome State :=
  if peek s.iter ≠ ')'.toNat then .error message else .ok s.skip

def State.countGroup (s : State) : State :=
  { s with capturingGroupCount := uint32 (s.capturingGroupCount + 1) }

section

variable (parseDisjunction : State → Outcome State)

def parseNonCapturingGroup (s : State) : Outcome State :=
  (parseDisjunction s).bind (closeGroup "Invalid non-capturing group")

def parseAssertion (s : State) : Outcome State :=
  (parseDisjunction s).bind (closeGroup "Invalid assertion")

def parseCapturingGroup (s : State) : Outcome State :=
  (parseDisjunction s.countGroup).bind (closeGroup "Invalid capturing group")

def parseNamedCapturingGroup (n : ℕ) (s : State) : Outcome State :=
  (p.parseIdent n s.iter).bind fun (name, iter) =>
    if name ∈ s.groupNames then .error "Duplicate group name"
    else parseCapturingGroup parseDisjunction { s.at iter with groupNames := name :: s.groupNames }

end

/-- Where `ParseAlternatives` returns. -/
def endsAlternative (cp : ℕ) : Bool := cp = INVALID_CP ∨ cp = ')'.toNat ∨ cp = '|'.toNat

mutual

def parseDisjunction : ℕ → State → Outcome State
  | 0, _ => .outOfFuel
  | n + 1, s => (parseAlternatives n s).bind fun s =>
    if peek s.iter ≠ '|'.toNat then .ok s else parseDisjunction n s.skip

def parseAlternatives : ℕ → State → Outcome State
  | 0, _ => .outOfFuel
  | n + 1, s =>
    if endsAlternative (peek s.iter) then .ok s
    else (parseAlternative n s).bind fun s => parseAlternatives n s

def parseAlternative : ℕ → State → Outcome State
  | 0, _ => .outOfFuel
  | n + 1, s =>
    let cp := peek s.iter
    if cp = '\\'.toNat then
      let s := s.skip
      if peek s.iter = 'b'.toNat ∨ peek s.iter = 'B'.toNat then .ok s.skip
      else (p.parseAtomEscape n s).bind quantified
    else if cp = '^'.toNat ∨ cp = '$'.toNat then .ok s.skip
    else if cp = '('.toNat then
      let s := s.skip
      if peek s.iter ≠ '?'.toNat then (parseCapturingGroup (parseDisjunction n) s).bind quantified
      else
        let s := s.skip
        let cp := (next s.iter).1
        let s := s.skip
        if cp = ':'.toNat then
          (parseNonCapturingGroup (parseDisjunction n) s).bind quantified
        else if cp = '='.toNat ∨ cp = '!'.toNat then
          (parseAssertion (parseDisjunction n) s).bind fun s => if p.unicode then .ok s else quantified s
        else if cp ≠ '<'.toNat then .error "Invalid group"
        else if peek s.iter = '='.toNat ∨ peek s.iter = '!'.toNat then
          parseAssertion (parseDisjunction n) s.skip
        else (p.parseNamedCapturingGroup (parseDisjunction n) n s).bind quantified
    else if cp = '['.toNat then
      (p.parseCharacterClass s.capturingGroupCount n (skip s.iter)).bind fun iter => quantified (s.at iter)
    else if cp = '.'.toNat then quantified s.skip
    else
      (Outcome.ofExcept (parseBracedQuantifier s.iter)).bind fun (found, iter) =>
        if found then .error "Invalid quantifier, nothing to repeat"
        else
          let (found, iter) := p.parsePatternCharacter iter
          if found = false then .error "Invalid character" else quantified (s.at iter)

end

/-- The state before a pattern. -/
def State.start (pattern : List Char) : State := ⟨pattern, 0, []⟩

def parsePattern (n : ℕ) (pattern : List Char) : Outcome State :=
  (p.parseDisjunction n (State.start pattern)).bind fun s =>
    if s.iter ≠ [] then .error "Invalid closing parenthesis" else .ok s

end RegExpParser

end ArkTs2abc.Es2panda
