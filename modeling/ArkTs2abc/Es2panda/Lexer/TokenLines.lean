import ArkTs2abc.Es2panda.Lexer.LiteralLines

/-!
# The lines of tokens

The parser has the lexer read one token after the other, goes back to where it was before, and changes
tokens that it has read: a slash starts a regular expression, a shift is split where type arguments start
or end, a name is passed over for the angle bracket behind it.

Punctuators, names and numbers are texts without line terminators here.

## Main definitions

* `LexerPosition` and its operations — as in the lexer.
* `Step`, `Run` — the calls of the parser, and any sequence of them.
* `Event.Right` — the line of a token, and whether it is the first one on it.
* `Regular` — a call comes upon nothing that the lexer counts wrongly.

## Main results

* `Run.lines_right` — the lines of all tokens are right in the runs of such calls.
-/

namespace ArkTs2abc.Es2panda.Lexer

/-! ## Positions -/

/-- The token types that make a difference to lines. -/
inductive TokenType where
  | eos
  | ident
  | string
  | regexp
  | backTick
  | rightBrace
  | divide
  | lessThan
  | greaterThan
  | leftShift
  | rightShift
  | unsignedRightShift
  | other
  deriving DecidableEq

/-- `SourcePosition`; the index is what is left of the source. -/
structure SourcePosition where
  index : List Char
  line : ℕ

/-- `Token`, with the flag `NEW_LINE`; `last` is the end of its location. -/
structure Token where
  type : TokenType
  newLine : Bool
  start : SourcePosition
  last : SourcePosition

structure LexerPosition where
  token : Token
  iterator : List Char
  line : ℕ
  nextTokenLine : ℕ

namespace LexerPosition

variable (p : LexerPosition)

def setTokenStart : LexerPosition :=
  if p.nextTokenLine ≠ 0 then
    { p with
      line := p.line + p.nextTokenLine
      nextTokenLine := 0
      token := { p.token with newLine := true, start := ⟨p.iterator, p.line + p.nextTokenLine⟩ } }
  else { p with token := { p.token with newLine := false, start := ⟨p.iterator, p.line⟩ } }

def setTokenEnd : LexerPosition :=
  { p with token := { p.token with last := ⟨p.iterator, p.line⟩ } }

def skip : Option LexerPosition :=
  (skipWhiteSpaces p.iterator).map fun (lines, rest) =>
    { p with iterator := rest, nextTokenLine := p.nextTokenLine + lines }

def resetTokenEnd : LexerPosition :=
  { p.setTokenStart with iterator := p.token.last.index, line := p.token.last.line, nextTokenLine := 0 }

/-- `BackwardToken`: the iterator stands `offset` characters before the end of the token. -/
def backwardToken (type : TokenType) (offset : ℕ) : LexerPosition :=
  { p with
    token := { p.token with type := type }
    iterator :=
      p.token.start.index.drop (p.token.start.index.length - (p.token.last.index.length + offset))
    nextTokenLine := 0 }

def forwardToken (type : TokenType) (offset : ℕ) : Option LexerPosition :=
  skip { p with token := { p.token with type := type }, iterator := p.iterator.drop offset }

/-- `NextToken` up to the end of the token, which is behind some lines of its own. -/
def scanned (type : TokenType) (lines : ℕ) (rest : List Char) : LexerPosition :=
  setTokenEnd
    { p.setTokenStart with
      token := { p.setTokenStart.token with type := type }
      iterator := rest
      line := p.setTokenStart.line + lines }

/-- Behind a chunk that ends before `last`, and behind what ends it: `ScanTemplateStringEnd`, or the start
of an expression. -/
def endChunk (lines : ℕ) (last : List Char) : LexerPosition :=
  if last.head? = some '`' then
    setTokenEnd { p.resetTokenEnd with line := p.resetTokenEnd.line + lines, iterator := last.tail }
  else { p.resetTokenEnd with line := p.resetTokenEnd.line + lines, iterator := last.drop 2 }

/-- A chunk in `ParseTemplateLiteral`: the first of its scans is undone. -/
def templateElement : Option LexerPosition :=
  (scanText '`' (p.resetTokenEnd.iterator.length + 1) p.resetTokenEnd.iterator).bind fun _ =>
    (templateLines p.resetTokenEnd.iterator).bind fun (lines, last) => (p.endChunk lines last).skip

/-- The case of a slash in `ParsePrimaryExpression`, up to the end of the literal. -/
def endRegExp (rest : List Char) : LexerPosition :=
  { p.resetTokenEnd with
    token := { p.resetTokenEnd.token with type := .regexp }
    iterator := rest }

/-- White space is skipped before the token ends. -/
def regExpLiteral (rest : List Char) : Option LexerPosition :=
  (p.endRegExp rest).skip.map setTokenEnd

end LexerPosition

/-- The lexer at the start of a source. -/
def initialPosition (source : List Char) : Option LexerPosition :=
  LexerPosition.skip ⟨⟨.eos, false, ⟨source, 0⟩, ⟨source, 0⟩⟩, source, 0, 0⟩

/-! ## Calls of the parser -/

/-- The text of a token on one line. -/
def TokenType.Text : TokenType → List Char → Prop
  | .rightBrace, text => text = ['}']
  | .divide, text => text = ['/'] ∨ text = ['/', '=']
  | .lessThan, text => text = ['<']
  | .greaterThan, text => text = ['>']
  | .leftShift, text => text = ['<', '<']
  | .rightShift, text => text = ['>', '>']
  | .unsignedRightShift, text => text = ['>', '>', '>']
  | .ident, text | .other, text =>
    text ≠ [] ∧ (∀ c ∈ text, ¬isLineTerminator c) ∧ ∀ c ∈ text.head?, c ∉ ['"', '\'', '`']
  | _, _ => False

/-- `NextToken` from the start of a token up to its end: its type and lines, and what is behind it. -/
inductive ScansToken : List Char → TokenType → ℕ → List Char → Prop where
  | eos : ScansToken [] .eos 0 []
  | string {quote : Char} {cs rest : List Char} {lines : ℕ} (hquote : quote ∈ ['"', '\''])
      (h : stringLines quote (cs.length + 1) cs = some (lines, rest)) :
      ScansToken (quote :: cs) .string lines rest
  | backTick (rest : List Char) : ScansToken ('`' :: rest) .backTick 0 rest
  | plain {type : TokenType} {text : List Char} (h : type.Text text) (rest : List Char) :
      ScansToken (text ++ rest) type 0 rest

/-- What the parser is handed: a token, from `first` on and with the one before it up to `previous`, or an
element of a template. -/
inductive Event where
  | token (previous first : List Char) (line : ℕ) (newLine : Bool)
  | element (first : List Char) (line : ℕ)

/-- The line is one more than the line terminator sequences before it, and the flag tells if one of these is
behind the token before. -/
def Event.Right (source : List Char) : Event → Prop
  | .token previous first line newLine =>
    line = 1 + linesBetween source first ∧ (newLine = true ↔ 0 < linesBetween previous first)
  | .element first line => line = 1 + linesBetween source first

/-- The lexer, with where the token before its token ends and where its token starts and ends. -/
structure Lexed where
  pos : LexerPosition
  previous : List Char
  first : List Char
  rest : List Char

/-- The event of the token; lines are reported from one on, as in `GetLocation`. -/
def Lexed.token (s : Lexed) : Event :=
  .token s.previous s.first (s.pos.token.start.line + 1) s.pos.token.newLine

/-- What the parser may call; `rest` is behind the token that is read. -/
inductive Call where
  | nextToken (type : TokenType) (rest : List Char)
  /-- `NextToken` where no white space is skipped. -/
  | templateToken (type : TokenType) (rest : List Char)
  | templateElement
  | regExpLiteral (rest : List Char)
  | forwardToken
  | backwardToken

/-- The tokens that `BackwardToken` splits, with its arguments. -/
def splitShift : TokenType → Option (TokenType × ℕ)
  | .leftShift => some (.lessThan, 1)
  | .rightShift => some (.greaterThan, 1)
  | .unsignedRightShift => some (.greaterThan, 2)
  | _ => none

/-- What is behind a chunk, with what ends it. -/
def behindChunk (rest : List Char) : List Char := if rest.head? = some '`' then rest.tail else rest.drop 2

inductive Step (s : Lexed) : Call → Event → Lexed → Prop where
  | nextToken {type : TokenType} {lines : ℕ} {rest : List Char} {p : LexerPosition}
      (htype : type ≠ .backTick) (hscan : ScansToken s.pos.iterator type lines rest)
      (hskip : (s.pos.scanned type lines rest).skip = some p) :
      Step s (.nextToken type rest) (Lexed.token ⟨p, s.rest, s.pos.iterator, rest⟩)
        ⟨p, s.rest, s.pos.iterator, rest⟩
  | templateToken {type : TokenType} {lines : ℕ} {rest : List Char}
      (htype : type = .backTick ∨ type = .rightBrace)
      (hscan : ScansToken s.pos.iterator type lines rest) :
      Step s (.templateToken type rest)
        (Lexed.token ⟨s.pos.scanned type lines rest, s.rest, s.pos.iterator, rest⟩)
        ⟨s.pos.scanned type lines rest, s.rest, s.pos.iterator, rest⟩
  | templateElement {p : LexerPosition} {last : List Char}
      (htype : s.pos.token.type = .backTick ∨ s.pos.token.type = .rightBrace)
      (hlast : rawEnd s.pos.token.last.index = some last) (h : s.pos.templateElement = some p) :
      Step s .templateElement (.element s.pos.token.last.index (s.pos.token.last.line + 1))
        ⟨p, s.pos.token.last.index, s.pos.token.last.index, behindChunk last⟩
  | regExpLiteral {text rest : List Char} {p : LexerPosition} (htype : s.pos.token.type = .divide)
      (htext : s.pos.token.last.index = text ++ rest) (hplain : ∀ c ∈ text, ¬isLineTerminator c)
      (h : s.pos.regExpLiteral rest = some p) :
      Step s (.regExpLiteral rest) (Lexed.token ⟨p, s.previous, s.first, rest⟩)
        ⟨p, s.previous, s.first, rest⟩
  | forwardToken {rest : List Char} {p : LexerPosition} (htype : s.pos.token.type = .ident)
      (hlookahead : s.pos.iterator = '<' :: rest) (h : s.pos.forwardToken .lessThan 1 = some p) :
      Step s .forwardToken (Lexed.token ⟨p, s.rest, s.pos.iterator, rest⟩)
        ⟨p, s.rest, s.pos.iterator, rest⟩
  | backwardToken {type : TokenType} {offset : ℕ}
      (htype : splitShift s.pos.token.type = some (type, offset)) :
      Step s .backwardToken
        (Lexed.token ⟨s.pos.backwardToken type offset, s.previous, s.first,
          (s.pos.backwardToken type offset).iterator⟩)
        ⟨s.pos.backwardToken type offset, s.previous, s.first, (s.pos.backwardToken type offset).iterator⟩

/-- The calls of the parser on a source, each with the property `P`: the states so far, the last one first,
and what the parser was handed. It may go back to any state. -/
inductive Run (source : List Char) (P : Lexed → Call → Prop) : List Lexed → List Event → Prop where
  | start {p : LexerPosition} (h : initialPosition source = some p) :
      Run source P [⟨p, source, source, source⟩] []
  | call {s s' : Lexed} {saved : List Lexed} {call : Call} {e : Event} {events : List Event} :
      Run source P (s :: saved) events → P s call → Step s call e s' →
      Run source P (s' :: s :: saved) (e :: events)
  | rewind {s s' : Lexed} {saved : List Lexed} {events : List Event} :
      Run source P (s :: saved) events → s' ∈ saved → Run source P (s' :: s :: saved) events

/-! ## What is counted wrongly -/

/-- The call comes upon no separator without a backslash and no comment that is not plain. A slash or name
that is changed is not the first token of its line and has no line behind it. -/
def Regular (s : Lexed) : Call → Prop
  | .nextToken type rest =>
    (type = .string → ∀ quote cs, s.pos.iterator = quote :: cs → ¬hasSeparator quote cs) ∧
      plainWhiteSpaces rest
  | .templateToken _ _ => True
  | .templateElement =>
    ¬chunkHasSeparator s.pos.token.last.index ∧
      ∀ last, rawEnd s.pos.token.last.index = some last → plainWhiteSpaces (behindChunk last)
  | .regExpLiteral rest =>
    s.pos.token.newLine = false ∧ s.pos.nextTokenLine = 0 ∧ plainWhiteSpaces rest
  | .forwardToken =>
    s.pos.token.newLine = false ∧ s.pos.nextTokenLine = 0 ∧ plainWhiteSpaces s.pos.iterator.tail
  | .backwardToken => True

/-! ## The operations -/

namespace LexerPosition

variable (p : LexerPosition)

theorem setTokenStart_eq :
    p.setTokenStart = ⟨{ p.token with
      newLine := p.nextTokenLine ≠ 0, start := ⟨p.iterator, p.line + p.nextTokenLine⟩ },
      p.iterator, p.line + p.nextTokenLine, 0⟩ := by
  unfold setTokenStart
  split_ifs with h
  · simp [h]
  · rw [not_not] at h
    simp [h]

theorem skip_eq {p q : LexerPosition} (h : p.skip = some q) : ∃ lines rest,
    skipWhiteSpaces p.iterator = some (lines, rest) ∧
      q = { p with iterator := rest, nextTokenLine := p.nextTokenLine + lines } := by
  obtain ⟨⟨lines, rest⟩, hskip, rfl⟩ := Option.map_eq_some_iff.mp h
  exact ⟨lines, rest, hskip, rfl⟩

end LexerPosition

theorem TokenType.Text.plain {type : TokenType} {text : List Char} (h : type.Text text) :
    ∀ c ∈ text, ¬isLineTerminator c := by
  cases type with
  | ident | other => exact h.2.1
  | divide => rcases h with rfl | rfl <;> decide
  | rightBrace | lessThan | greaterThan | leftShift | rightShift | unsignedRightShift =>
    obtain rfl := h
    decide
  | eos | string | regexp | backTick => exact h.elim

theorem rawEnd_ends {cs last : List Char} (h : rawEnd cs = some last) :
    (∃ rest, last = '`' :: rest) ∨ ∃ rest, last = '$' :: '\x7b' :: rest := by
  fun_induction rawEnd cs with
  | case1 | case3 | case4 => cases h
  | case2 c cs hend =>
    cases h
    rcases hend with rfl | ⟨rfl, hbrace⟩
    · exact .inl ⟨cs, rfl⟩
    · obtain ⟨cs, rfl⟩ := List.head?_eq_some_iff.mp hbrace
      exact .inr ⟨cs, rfl⟩
  | case5 _ _ _ _ _ ih | case6 _ _ _ _ _ ih | case7 _ _ _ _ ih => exact ih h

/-! ## Runs -/

/-- The tokens that the parser may change. -/
def changeable : TokenType → Bool
  | .ident | .divide | .leftShift | .rightShift | .unsignedRightShift => true
  | _ => false

/-- The token is as `NextToken` leaves it. -/
structure Lexed.Read (source : List Char) (s : Lexed) : Prop where
  start : s.pos.token.start = ⟨s.first, s.pos.line⟩
  last : s.pos.token.last.index = s.rest
  text : ∃ text, s.pos.token.type.Text text ∧ s.first = text ++ s.rest
  counted : Counted source s.pos.line s.first
  newLine : s.pos.token.newLine = true ↔ 0 < linesBetween s.previous s.first

/-- The lines are counted up to the iterator. -/
structure Lexed.Valid (source : List Char) (s : Lexed) : Prop where
  line : Counted source s.pos.line s.rest
  skipped : Counted s.rest s.pos.nextTokenLine s.pos.iterator
  last : s.pos.token.type ≠ .regexp → Counted source s.pos.token.last.line s.pos.token.last.index
  read : changeable s.pos.token.type → s.Read source

theorem Lexed.token_right {source : List Char} {s : Lexed} (hline : Counted source s.pos.token.start.line s.first)
    (hnewLine : s.pos.token.newLine = true ↔ 0 < linesBetween s.previous s.first) :
    s.token.Right source :=
  ⟨by rw [hline.linesBetween_eq, Nat.add_comm], hnewLine⟩

section

variable {cs rest : List Char} {type : TokenType} {lines : ℕ} (h : ScansToken cs type lines rest)
include h

theorem ScansToken.counted (hregular : type = .string → ∀ quote ds, cs = quote :: ds → ¬hasSeparator quote ds) :
    Counted cs lines rest := by
  cases h with
  | eos => exact .refl []
  | @string quote cs _ _ hquote hlines =>
    refine (stringLines_counted hquote hlines (hregular rfl quote cs rfl)).cons_plain ?_
    rcases List.mem_pair.mp hquote with rfl | rfl <;> decide
  | backTick => exact (Counted.refl rest).cons_plain (by decide)
  | plain htext => exact .of_plain htext.plain rest

theorem ScansToken.text (htype : changeable type) :
    lines = 0 ∧ ∃ text, type.Text text ∧ cs = text ++ rest := by
  cases h with
  | eos | string | backTick => cases htype
  | @plain _ text htext => exact ⟨rfl, text, htext, rfl⟩

end

section

variable {source : List Char} {s s' : Lexed} {p : LexerPosition} {type : TokenType} {lines : ℕ}
  {rest : List Char}

section

variable (hvalid : s.Valid source)
include hvalid

theorem Lexed.Valid.skip (h : s.pos.skip = some p)
    (hplain : plainWhiteSpaces s.pos.iterator) :
    Lexed.Valid source ⟨p, s.previous, s.first, s.rest⟩ ∧
      Lexed.token ⟨p, s.previous, s.first, s.rest⟩ = s.token := by
  obtain ⟨lines, rest, hskip, rfl⟩ := LexerPosition.skip_eq h
  refine ⟨⟨hvalid.line, hvalid.skipped.trans (skipWhiteSpaces_counted hskip hplain), hvalid.last, ?_⟩, rfl⟩
  intro htype
  obtain ⟨hstart, hlast, htext, hcounted, hnewLine⟩ := hvalid.read htype
  exact ⟨hstart, hlast, htext, hcounted, hnewLine⟩

theorem Lexed.Valid.scanned (hscan : ScansToken s.pos.iterator type lines rest)
    (hregular : type = .string → ∀ quote cs, s.pos.iterator = quote :: cs → ¬hasSeparator quote cs) :
    Lexed.Valid source ⟨s.pos.scanned type lines rest, s.rest, s.pos.iterator, rest⟩ ∧
      (Lexed.token ⟨s.pos.scanned type lines rest, s.rest, s.pos.iterator, rest⟩).Right source := by
  have hfirst : Counted source (s.pos.line + s.pos.nextTokenLine) s.pos.iterator :=
    hvalid.line.trans hvalid.skipped
  have hrest : Counted source (s.pos.line + s.pos.nextTokenLine + lines) rest :=
    hfirst.trans (hscan.counted hregular)
  have hnewLine : s.pos.nextTokenLine ≠ 0 ↔ 0 < linesBetween s.rest s.pos.iterator := by
    rw [hvalid.skipped.linesBetween_eq, Nat.pos_iff_ne_zero]
  simp only [LexerPosition.scanned, LexerPosition.setTokenStart_eq, LexerPosition.setTokenEnd]
  refine ⟨⟨hrest, .refl rest, fun _ => hrest, fun htype => ?_⟩, Lexed.token_right hfirst (by simpa using hnewLine)⟩
  obtain ⟨rfl, text, htext, hiterator⟩ := hscan.text htype
  exact ⟨rfl, rfl, ⟨text, htext, hiterator⟩, hfirst, by simpa using hnewLine⟩

theorem Lexed.Valid.nextToken {e : Event} (hregular : Regular s (.nextToken type rest)) (h : Step s (.nextToken type rest) e s') :
    s'.Valid source ∧ e.Right source := by
  cases h with
  | nextToken htype hscan hskip =>
    obtain ⟨hscanned, hright⟩ := hvalid.scanned hscan hregular.1
    obtain ⟨hvalid', htoken⟩ := hscanned.skip hskip hregular.2
    exact ⟨hvalid', htoken ▸ hright⟩

theorem Lexed.Valid.templateToken {e : Event} (h : Step s (.templateToken type rest) e s') : s'.Valid source ∧ e.Right source := by
  cases h with
  | templateToken htype hscan =>
    refine hvalid.scanned hscan fun hstring => ?_
    rcases htype with rfl | rfl <;> cases hstring

theorem Lexed.Valid.templateElement {e : Event} (hregular : Regular s .templateElement) (h : Step s .templateElement e s') :
    s'.Valid source ∧ e.Right source := by
  cases h with
  | @templateElement p last htype hlast h =>
    have hother : s.pos.token.type ≠ .regexp ∧ changeable s.pos.token.type = false := by
      rcases htype with htype | htype <;> simp [htype, changeable]
    have hread {P : Prop} (hchangeable : changeable s.pos.token.type) : P :=
      absurd hchangeable (by simp [hother.2])
    have hstart := hvalid.last hother.1
    refine ⟨?_, by rw [Event.Right, hstart.linesBetween_eq, Nat.add_comm]⟩
    obtain ⟨_, -, h⟩ := Option.bind_eq_some_iff.mp h
    obtain ⟨⟨lines, last'⟩, hlines, h⟩ := Option.bind_eq_some_iff.mp h
    replace hlines : templateLines s.pos.token.last.index = some (lines, last') := hlines
    obtain rfl : last' = last := by simpa [hlines, hlast] using templateLines_rest s.pos.token.last.index
    have hcounted := hstart.trans (templateLines_counted hlines hregular.1)
    have hplain := hregular.2 last' hlast
    rw [behindChunk] at hplain ⊢
    rcases rawEnd_ends hlast with ⟨rest, rfl⟩ | ⟨rest, rfl⟩
    · rw [List.head?_cons, if_pos rfl, List.tail_cons] at hplain ⊢
      have hrest : Counted source (s.pos.token.last.line + lines) rest :=
        hcounted.trans ((Counted.refl rest).cons_plain (by decide))
      have hended : Lexed.Valid source ⟨s.pos.endChunk lines ('`' :: rest), s.pos.token.last.index,
          s.pos.token.last.index, rest⟩ := by
        rw [LexerPosition.endChunk, List.head?_cons, if_pos rfl]
        refine ⟨hrest, .refl rest, fun _ => hrest, ?_⟩
        rw [LexerPosition.resetTokenEnd, LexerPosition.setTokenStart_eq]
        exact hread
      exact (hended.skip h hplain).1
    · rw [List.head?_cons, if_neg (by decide)] at hplain ⊢
      have hrest : Counted source (s.pos.token.last.line + lines) rest :=
        hcounted.trans (((Counted.refl rest).cons_plain (by decide)).cons_plain (by decide))
      have hended : Lexed.Valid source ⟨s.pos.endChunk lines ('$' :: '\x7b' :: rest), s.pos.token.last.index,
          s.pos.token.last.index, rest⟩ := by
        rw [LexerPosition.endChunk, List.head?_cons, if_neg (by decide), LexerPosition.resetTokenEnd,
          LexerPosition.setTokenStart_eq]
        exact ⟨hrest, .refl rest, fun _ => hstart, hread⟩
      exact (hended.skip h hplain).1

theorem Lexed.Valid.regExpLiteral {e : Event} (hregular : Regular s (.regExpLiteral rest)) (h : Step s (.regExpLiteral rest) e s') :
    s'.Valid source ∧ e.Right source := by
  cases h with
  | @regExpLiteral text _ p htype htext hplain h =>
    obtain ⟨hnewLine, hlines, hspaces⟩ := hregular
    have hread := hvalid.read (by rw [htype]; rfl)
    have hlast := hvalid.last (by rw [htype]; nofun)
    rw [htext] at hlast
    have hended : Lexed.Valid source ⟨s.pos.endRegExp rest, s.previous, s.first, rest⟩ :=
      ⟨hlast.trans (.of_plain hplain rest), .refl rest, fun hne => absurd rfl hne, nofun⟩
    obtain ⟨q, hskip, rfl⟩ := Option.map_eq_some_iff.mp h
    obtain ⟨⟨hline, hskipped, -, -⟩, -⟩ := hended.skip hskip hspaces
    obtain ⟨lines, iterator, -, rfl⟩ := LexerPosition.skip_eq hskip
    refine ⟨⟨hline, hskipped, fun hne => absurd rfl hne, nofun⟩, ?_⟩
    refine Lexed.token_right ?_ ?_
    · simp only [LexerPosition.setTokenEnd, LexerPosition.endRegExp, LexerPosition.resetTokenEnd,
        LexerPosition.setTokenStart_eq, hlines]
      exact hread.counted
    · simp only [LexerPosition.setTokenEnd, LexerPosition.endRegExp, LexerPosition.resetTokenEnd,
        LexerPosition.setTokenStart_eq, hlines, ← hread.newLine, hnewLine]
      simp

theorem Lexed.Valid.forwardToken {e : Event} (hregular : Regular s .forwardToken) (h : Step s .forwardToken e s') :
    s'.Valid source ∧ e.Right source := by
  cases h with
  | @forwardToken rest p htype hlookahead h =>
    obtain ⟨hnewLine, hlines, hspaces⟩ := hregular
    have hread := hvalid.read (by rw [htype]; rfl)
    have hfirst := hvalid.line.trans hvalid.skipped
    rw [hlines] at hfirst
    have hrest : Counted source s.pos.line rest := by
      rw [hlookahead] at hfirst
      exact hfirst.trans ((Counted.refl rest).cons_plain (by decide))
    have hended : Lexed.Valid source
        ⟨{ s.pos with
            token := { s.pos.token with type := .lessThan }
            iterator := s.pos.iterator.drop 1 }, s.rest, s.pos.iterator, rest⟩ := by
      refine ⟨hrest, ?_, fun _ => hvalid.last (by rw [htype]; nofun), nofun⟩
      rw [hlookahead, hlines]
      exact .refl rest
    rw [← List.drop_one] at hspaces
    obtain ⟨hvalid', htoken⟩ := hended.skip h hspaces
    refine ⟨hvalid', htoken ▸ Lexed.token_right ?_ ?_⟩
    · rw [hread.start]
      exact hfirst
    · rw [hvalid.skipped.linesBetween_eq, hlines, hnewLine]
      simp

end

theorem splitShift_sound {shift : TokenType} {offset : ℕ} (h : splitShift shift = some (type, offset)) :
    changeable shift ∧ changeable type = false ∧ type ≠ .regexp ∧
      ∀ text, shift.Text text → offset ≤ text.length := by
  cases shift with
  | leftShift | rightShift | unsignedRightShift =>
    cases h
    refine ⟨rfl, rfl, nofun, ?_⟩
    rintro text rfl
    decide
  | _ => cases h

/-- The parts of a shift are on one line. -/
theorem Lexed.Valid.backwardToken {e : Event} (hvalid : s.Valid source)
    (h : Step s .backwardToken e s') : s'.Valid source ∧ e.Right source := by
  cases h with
  | @backwardToken type offset htype =>
    obtain ⟨hshift, htypes, hregexp, hlength⟩ := splitShift_sound htype
    obtain ⟨hstart, hlast, ⟨text, htext, hfirst⟩, hcounted, hflag⟩ := hvalid.read hshift
    have hoffset := hlength text htext
    have hiterator : (s.pos.backwardToken type offset).iterator = text.drop (text.length - offset) ++ s.rest := by
      have hdrop : text.length + s.rest.length - (s.rest.length + offset) = text.length - offset := by omega
      simp only [LexerPosition.backwardToken]
      rw [hstart, hlast, hfirst, List.length_append, hdrop, List.drop_append_of_le_length (by omega)]
    have hparts : Counted s.first 0 (text.drop (text.length - offset) ++ s.rest) := by
      have hsplit : s.first =
          text.take (text.length - offset) ++ (text.drop (text.length - offset) ++ s.rest) := by
        rw [hfirst, ← List.append_assoc, List.take_append_drop]
      rw [hsplit]
      exact .of_plain (fun c hc => htext.plain c (List.mem_of_mem_take hc)) _
    have hrest : Counted source s.pos.line (s.pos.backwardToken type offset).iterator := by
      rw [hiterator]
      exact hcounted.trans hparts
    refine ⟨⟨hrest, .refl _, fun _ => ?_, fun hchangeable => ?_⟩, Lexed.token_right ?_ hflag⟩
    · exact hvalid.last fun hne => by simp [hne, changeable] at hshift
    · exact absurd hchangeable (by simp [LexerPosition.backwardToken, htypes])
    · change Counted source s.pos.token.start.line s.first
      rw [hstart]
      exact hcounted

end

theorem Step.right {source : List Char} {s s' : Lexed} {call : Call} {e : Event} (h : Step s call e s')
    (hvalid : s.Valid source) (hregular : Regular s call) : s'.Valid source ∧ e.Right source := by
  cases call with
  | nextToken type rest => exact hvalid.nextToken hregular h
  | templateToken type rest => exact hvalid.templateToken h
  | templateElement => exact hvalid.templateElement hregular h
  | regExpLiteral rest => exact hvalid.regExpLiteral hregular h
  | forwardToken => exact hvalid.forwardToken hregular h
  | backwardToken => exact hvalid.backwardToken h

theorem initialPosition_valid {source : List Char} {p : LexerPosition} (h : initialPosition source = some p)
    (hplain : plainWhiteSpaces source) : Lexed.Valid source ⟨p, source, source, source⟩ := by
  have hvalid : Lexed.Valid source
      ⟨⟨⟨.eos, false, ⟨source, 0⟩, ⟨source, 0⟩⟩, source, 0, 0⟩, source, source, source⟩ :=
    ⟨.refl source, .refl source, fun _ => .refl source, nofun⟩
  exact (hvalid.skip h hplain).1

theorem Run.valid {source : List Char} {saved : List Lexed} {events : List Event}
    (h : Run source Regular saved events) (hplain : plainWhiteSpaces source) :
    (∀ s ∈ saved, s.Valid source) ∧ ∀ e ∈ events, e.Right source := by
  induction h with
  | start h => exact ⟨by simpa using initialPosition_valid h hplain, nofun⟩
  | call hrun hregular hstep ih =>
    obtain ⟨hsaved, hevents⟩ := ih
    obtain ⟨hvalid, hright⟩ := hstep.right (hsaved _ List.mem_cons_self) hregular
    exact ⟨List.forall_mem_cons.mpr ⟨hvalid, hsaved⟩, List.forall_mem_cons.mpr ⟨hright, hevents⟩⟩
  | rewind hrun hmem ih =>
    obtain ⟨hsaved, hevents⟩ := ih
    exact ⟨List.forall_mem_cons.mpr ⟨hsaved _ (List.mem_cons_of_mem _ hmem), hsaved⟩, hevents⟩

/-- In a run without what is counted wrongly, every token has its line and its flag. -/
theorem Run.lines_right {source : List Char} {saved : List Lexed} {events : List Event}
    (hplain : plainWhiteSpaces source) (h : Run source Regular saved events) :
    ∀ e ∈ events, e.Right source := (h.valid hplain).2

theorem Run.name {source : List Char} {P : Lexed → Call → Prop} {s : Lexed} {saved : List Lexed}
    {events : List Event} {p : LexerPosition} (h : Run source P (s :: saved) events) (name rest : List Char)
    (hname : TokenType.ident.Text name) (hiterator : s.pos.iterator = name ++ rest)
    (hcall : P s (.nextToken .ident rest)) (hskip : (s.pos.scanned .ident 0 rest).skip = some p) :
    Run source P (⟨p, s.rest, s.pos.iterator, rest⟩ :: s :: saved)
      (Lexed.token ⟨p, s.rest, s.pos.iterator, rest⟩ :: events) :=
  h.call hcall (.nextToken nofun (hiterator ▸ .plain hname rest) hskip)

/-- The two names of a source with a line behind the first one. -/
theorem Run.lines_right_example :
    (Event.token ['\n', 'b'] ['b'] 2 true).Right ['a', '\n', 'b'] ∧
      (Event.token ['a', '\n', 'b'] ['a', '\n', 'b'] 1 false).Right ['a', '\n', 'b'] := by
  have hstart : Run ['a', '\n', 'b'] Regular _ _ := .start rfl
  have hfirst := hstart.name ['a'] ['\n', 'b'] ⟨nofun, by decide, by decide⟩ rfl ⟨nofun, rfl⟩ rfl
  have hsecond := hfirst.name ['b'] [] ⟨nofun, by decide, by decide⟩ rfl ⟨nofun, rfl⟩ rfl
  have hright := Run.lines_right rfl hsecond
  exact ⟨hright _ (.head _), hright _ (.tail _ (.head _))⟩

/-- A carriage return and its line feed are two lines in a comment. -/
theorem crlf_comment_lines : ¬ ∀ source saved events, Run source (fun _ _ => True) saved events →
    ∀ e ∈ events, e.Right source := by
  intro h
  have hstart : Run ['/', '*', '\r', '\n', '*', '/', 'a'] (fun _ _ => True) _ _ := .start rfl
  have hname := hstart.name ['a'] [] ⟨nofun, by decide, by decide⟩ rfl trivial rfl
  exact absurd (h _ _ _ hname _ List.mem_cons_self).1 (by decide)

end ArkTs2abc.Es2panda.Lexer
