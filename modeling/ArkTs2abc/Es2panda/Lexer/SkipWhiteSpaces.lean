import ArkTs2abc.Es2panda.Lexer.Iterator

/-!
# Lines and white space

The lexer counts lines where it skips white space. In a comment of several lines it counts a carriage return
and the line feed behind it twice, and a comment of one line counts a line also where the source ends.

## Main definitions

* `linesIn` — the line terminator sequences in a text, and `Counted` for two places of a source.
* `skipSingleLineComment`, `skipMultiLineComment`, `skipWhiteSpaces` — as in the lexer.
* `plainWhiteSpaces` — the lexer skips neither kind of comment.

## Main results

* `skipWhiteSpaces_counted` — the lines that are counted.
-/

namespace ArkTs2abc.Es2panda.Lexer

/-! ## Lines -/

def isLineTerminator (c : Char) : Bool := c = '\n' || c = '\r' || c = '\u2028' || c = '\u2029'

/-- A sequence ends with the character: not with a carriage return that a line feed follows. -/
def endsLine (c : Char) (next : Option Char) : Bool := isLineTerminator c && !(c = '\r' && next = some '\n')

/-- The line terminator sequences that end in a text, in front of `rest`. -/
def linesIn : (text rest : List Char) → ℕ
  | [], _ => 0
  | c :: cs, rest => (endsLine c (cs ++ rest).head?).toNat + linesIn cs rest

/-- The sequences from a place of the source up to a later one; a place is what is left of the source. -/
def linesBetween (cs rest : List Char) : ℕ := linesIn (cs.take (cs.length - rest.length)) rest

/-- The later place comes `lines` sequences behind the other. -/
def Counted (cs : List Char) (lines : ℕ) (rest : List Char) : Prop :=
  ∃ text, cs = text ++ rest ∧ linesIn text rest = lines

theorem linesIn_append (xs ys rest : List Char) :
    linesIn (xs ++ ys) rest = linesIn xs (ys ++ rest) + linesIn ys rest := by
  induction xs with
  | nil => simp [linesIn]
  | cons c xs ih => simp [linesIn, ih, add_assoc]

theorem Counted.refl (cs : List Char) : Counted cs 0 cs := ⟨[], rfl, rfl⟩

variable {cs rest : List Char} {lines : ℕ}

theorem Counted.trans {mid : List Char} {m n : ℕ} (h : Counted cs m mid) (h' : Counted mid n rest) :
    Counted cs (m + n) rest := by
  obtain ⟨text, rfl, rfl⟩ := h
  obtain ⟨text', rfl, rfl⟩ := h'
  exact ⟨text ++ text', by rw [List.append_assoc], linesIn_append text text' rest⟩

theorem Counted.cons (c : Char) (h : Counted cs lines rest) :
    Counted (c :: cs) ((endsLine c cs.head?).toNat + lines) rest := by
  obtain ⟨text, rfl, rfl⟩ := h
  exact ⟨c :: text, rfl, rfl⟩

theorem Counted.cons_plain {c : Char} (hc : ¬isLineTerminator c) (h : Counted cs lines rest) :
    Counted (c :: cs) lines rest := by
  have hcons := h.cons c
  rwa [endsLine, eq_false_of_ne_true hc, Bool.false_and, Bool.toNat_false, Nat.zero_add] at hcons

theorem Counted.cons_line {c : Char} (hc : isLineTerminator c)
    (hcrlf : ¬(c = '\r' ∧ cs.head? = some '\n')) (h : Counted cs lines rest) :
    Counted (c :: cs) (1 + lines) rest := by
  have hcons := h.cons c
  have hends : endsLine c cs.head? = true := by
    simp only [endsLine, hc, Bool.true_and]
    grind
  rwa [hends, Bool.toNat_true] at hcons

theorem Counted.cons_return (hlf : cs.head? = some '\n') (h : Counted cs lines rest) :
    Counted ('\r' :: cs) lines rest := by
  have hcons := h.cons '\r'
  rwa [hlf, show endsLine '\r' (some '\n') = false by decide, Bool.toNat_false, Nat.zero_add] at hcons

theorem Counted.of_plain {text : List Char} (h : ∀ c ∈ text, ¬isLineTerminator c) (rest : List Char) :
    Counted (text ++ rest) 0 rest := by
  induction text with
  | nil => exact .refl rest
  | cons c text ih =>
    obtain ⟨hc, htext⟩ := List.forall_mem_cons.mp h
    exact (ih htext).cons_plain hc

theorem Counted.linesBetween_eq (h : Counted cs lines rest) :
    linesBetween cs rest = lines := by
  obtain ⟨text, rfl, rfl⟩ := h
  rw [linesBetween, List.length_append, Nat.add_sub_cancel, List.take_left]

/-! ## White space -/

/-- `SkipSingleLineComment`: the lines, and the iterator. -/
def skipSingleLineComment : List Char → ℕ × List Char
  | [] => (1, [])
  | c :: cs =>
    if c = '\r' then (1, if cs.head? = some '\n' then cs.tail else cs)
    else if isLineTerminator c then (1, cs)
    else skipSingleLineComment cs

/-- `SkipMultiLineComment`: the lines, and the iterator. -/
def skipMultiLineComment : List Char → Option (ℕ × List Char)
  | [] => none  -- "Unterminated multi-line comment"
  | c :: cs =>
    if isLineTerminator c then (skipMultiLineComment cs).map fun (lines, rest) => (1 + lines, rest)
    else if c = '*' ∧ cs.head? = some '/' then some (0, cs.tail)
    else skipMultiLineComment cs

/-- The characters that are skipped on their line. -/
def isBlank (c : Char) : Bool := c ∈ ['\t', '\u000B', '\u000C', ' ', '\u00A0', '\uFEFF']

/-- The loop of `SkipWhiteSpaces`, for at most `n` rounds: the lines, and the iterator. -/
def skipWhiteSpacesLoop : ℕ → List Char → Option (ℕ × List Char)
  | 0, _ => none
  | _ + 1, [] => some (0, [])
  | n + 1, c :: cs =>
    -- the line feed is next, and is counted
    if c = '\r' ∧ cs.head? = some '\n' then skipWhiteSpacesLoop n cs
    else if isLineTerminator c then
      (skipWhiteSpacesLoop n cs).map fun (lines, rest) => (1 + lines, rest)
    else if isBlank c then skipWhiteSpacesLoop n cs
    else if c = '/' ∧ cs.head? = some '/' then
      (skipWhiteSpacesLoop n (skipSingleLineComment cs.tail).2).map
        fun (lines, rest) => ((skipSingleLineComment cs.tail).1 + lines, rest)
    else if c = '/' ∧ cs.head? = some '*' then
      (skipMultiLineComment cs.tail).bind fun (lines, cs) =>
        (skipWhiteSpacesLoop n cs).map fun (lines', rest) => (lines + lines', rest)
    else some (0, c :: cs)

def skipWhiteSpaces (cs : List Char) : Option (ℕ × List Char) := skipWhiteSpacesLoop (cs.length + 1) cs

/-- Behind the start of a comment of several lines: there is a carriage return with a line feed in it. -/
def commentHasCrLf : List Char → Bool
  | [] => false
  | c :: cs =>
    if c = '*' ∧ cs.head? = some '/' then false
    else (c = '\r' ∧ cs.head? = some '\n') || commentHasCrLf cs

/-- Behind the start of a comment of several lines: what is behind its end. -/
def afterComment : List Char → List Char
  | [] => []
  | c :: cs => if c = '*' ∧ cs.head? = some '/' then cs.tail else afterComment cs

/-- Behind the start of a comment of one line: what is behind the end of its line. -/
def afterLine : List Char → List Char
  | [] => []
  | c :: cs =>
    if c = '\r' ∧ cs.head? = some '\n' then cs.tail else if isLineTerminator c then cs else afterLine cs

/-- In the next `n` pieces of white space, every comment of one line has its end of a line, and no other
comment has a carriage return with a line feed. -/
def plainWhiteSpacesLoop : ℕ → List Char → Bool
  | 0, _ => true
  | _ + 1, [] => true
  | n + 1, c :: cs =>
    if isLineTerminator c || isBlank c then plainWhiteSpacesLoop n cs
    else if c = '/' ∧ cs.head? = some '/' then
      cs.any isLineTerminator && plainWhiteSpacesLoop n (afterLine cs.tail)
    else if c = '/' ∧ cs.head? = some '*' then
      !commentHasCrLf cs.tail && plainWhiteSpacesLoop n (afterComment cs.tail)
    else true

def plainWhiteSpaces (cs : List Char) : Bool := plainWhiteSpacesLoop (cs.length + 1) cs

/-! ## The lines that are counted -/

theorem skipSingleLineComment_rest (cs : List Char) : (skipSingleLineComment cs).2 = afterLine cs := by
  induction cs with
  | nil => rfl
  | cons c cs ih =>
    rw [skipSingleLineComment, afterLine]
    grind [isLineTerminator]

theorem skipSingleLineComment_counted (h : cs.any isLineTerminator) :
    Counted cs (skipSingleLineComment cs).1 (skipSingleLineComment cs).2 := by
  induction cs with
  | nil => simp at h
  | cons c cs ih =>
    rw [skipSingleLineComment]
    split_ifs with hcr hlf hline
    · subst hcr
      obtain ⟨cs, rfl⟩ := List.head?_eq_some_iff.mp hlf
      exact ((Counted.refl cs).cons_line rfl (by simp)).cons_return rfl
    · subst hcr
      exact (Counted.refl cs).cons_line rfl (fun h => hlf h.2)
    · exact (Counted.refl cs).cons_line hline (fun h => hcr h.1)
    · exact (ih (by simpa [hline] using h)).cons_plain hline

theorem skipMultiLineComment_rest (h : skipMultiLineComment cs = some (lines, rest)) :
    rest = afterComment cs := by
  induction cs generalizing lines with
  | nil => cases h
  | cons c cs ih =>
    rw [skipMultiLineComment] at h
    rw [afterComment]
    split_ifs at h with hline hend
    · obtain ⟨⟨lines', rest'⟩, hskip, heq⟩ := Option.map_eq_some_iff.mp h
      cases heq
      have hstar : ¬(c = '*' ∧ cs.head? = some '/') := by
        rintro ⟨rfl, -⟩
        exact absurd hline (by decide)
      rw [if_neg hstar, ih hskip]
    · rw [if_pos hend]
      exact (Prod.mk.inj (Option.some.inj h)).2.symm
    · rw [if_neg hend, ih h]

theorem skipMultiLineComment_counted (h : skipMultiLineComment cs = some (lines, rest))
    (hplain : ¬commentHasCrLf cs) :
    Counted cs lines rest := by
  induction cs generalizing lines with
  | nil => cases h
  | cons c cs ih =>
    rw [skipMultiLineComment] at h
    rw [commentHasCrLf] at hplain
    split_ifs at h with hline hend
    · obtain ⟨⟨lines', rest'⟩, hskip, heq⟩ := Option.map_eq_some_iff.mp h
      cases heq
      have hstar : ¬(c = '*' ∧ cs.head? = some '/') := by
        rintro ⟨rfl, -⟩
        exact absurd hline (by decide)
      rw [if_neg hstar] at hplain
      exact (ih hskip (by grind)).cons_line hline (by grind)
    · obtain ⟨rfl, hslash⟩ := hend
      obtain ⟨cs, rfl⟩ := List.head?_eq_some_iff.mp hslash
      cases h
      exact ((Counted.refl cs).cons_plain (by decide)).cons_plain (by decide)
    · rw [if_neg hend] at hplain
      exact (ih h (by grind)).cons_plain hline

theorem skipWhiteSpacesLoop_counted {n : ℕ} (h : skipWhiteSpacesLoop n cs = some (lines, rest))
    (hplain : plainWhiteSpacesLoop n cs) :
    Counted cs lines rest := by
  induction n generalizing cs lines with
  | zero => cases h
  | succ n ih =>
    rcases cs with _ | ⟨c, cs⟩
    · cases h
      exact .refl []
    rw [skipWhiteSpacesLoop] at h
    rw [plainWhiteSpacesLoop] at hplain
    split_ifs at h with hcrlf hline hblank hsingle hmulti
    · obtain ⟨rfl, hlf⟩ := hcrlf
      exact (ih h hplain).cons_return hlf
    · obtain ⟨⟨lines', rest'⟩, hloop, heq⟩ := Option.map_eq_some_iff.mp h
      cases heq
      rw [hline, Bool.true_or, if_pos rfl] at hplain
      exact (ih hloop hplain).cons_line hline hcrlf
    · rw [hblank, Bool.or_true, if_pos rfl] at hplain
      exact (ih h hplain).cons_plain hline
    · obtain ⟨rfl, hslash⟩ := hsingle
      obtain ⟨cs, rfl⟩ := List.head?_eq_some_iff.mp hslash
      obtain ⟨⟨lines', rest'⟩, hloop, heq⟩ := Option.map_eq_some_iff.mp h
      cases heq
      rw [if_neg (by decide), if_pos ⟨rfl, rfl⟩, Bool.and_eq_true, ← skipSingleLineComment_rest] at hplain
      have hskip : Counted cs _ _ :=
        skipSingleLineComment_counted (by simpa [isLineTerminator] using hplain.1)
      exact ((hskip.trans (ih hloop hplain.2)).cons_plain (by decide)).cons_plain (by decide)
    · obtain ⟨rfl, hstar⟩ := hmulti
      obtain ⟨cs, rfl⟩ := List.head?_eq_some_iff.mp hstar
      obtain ⟨⟨lines', cs'⟩, hcomment, h⟩ := Option.bind_eq_some_iff.mp h
      obtain ⟨⟨lines'', rest'⟩, hloop, heq⟩ := Option.map_eq_some_iff.mp h
      cases heq
      have hrest := skipMultiLineComment_rest hcomment
      rw [if_neg (by decide), if_neg (by simp), if_pos ⟨rfl, rfl⟩, Bool.and_eq_true, List.tail_cons] at hplain
      have hskip := skipMultiLineComment_counted hcomment (by simpa using hplain.1)
      exact ((hskip.trans (ih hloop (hrest ▸ hplain.2))).cons_plain (by decide)).cons_plain (by decide)
    · cases h
      exact .refl _

theorem skipWhiteSpaces_counted (h : skipWhiteSpaces cs = some (lines, rest))
    (hplain : plainWhiteSpaces cs) :
    Counted cs lines rest :=
  skipWhiteSpacesLoop_counted h hplain

end ArkTs2abc.Es2panda.Lexer
