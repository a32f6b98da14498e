import ArkTs2abc.Es2panda.Lexer.SkipWhiteSpaces
import ArkTs2abc.Es2panda.Lexer.TemplateString

/-!
# Lines in literals

A string has lines behind backslashes only, and there every terminator is counted. The chunks of a template
have theirs anywhere, but a line or paragraph separator counts for none of the scanners, unless a backslash
precedes it in a string.

## Main definitions

* `stringLines`, `templateLines` — the lines that `ScanString` and `ScanTemplateString` count.
* `hasSeparator`, `chunkHasSeparator` — a separator that is not counted.

## Main results

* `stringLines_counted`, `templateLines_counted` — the lines that are counted.
* `templateLines_rest` — the literal ends where its scan stops.
-/

namespace ArkTs2abc.Es2panda.Lexer

open Unicode

def isSeparator (c : Char) : Bool := c = '\u2028' || c = '\u2029'

/-! ## The scanners -/

/-- `ScanString` between single or double quotes, for at most `n` rounds: the lines, and what is behind the
closing quote. -/
def stringLines (quote : Char) : ℕ → List Char → Option (ℕ × List Char)
  | 0, _ => none
  | _ + 1, [] => none  -- "Unterminated string"
  | n + 1, c :: cs =>
    if c = '\r' ∨ c = '\n' then none  -- "Newline is not allowed in strings"
    else if c = '\\' then
      (scanEscape cs).bind fun (_, _, rest) => (stringLines quote n rest).map fun (lines, rest) =>
        ((cs.head?.any isLineTerminator).toNat + lines, rest)
    else if c = quote then some (0, cs)
    else stringLines quote n cs

/-- `ScanTemplateString`: the lines, and what is left from the end of the chunk on. -/
def templateLines : List Char → Option (ℕ × List Char)
  | [] => none
  | c :: cs =>
    if c = '`' ∨ c = '$' ∧ cs.head? = some '\x7b' then some (0, c :: cs)
    -- the line feed is next, and is counted
    else if c = '\r' ∧ cs.head? = some '\n' then templateLines cs
    else if c = '\r' ∨ c = '\n' then (templateLines cs).map fun (lines, rest) => (1 + lines, rest)
    else if c = '\\' then
      match cs with
      | [] => none
      | d :: cs =>
        if isOctalDigit d.toNat ∧ cs.head? ≠ some '`' then none
        else if d = '`' ∨ d = '\\' then templateLines cs
        else templateLines (d :: cs)
    else templateLines cs

/-! ## The separators that are not counted -/

/-- Up to the closing quote there is a separator without a backslash. -/
def hasSeparator (quote : Char) : List Char → Bool
  | [] => false
  | c :: cs =>
    if c = '\\' then
      match cs with
      | [] => false
      | _ :: cs => hasSeparator quote cs
    else if c = quote then false
    else isSeparator c || hasSeparator quote cs

/-- Up to the end of the chunk there is a separator. -/
def chunkHasSeparator : List Char → Bool
  | [] => false
  | c :: cs =>
    if c = '`' ∨ c = '$' ∧ cs.head? = some '\x7b' then false
    else if c = '\\' ∧ (cs.head? = some '`' ∨ cs.head? = some '\\') then
      match cs with
      | [] => false
      | _ :: cs => chunkHasSeparator cs
    else isSeparator c || chunkHasSeparator cs

/-! ## Strings -/

theorem hasSeparator_escape (quote d : Char) (cs : List Char) :
    hasSeparator quote ('\\' :: d :: cs) = hasSeparator quote cs := by
  rw [hasSeparator.eq_def]
  simp

theorem hasSeparator_append {quote : Char} {cs : List Char}
    (h : ∀ c ∈ cs, c ≠ '\\' ∧ c ≠ quote ∧ ¬isSeparator c) (rest : List Char) :
    hasSeparator quote (cs ++ rest) = hasSeparator quote rest := by
  induction cs with
  | nil => rfl
  | cons c cs ih =>
    obtain ⟨⟨hslash, hquote, hseparator⟩, hcs⟩ := List.forall_mem_cons.mp h
    rw [List.cons_append, hasSeparator.eq_def]
    simp [hslash, hquote, hseparator, ih hcs]

theorem escapeDigit_plain {c : Char} (h : isHexDigit c.toNat ∨ c = '\x7b' ∨ c = '}') :
    c ≠ '\\' ∧ c ≠ '"' ∧ c ≠ '\'' ∧ ¬isLineTerminator c := by
  refine ⟨?_, ?_, ?_, ?_⟩
  · rintro rfl
    exact absurd h (by decide)
  · rintro rfl
    exact absurd h (by decide)
  · rintro rfl
    exact absurd h (by decide)
  · intro hline
    have hcases : c = '\n' ∨ c = '\r' ∨ c = '\u2028' ∨ c = '\u2029' := by
      simpa [isLineTerminator, or_assoc] using hline
    rcases hcases with rfl | rfl | rfl | rfl
    all_goals exact absurd h (by decide)

theorem isLineTerminator_of_isSeparator {c : Char} (h : isSeparator c) : isLineTerminator c := by
  simp only [isSeparator, isLineTerminator, Bool.or_eq_true] at h ⊢
  grind

theorem scanEscape_lines {cs rest : List Char} {cps : List ℕ} {empty : Bool}
    (h : scanEscape cs = some (cps, empty, rest)) {quote : Char} (hquote : quote ∈ ['"', '\'']) :
    Counted cs (cs.head?.any isLineTerminator).toNat rest ∧
      hasSeparator quote ('\\' :: cs) = hasSeparator quote rest := by
  obtain ⟨d, ds, rfl, htail, -⟩ := scanEscape_shape h
  rw [List.cons_append, hasSeparator_escape, List.head?_cons, Option.any_some]
  rcases htail with ⟨rfl, rfl | ⟨rfl, hlf⟩⟩ | ⟨hreturn, hds, -⟩
  · refine ⟨((Counted.refl rest).cons_line rfl (by simp)).cons_return rfl, hasSeparator_append ?_ rest⟩
    rcases List.mem_pair.mp hquote with rfl | rfl <;> decide
  · exact ⟨(Counted.refl rest).cons_line rfl (fun h => hlf h.2), rfl⟩
  · have hplain := fun c hc => escapeDigit_plain (hds c hc)
    have hcounted := Counted.of_plain (fun c hc => (hplain c hc).2.2.2) rest
    refine ⟨?_, hasSeparator_append (fun c hc => ?_) rest⟩
    · rcases hline : isLineTerminator d with _ | _
      · exact hcounted.cons_plain (by simp [hline])
      · exact hcounted.cons_line hline (fun h => hreturn h.1)
    · obtain ⟨hslash, hdouble, hsingle, hline⟩ := hplain c hc
      refine ⟨hslash, ?_, fun hseparator => hline (isLineTerminator_of_isSeparator hseparator)⟩
      rcases List.mem_pair.mp hquote with rfl | rfl <;> assumption

theorem stringLines_counted {quote : Char} (hquote : quote ∈ ['"', '\'']) {n : ℕ} {cs rest : List Char}
    {lines : ℕ} (h : stringLines quote n cs = some (lines, rest)) (hplain : ¬hasSeparator quote cs) :
    Counted cs lines rest := by
  induction n generalizing cs lines with
  | zero => cases h
  | succ n ih =>
    rcases cs with _ | ⟨c, cs⟩
    · cases h
    rw [stringLines] at h
    split_ifs at h with hbreak hslash hend
    · subst hslash
      obtain ⟨⟨cps, empty, mid⟩, hescape, h⟩ := Option.bind_eq_some_iff.mp h
      obtain ⟨⟨lines', rest'⟩, hlines, heq⟩ := Option.map_eq_some_iff.mp h
      obtain ⟨hcounted, hseparator⟩ := scanEscape_lines hescape hquote
      cases heq
      exact (hcounted.trans (ih hlines (hseparator ▸ hplain))).cons_plain (by decide)
    · obtain ⟨rfl, rfl⟩ := Prod.mk.inj (Option.some.inj h)
      refine (Counted.refl cs).cons_plain ?_
      rcases List.mem_pair.mp hquote with rfl | rfl <;> (subst hend; decide)
    · rw [hasSeparator.eq_def] at hplain
      simp only [hslash, hend, if_false, Bool.or_eq_true, not_or] at hplain
      refine (ih h hplain.2).cons_plain fun hline => ?_
      simp only [isLineTerminator, isSeparator, Bool.or_eq_true] at hline hplain
      grind

/-! ## Templates -/

theorem templateLines_counted {cs rest : List Char} {lines : ℕ}
    (h : templateLines cs = some (lines, rest)) (hplain : ¬chunkHasSeparator cs) :
    Counted cs lines rest := by
  induction cs using templateLines.induct generalizing lines with
  | case1 => cases h
  | case2 c cs hend =>
    rw [templateLines.eq_def] at h
    simp only [if_pos hend] at h
    cases h
    exact .refl _
  | case3 c cs hend hcrlf ih =>
    rw [templateLines.eq_def] at h
    rw [chunkHasSeparator.eq_def] at hplain
    simp only [if_neg hend, if_pos hcrlf] at h
    obtain ⟨rfl, hlf⟩ := hcrlf
    simp only [if_neg hend] at hplain
    exact (ih h (by grind)).cons_return hlf
  | case4 c cs hend hcrlf hbreak ih =>
    rw [templateLines.eq_def] at h
    rw [chunkHasSeparator.eq_def] at hplain
    simp only [if_neg hend, if_neg hcrlf, if_pos hbreak] at h hplain
    obtain ⟨⟨lines', rest'⟩, hlines, heq⟩ := Option.map_eq_some_iff.mp h
    cases heq
    refine (ih hlines (by grind)).cons_line ?_ hcrlf
    rcases hbreak with rfl | rfl <;> decide
  | case5 =>
    rw [templateLines.eq_def] at h
    simp at h
  | case6 d cs hoctal =>
    rw [templateLines.eq_def] at h
    dsimp only at h
    simp [if_pos hoctal] at h
  | case7 d cs hoctal hd hbreak hend hcrlf ih =>
    rw [templateLines.eq_def] at h
    dsimp only at h
    rw [if_neg hend, if_neg hcrlf, if_neg hbreak, if_pos rfl, if_neg hoctal, if_pos hd] at h
    rw [chunkHasSeparator.eq_def] at hplain
    dsimp only at hplain
    rw [if_neg hend, if_pos (by simpa using hd)] at hplain
    refine ((ih h hplain).cons_plain ?_).cons_plain (by decide)
    rcases hd with rfl | rfl <;> decide
  | case8 d cs hoctal hd hbreak hend hcrlf ih =>
    rw [templateLines.eq_def] at h
    dsimp only at h
    rw [if_neg hend, if_neg hcrlf, if_neg hbreak, if_pos rfl, if_neg hoctal, if_neg hd] at h
    rw [chunkHasSeparator.eq_def] at hplain
    dsimp only at hplain
    rw [if_neg hend, if_neg (by simpa using hd)] at hplain
    exact (ih h (by grind)).cons_plain (by decide)
  | case9 c cs hend hcrlf hbreak hslash ih =>
    rw [templateLines.eq_def] at h
    dsimp only at h
    rw [if_neg hend, if_neg hcrlf, if_neg hbreak, if_neg hslash] at h
    rw [chunkHasSeparator.eq_def] at hplain
    dsimp only at hplain
    rw [if_neg hend, if_neg (by simp [hslash])] at hplain
    refine (ih h (by grind)).cons_plain fun hline => ?_
    simp only [isLineTerminator, isSeparator, Bool.or_eq_true] at hline hplain
    grind

/-- The chunk ends where its scan stops. -/
theorem templateLines_rest (cs : List Char) : (templateLines cs).map Prod.snd = rawEnd cs := by
  induction cs using templateLines.induct with
  | case1 => rfl
  | case2 c cs hend =>
    rw [templateLines.eq_def, rawEnd.eq_def]
    dsimp only
    rw [if_pos hend, if_pos hend]
    rfl
  | case3 c cs hend hcrlf ih =>
    have hslash : c ≠ '\\' := by
      rintro rfl
      exact absurd hcrlf.1 (by decide)
    rw [templateLines.eq_def, rawEnd.eq_def]
    dsimp only
    rw [if_neg hend, if_neg hend, if_pos hcrlf, if_neg hslash, ih]
  | case4 c cs hend hcrlf hbreak ih =>
    have hslash : c ≠ '\\' := by
      rintro rfl
      exact absurd hbreak (by decide)
    rw [templateLines.eq_def, rawEnd.eq_def]
    dsimp only
    rw [if_neg hend, if_neg hend, if_neg hcrlf, if_pos hbreak, if_neg hslash, Option.map_map]
    exact ih
  | case5 => rfl
  | case6 d cs hoctal hbreak hend hcrlf =>
    rw [templateLines.eq_def, rawEnd.eq_def]
    dsimp only
    rw [if_neg hend, if_neg hend, if_neg hcrlf, if_neg hbreak, if_pos rfl, if_pos rfl, if_pos hoctal, if_pos hoctal]
    rfl
  | case7 d cs hoctal hd hbreak hend hcrlf ih =>
    rw [templateLines.eq_def, rawEnd.eq_def]
    dsimp only
    rw [if_neg hend, if_neg hend, if_neg hcrlf, if_neg hbreak, if_pos rfl, if_pos rfl, if_neg hoctal, if_neg hoctal,
      if_pos hd, if_pos hd, ih]
  | case8 d cs hoctal hd hbreak hend hcrlf ih =>
    rw [templateLines.eq_def, rawEnd.eq_def]
    dsimp only
    rw [if_neg hend, if_neg hend, if_neg hcrlf, if_neg hbreak, if_pos rfl, if_pos rfl, if_neg hoctal, if_neg hoctal,
      if_neg hd, if_neg hd, ih]
  | case9 c cs hend hcrlf hbreak hslash ih =>
    rw [templateLines.eq_def, rawEnd.eq_def]
    dsimp only
    rw [if_neg hend, if_neg hend, if_neg hcrlf, if_neg hbreak, if_neg hslash, if_neg hslash, ih]

end ArkTs2abc.Es2panda.Lexer
