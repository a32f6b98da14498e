import ArkTs2abc.Unicode.Utf

/-!
# Escapes in the JSON text

The JSON text of a message is rewritten before it is sent: the backslash of a
`\u` is doubled, so that the JSON parser hands the escape on instead of reading
it.

## Main definitions

* `addUnicodeEscape` — one line of the text.
* `escapeUnicode` — the text, line by line.
-/

namespace ArkTs2abc.Ts2panda

open Unicode

/-- A JavaScript string: any sequence of UTF-16 code units. -/
abbrev JsString := List UInt16

/-- `text.indexOf("\\u") != -1`. -/
def hasUnicodeEscape : JsString → Bool
  | c :: d :: text => (c = unit '\\' && d = unit 'u') || hasUnicodeEscape (d :: text)
  | _ => false

/-- The loop of `addUnicodeEscape`; `prev` is the code unit at `secondIdx - 1`. -/
def addUnicodeEscape (prev : Option UInt16) : JsString → JsString
  | c :: d :: text =>
    if c = unit '\\' ∧ d = unit 'u' then
      (if prev = some (unit '\\') then [unit '\\', unit '\\', unit '\\', unit 'u']
        else [unit '\\', unit '\\', unit 'u']) ++ addUnicodeEscape (some d) text
    else c :: addUnicodeEscape (some c) (d :: text)
  | [c] => [c]
  | [] => []

def escapeLine (tmp : JsString) : JsString :=
  if hasUnicodeEscape tmp then addUnicodeEscape none tmp else tmp

/-- The loop of `escapeUnicode`; `tmp` is the line as far as it has been passed. -/
def escapeLines (tmp : JsString) : JsString → JsString
  | [] => []
  | c :: data =>
    if c = unit '\n' then escapeLine tmp ++ unit '\n' :: escapeLines [] data
    else escapeLines (tmp ++ [c]) data

/-- What follows the last line feed is taken to be the closing brace of the object. -/
def escapeUnicode (data : JsString) : JsString := escapeLines [] data ++ [unit '}', unit '\n']

/-! ## Line by line -/

section Escape

variable (prev : Option UInt16) {c : UInt16} {text : JsString}

theorem addUnicodeEscape_unicode (text : JsString) :
    addUnicodeEscape prev (unit '\\' :: unit 'u' :: text) =
      (if prev = some (unit '\\') then [unit '\\', unit '\\', unit '\\', unit 'u']
        else [unit '\\', unit '\\', unit 'u']) ++ addUnicodeEscape (some (unit 'u')) text := by
  rw [addUnicodeEscape, if_pos ⟨rfl, rfl⟩]

theorem addUnicodeEscape_cons (h : c = unit '\\' → text.head? ≠ some (unit 'u')) :
    addUnicodeEscape prev (c :: text) = c :: addUnicodeEscape (some c) text := by
  cases text with
  | nil => rfl
  | cons d text =>
    rw [addUnicodeEscape, if_neg]
    rintro ⟨hc, rfl⟩
    exact h hc rfl

theorem addUnicodeEscape_append (us : JsString) (h : ∀ c ∈ us, c ≠ unit '\\') (text : JsString) :
    addUnicodeEscape prev (us ++ text) = us ++ addUnicodeEscape (us.getLast?.or prev) text := by
  induction us generalizing prev with
  | nil => rfl
  | cons c us ih =>
    obtain ⟨hc, hus⟩ := List.forall_mem_cons.mp h
    rw [List.cons_append, addUnicodeEscape_cons prev (fun heq => absurd heq hc), ih (some c) hus,
      List.getLast?_cons, List.cons_append]
    cases us.getLast? <;> rfl

theorem addUnicodeEscape_prev (h : prev ≠ some (unit '\\')) (text : JsString) :
    addUnicodeEscape prev text = addUnicodeEscape none text := by
  rcases text with _ | ⟨c, _ | ⟨d, text⟩⟩
  · rfl
  · rfl
  · simp [addUnicodeEscape, h]

theorem escapeLine_eq (tmp : JsString) : escapeLine tmp = addUnicodeEscape none tmp := by
  have hcopied : ∀ (tmp : JsString) (prev : Option UInt16), hasUnicodeEscape tmp = false →
      addUnicodeEscape prev tmp = tmp := by
    intro tmp prev h
    fun_induction hasUnicodeEscape tmp generalizing prev with
    | case1 c d text ih =>
      simp only [Bool.or_eq_false_iff, Bool.and_eq_false_imp, decide_eq_true_eq, decide_eq_false_iff_not]
        at h
      rw [addUnicodeEscape, if_neg (not_and.mpr h.1), ih (some c) h.2]
    | case2 tmp hshort =>
      rcases tmp with _ | ⟨c, _ | ⟨d, text⟩⟩
      · rfl
      · rfl
      · exact absurd rfl (hshort c d text)
  unfold escapeLine
  split_ifs with h
  · rfl
  · exact (hcopied tmp none (Bool.not_eq_true _ ▸ h)).symm

theorem addUnicodeEscape_append_quote (text rest : JsString) :
    addUnicodeEscape prev (text ++ unit '"' :: rest) =
      addUnicodeEscape prev text ++ unit '"' :: addUnicodeEscape none rest := by
  have hquote (prev : Option UInt16) : addUnicodeEscape prev (unit '"' :: rest) =
      unit '"' :: addUnicodeEscape none rest := by
    rw [addUnicodeEscape_cons prev (fun h => absurd h (by decide)), addUnicodeEscape_prev _ (by decide)]
  fun_induction addUnicodeEscape prev text with
  | case1 prev c d text h ih =>
    obtain ⟨rfl, rfl⟩ := h
    rw [List.cons_append, List.cons_append, addUnicodeEscape_unicode, ih, List.append_assoc]
  | case2 prev c d text h ih =>
    rw [List.cons_append, addUnicodeEscape_cons, ih]
    · rfl
    · rintro rfl heq
      exact h ⟨rfl, Option.some.inj heq⟩
  | case3 prev c =>
    rw [List.cons_append, List.nil_append, addUnicodeEscape_cons, hquote]
    · rfl
    · exact fun _ h => absurd (Option.some.inj h) (by decide)
  | case4 prev => exact hquote prev

end Escape

theorem escapeLines_of_not_mem {line : JsString} (h : unit '\n' ∉ line) (tmp rest : JsString) :
    escapeLines tmp (line ++ rest) = escapeLines (tmp ++ line) rest := by
  induction line generalizing tmp with
  | nil => simp
  | cons c line ih =>
    rw [List.mem_cons, not_or] at h
    rw [List.cons_append, escapeLines, if_neg (Ne.symm h.1), ih h.2, List.append_assoc]
    rfl

theorem mem_escapeLines (tmp before : JsString) :
    unit '\n' ∈ escapeLines tmp (before ++ [unit '\n']) := by
  induction before generalizing tmp with
  | nil => simp [escapeLines]
  | cons c before ih =>
    rw [List.cons_append, escapeLines]
    split_ifs
    · simp
    · exact ih _

/-- The text in front of a literal, as it is written. -/
def escapeBefore (before : JsString) : JsString := (escapeLines [] (before ++ [unit '\n'])).dropLast

/-- In every line but the last a literal is rewritten by itself. -/
theorem escapeUnicode_append {text after : JsString} (hline : unit '\n' ∉ text)
    (hafter : unit '\n' ∈ after) (before : JsString) :
    escapeUnicode (before ++ unit '"' :: text ++ unit '"' :: after) =
      escapeBefore before ++ unit '"' :: addUnicodeEscape none text ++ unit '"' :: escapeUnicode after := by
  obtain ⟨line, rest, rfl, hnot⟩ := List.eq_append_cons_of_mem hafter
  have hend (tmp : JsString) : escapeLines tmp (line ++ unit '\n' :: rest) =
      escapeLine (tmp ++ line) ++ unit '\n' :: escapeLines [] rest := by
    rw [escapeLines_of_not_mem hnot, escapeLines, if_pos rfl]
  have hlines (tmp : JsString) :
      escapeLines tmp (before ++ (unit '"' :: text ++ unit '"' :: (line ++ unit '\n' :: rest))) =
        (escapeLines tmp (before ++ [unit '\n'])).dropLast ++ (unit '"' :: addUnicodeEscape none text ++
          unit '"' :: escapeLines [] (line ++ unit '\n' :: rest)) := by
    induction before generalizing tmp with
    | nil =>
      have hquoted : unit '\n' ∉ unit '"' :: text ++ [unit '"'] := by
        rw [List.mem_append, List.mem_cons, List.mem_singleton]
        rintro ((h | h) | h)
        · exact absurd h (by decide)
        · exact hline h
        · exact absurd h (by decide)
      have hsplit : escapeLine (tmp ++ (unit '"' :: text ++ [unit '"']) ++ line) =
          escapeLine tmp ++ unit '"' :: addUnicodeEscape none text ++ unit '"' :: escapeLine line := by
        simp only [escapeLine_eq, List.append_assoc, List.cons_append, List.nil_append,
          addUnicodeEscape_append_quote]
      have h := escapeLines_of_not_mem hquoted tmp (line ++ unit '\n' :: rest)
      rw [hend, hsplit] at h
      rw [hend]
      simpa [escapeLines] using h
    | cons c before ih =>
      have hcons (rest : JsString) : c :: before ++ rest = c :: (before ++ rest) := rfl
      rw [hcons, hcons, escapeLines, escapeLines]
      split_ifs with hc
      · have hne : escapeLines [] (before ++ [unit '\n']) ≠ [] := by
          intro h
          have hlast : unit '\n' ∈ escapeLines [] (before ++ [unit '\n']) := mem_escapeLines _ _
          rw [h] at hlast
          cases hlast
        rw [ih, List.dropLast_append_of_ne_nil (by simp), List.dropLast_cons_of_ne_nil hne]
        simp
      · exact ih _
  have h := hlines []
  rw [escapeUnicode, escapeUnicode, escapeBefore]
  simp only [List.append_assoc, List.cons_append] at h ⊢
  rw [h]
  simp

end ArkTs2abc.Ts2panda
