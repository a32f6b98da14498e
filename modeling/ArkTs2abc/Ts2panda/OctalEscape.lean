import Mathlib.Data.List.Basic
import Mathlib.Tactic.Common

/-!
# Octal escapes

The checks of strict mode on the text of a literal. A regular expression, which does not count
backslashes, decides whether the text is looked at; then a lone `\0` counts as octal.

## Main definitions

* `isIncludeOctalEscapeSequence`, `isIncludeBackslash8Or9InString` — as in the source.
* `escapes` — the escapes of a text.
* `AnswersRight` — both functions find the escapes that strict mode forbids.

## Main results

* `answersRight_iff` — the texts that are answered right.
-/

namespace ArkTs2abc.Ts2panda.OctalEscape

def isOctalDigit (c : Char) : Bool := '0' ≤ c ∧ c ≤ '7'

def isOneToSeven (c : Char) : Bool := '1' ≤ c ∧ c ≤ '7'

/-! ## The functions -/

/-- The text starts with a match of `\\(?:[1-7][0-7]{0,2}|[0-7]{2,3})`. -/
def matchesHere : List Char → Bool
  | '\\' :: c :: cs => isOneToSeven c || isOctalDigit c && cs.head?.any isOctalDigit
  | _ => false

/-- `text.match(reg)`. -/
def matchesReg : List Char → Bool
  | [] => false
  | c :: cs => matchesHere (c :: cs) || matchesReg cs

/-- The loop of both functions, which looks for a character behind a backslash. -/
def search (found : Char → Bool) : List Char → Bool
  | '\\' :: c :: cs =>
    if c = '\\' then search found cs else if found c then true else search found (c :: cs)
  | _ :: cs => search found cs
  | [] => false

def isIncludeOctalEscapeSequence (text : List Char) : Bool :=
  if matchesReg text then search isOctalDigit text else false

def isIncludeBackslash8Or9InString (text : List Char) : Bool :=
  search (fun c => c = '8' || c = '9') text

/-! ## The escapes -/

/-- The characters that backslashes escape, counted from the left, and what is behind them. -/
def escapes : List Char → List (Char × Option Char)
  | '\\' :: c :: cs => (c, cs.head?) :: escapes cs
  | _ :: cs => escapes cs
  | [] => []

/-- `\1` to `\7`, or `\0` before a digit. -/
def Octal (e : Char × Option Char) : Prop :=
  isOneToSeven e.1 ∨ e.1 = '0' ∧ e.2.any Char.isDigit

structure AnswersRight (text : List Char) : Prop where
  octal : isIncludeOctalEscapeSequence text = true ↔ ∃ e ∈ escapes text, Octal e
  eightOrNine : isIncludeBackslash8Or9InString text = true ↔
    ∃ e ∈ escapes text, e.1 = '8' ∨ e.1 = '9'

/-- Somewhere a backslash, escaped or not, is before 1 to 7, or before 0 and an octal digit. -/
def LooksOctal (text : List Char) : Prop :=
  ∃ before c after, text = before ++ '\\' :: c :: after ∧
    (isOneToSeven c ∨ c = '0' ∧ after.head?.any isOctalDigit)

/-! ## What is found -/

variable {text : List Char} {found : Char → Bool}

theorem search_iff (hfound : found '\\' = false) :
    search found text = true ↔ ∃ e ∈ escapes text, found e.1 = true := by
  fun_induction escapes text with
  | case1 c cs ih =>
    rw [search]
    by_cases hc : c = '\\'
    · subst hc
      simp [ih, hfound]
    · have hskip : search found (c :: cs) = search found cs := by
        cases cs <;> simp [search, hc]
      rw [if_neg hc, hskip]
      cases h : found c <;> simp [ih, h]
  | case2 c cs hcs ih =>
    rw [← ih, search]
    exact hcs
  | case3 => simp [search]

theorem isOctalDigit_iff {c : Char} : isOctalDigit c = true ↔ isOneToSeven c = true ∨ c = '0' := by
  simp only [isOctalDigit, isOneToSeven, decide_eq_true_eq, Char.le_def, Char.ext_iff]
  grind

theorem matchesHere_iff {c : Char} {cs : List Char} : matchesHere ('\\' :: c :: cs) = true ↔
    isOneToSeven c ∨ c = '0' ∧ cs.head?.any isOctalDigit := by
  simp only [matchesHere, Bool.or_eq_true, Bool.and_eq_true, isOctalDigit_iff]
  tauto

theorem exists_of_matchesHere {c : Char} {cs : List Char} (h : matchesHere (c :: cs) = true) :
    c = '\\' ∧ ∃ d after, cs = d :: after := by
  unfold matchesHere at h
  grind

theorem matchesReg_iff : matchesReg text = true ↔ LooksOctal text := by
  induction text with
  | nil => simp [matchesReg, LooksOctal]
  | cons c cs ih =>
    rw [matchesReg, Bool.or_eq_true, ih]
    constructor
    · rintro (h | ⟨before, d, after, rfl, h⟩)
      · obtain ⟨rfl, d, after, rfl⟩ := exists_of_matchesHere h
        exact ⟨[], d, after, rfl, matchesHere_iff.mp h⟩
      · exact ⟨c :: before, d, after, rfl, h⟩
    · rintro ⟨before, d, after, htext, h⟩
      cases before with
      | nil =>
        cases htext
        exact .inl (matchesHere_iff.mpr h)
      | cons b before => exact .inr ⟨before, d, after, (List.cons.inj htext).2, h⟩

theorem exists_of_mem_escapes {e : Char × Option Char} (h : e ∈ escapes text) :
    ∃ before after, text = before ++ '\\' :: e.1 :: after ∧ after.head? = e.2 := by
  fun_induction escapes text with
  | case1 c cs ih =>
    rcases List.mem_cons.mp h with rfl | h
    · exact ⟨[], cs, rfl, rfl⟩
    · obtain ⟨before, after, rfl, hafter⟩ := ih h
      exact ⟨'\\' :: c :: before, after, rfl, hafter⟩
  | case2 c cs _ ih =>
    obtain ⟨before, after, rfl, hafter⟩ := ih h
    exact ⟨c :: before, after, rfl, hafter⟩
  | case3 => cases h

theorem isDigit_iff {c : Char} : c.isDigit = true ↔ isOctalDigit c = true ∨ c = '8' ∨ c = '9' := by
  simp only [Char.isDigit, isOctalDigit, Bool.and_eq_true, decide_eq_true_eq, Char.le_def,
    Char.ext_iff]
  grind

theorem Octal.isOctalDigit {e : Char × Option Char} (h : Octal e) : isOctalDigit e.1 = true := by
  rcases h with h | ⟨h, _⟩
  · exact isOctalDigit_iff.mpr (.inl h)
  · exact isOctalDigit_iff.mpr (.inr h)

theorem Octal.looksOctal {e : Char × Option Char} (he : Octal e) (hmem : e ∈ escapes text)
    (h : e ≠ ('0', some '8') ∧ e ≠ ('0', some '9')) : LooksOctal text := by
  obtain ⟨before, after, rfl, hafter⟩ := exists_of_mem_escapes hmem
  refine ⟨before, e.1, after, rfl, ?_⟩
  rcases he with he | ⟨hzero, hany⟩
  · exact .inl he
  · obtain ⟨d, hd, hdigit⟩ := (Option.any_eq_true _ _).mp hany
    refine .inr ⟨hzero, (Option.any_eq_true _ _).mpr ⟨d, hafter.trans hd, ?_⟩⟩
    rcases isDigit_iff.mp hdigit with hoctal | rfl | rfl
    · exact hoctal
    · exact absurd (Prod.ext hzero hd) h.1
    · exact absurd (Prod.ext hzero hd) h.2

theorem isIncludeOctalEscapeSequence_iff : isIncludeOctalEscapeSequence text = true ↔
    LooksOctal text ∧ ∃ e ∈ escapes text, isOctalDigit e.1 = true := by
  unfold isIncludeOctalEscapeSequence
  rw [← search_iff (by decide), ← matchesReg_iff]
  split_ifs with h <;> simp [h]

theorem isIncludeBackslash8Or9InString_iff : isIncludeBackslash8Or9InString text = true ↔
    ∃ e ∈ escapes text, e.1 = '8' ∨ e.1 = '9' := by
  unfold isIncludeBackslash8Or9InString
  rw [search_iff (by decide)]
  simp

/-- The second function finds what it is to find. The first one overlooks a `\08` or a `\09` if
nothing in the text looks octal, and takes a `\0` for octal if only an escaped backslash makes the
text look so. -/
theorem answersRight_iff (text : List Char) : AnswersRight text ↔
    ¬ ((∃ e ∈ escapes text, e = ('0', some '8') ∨ e = ('0', some '9')) ∧ ¬ LooksOctal text) ∧
      ¬ ((∃ e ∈ escapes text, e.1 = '0') ∧ (∀ e ∈ escapes text, ¬ Octal e) ∧ LooksOctal text) := by
  constructor
  · intro h
    rw [← not_or]
    rintro (⟨⟨e, hmem, he⟩, hlooks⟩ | ⟨⟨e, hmem, he⟩, hnone, hlooks⟩)
    · have hoctal : Octal e := by
        rcases he with rfl | rfl
        · exact .inr ⟨rfl, rfl⟩
        · exact .inr ⟨rfl, rfl⟩
      exact hlooks (isIncludeOctalEscapeSequence_iff.mp (h.octal.mpr ⟨e, hmem, hoctal⟩)).1
    · obtain ⟨e', hmem', he'⟩ := h.octal.mp (isIncludeOctalEscapeSequence_iff.mpr
        ⟨hlooks, e, hmem, isOctalDigit_iff.mpr (.inr he)⟩)
      exact hnone e' hmem' he'
  · rintro ⟨hmissed, hlone⟩
    refine ⟨isIncludeOctalEscapeSequence_iff.trans ?_, isIncludeBackslash8Or9InString_iff⟩
    constructor
    · rintro ⟨hlooks, e, hmem, he⟩
      by_contra hnone
      push Not at hnone
      rcases isOctalDigit_iff.mp he with he | he
      · exact hnone e hmem (.inl he)
      · exact hlone ⟨⟨e, hmem, he⟩, hnone, hlooks⟩
    · rintro ⟨e, hmem, he⟩
      refine ⟨?_, e, hmem, he.isOctalDigit⟩
      by_contra hlooks
      refine hlooks (he.looksOctal hmem ⟨?_, ?_⟩)
      · rintro rfl
        exact hmissed ⟨⟨_, hmem, .inl rfl⟩, hlooks⟩
      · rintro rfl
        exact hmissed ⟨⟨_, hmem, .inr rfl⟩, hlooks⟩

/-- The backslash before 1 is escaped. -/
theorem lone_zero_refused : ¬ AnswersRight "\\0\\\\1".toList := by
  intro h
  have hescape := h.octal.mp (by decide)
  simp [escapes, Octal, isOneToSeven] at hescape

end ArkTs2abc.Ts2panda.OctalEscape
