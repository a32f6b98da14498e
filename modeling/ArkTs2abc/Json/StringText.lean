import ArkTs2abc.Unicode.Utf

/-!
# String literals of JSON

## Main definitions

* `stringify` — a string as a literal, as ECMAScript writes it.
* `StringText` — the texts between quotes, with the strings they stand for.
* `readString` — a reader of literals.
* `ReadsLiteral` — a parser that reads the literal at some place of a document.

## Main results

* `readText_append` — the reader gets the string of every literal.
-/

namespace Json

open Unicode

/-! ## Writing -/

/-- The letter behind the backslash, for a code point that has one. -/
def shortEscape (cp : ℕ) : Option Char :=
  if cp = 0x08 then some 'b'
  else if cp = 0x09 then some 't'
  else if cp = 0x0A then some 'n'
  else if cp = 0x0C then some 'f'
  else if cp = 0x0D then some 'r'
  else if cp = '"'.toNat then some '"'
  else if cp = '\\'.toNat then some '\\'
  else none

/-- The digits are `0` to `9` and `a` to `f`. -/
def hexDigit (d : ℕ) : UInt16 :=
  if d < 10 then UInt16.ofNat ('0'.toNat + d) else UInt16.ofNat ('a'.toNat + (d - 10))

def hex4 (n : ℕ) : List UInt16 :=
  [hexDigit (n / 0x1000 % 0x10), hexDigit (n / 0x100 % 0x10), hexDigit (n / 0x10 % 0x10), hexDigit (n % 0x10)]

/-- Whether a code point is written with its number: other control characters, and surrogates that
are no pair. -/
def Numbered (cp : ℕ) : Prop := shortEscape cp = none ∧ (cp < 0x20 ∨ IsSurrogate cp)

instance (cp : ℕ) : Decidable (Numbered cp) := inferInstanceAs (Decidable (_ ∧ _))

theorem Numbered.lt {cp : ℕ} (h : Numbered cp) : cp < 0x10000 ∧ cp ≠ 'u'.toNat := by
  have hu : 'u'.toNat = 0x75 := rfl
  obtain ⟨-, h⟩ := h
  unfold IsSurrogate at h
  omega

def quoteCodePoint (cp : ℕ) : List UInt16 :=
  match shortEscape cp with
  | some c => [unit '\\', unit c]
  | none => if Numbered cp then unit '\\' :: unit 'u' :: hex4 cp else units cp

def stringify (s : List UInt16) : List UInt16 :=
  unit '"' :: (codePoints s).flatMap quoteCodePoint ++ [unit '"']

/-! ## Reading -/

/-- The value of a digit, in either case. -/
def digitValue (u : UInt16) : Option ℕ :=
  if '0'.toNat ≤ u.toNat ∧ u.toNat ≤ '9'.toNat then some (u.toNat - '0'.toNat)
  else if 'a'.toNat ≤ u.toNat ∧ u.toNat ≤ 'f'.toNat then some (u.toNat - 'a'.toNat + 10)
  else if 'A'.toNat ≤ u.toNat ∧ u.toNat ≤ 'F'.toNat then some (u.toNat - 'A'.toNat + 10)
  else none

/-- The letters that may stand behind a backslash, with what they stand for. -/
def singleEscapes : List (Char × Char) :=
  [('"', '"'), ('\\', '\\'), ('/', '/'), ('b', '\x08'), ('f', '\x0c'), ('n', '\n'), ('r', '\r'),
    ('t', '\t')]

/-- The texts a literal has between its quotes. -/
inductive StringText : List UInt16 → List UInt16 → Prop where
  | nil : StringText [] []
  | char {c : Char} {text us : List UInt16} (hc : 0x20 ≤ c.toNat ∧ c ≠ '"' ∧ c ≠ '\\') :
      StringText text us → StringText (units c.toNat ++ text) (units c.toNat ++ us)
  | single {c v : Char} {text us : List UInt16} (hc : (c, v) ∈ singleEscapes) :
      StringText text us → StringText (unit '\\' :: unit c :: text) (unit v :: us)
  | number {a b c d : UInt16} {i j k l : ℕ} {text us : List UInt16} (ha : digitValue a = some i)
      (hb : digitValue b = some j) (hc : digitValue c = some k) (hd : digitValue d = some l) :
      StringText text us → StringText (unit '\\' :: unit 'u' :: a :: b :: c :: d :: text)
        (UInt16.ofNat (i * 0x1000 + j * 0x100 + k * 0x10 + l) :: us)

/-- What a letter behind a backslash stands for. -/
def singleValue (u : UInt16) : Option UInt16 :=
  (singleEscapes.find? fun e => unit e.1 = u).map fun e => unit e.2

/-- The string of a literal, from behind its opening quote on. -/
def readText : List UInt16 → Option (List UInt16)
  | [] => none
  | u :: text =>
    if u = unit '"' then some []
    else if u = unit '\\' then
      match text with
      | [] => none
      | e :: text =>
        if e = unit 'u' then
          match text with
          | a :: b :: c :: d :: text => do
            let i ← digitValue a
            let j ← digitValue b
            let k ← digitValue c
            let l ← digitValue d
            (readText text).map (UInt16.ofNat (i * 0x1000 + j * 0x100 + k * 0x10 + l) :: ·)
          | _ => none
        else do
          let v ← singleValue e
          (readText text).map (v :: ·)
    else (readText text).map (u :: ·)

def readString : List UInt16 → Option (List UInt16)
  | u :: text => if u = unit '"' then readText text else none
  | [] => none

/-! ## The reader on literals -/

theorem Char.scalar (c : Char) : c.toNat < 0x110000 ∧ ¬ IsSurrogate c.toNat := by
  have h := c.valid
  simp only [UInt32.isValidChar, Nat.isValidChar] at h
  unfold IsSurrogate
  rw [Char.toNat]
  omega

theorem singleValue_of_mem {c v : Char} (h : (c, v) ∈ singleEscapes) :
    unit c ≠ unit 'u' ∧ singleValue (unit c) = some (unit v) ∧ ¬ IsSurrogate (unit c).toNat := by
  have hall : ∀ e ∈ singleEscapes,
      unit e.1 ≠ unit 'u' ∧ singleValue (unit e.1) = some (unit e.2) ∧ ¬ IsSurrogate (unit e.1).toNat := by
    decide
  exact hall _ h

section Read

variable {u e : UInt16} (text : List UInt16)

theorem readText_quote : readText (unit '"' :: text) = some [] := by
  rw [readText.eq_def]
  simp

theorem readText_plain (hquote : u ≠ unit '"') (hbackslash : u ≠ unit '\\') :
    readText (u :: text) = (readText text).map (u :: ·) := by
  rw [readText.eq_def]
  simp [hquote, hbackslash]

theorem readText_single (h : e ≠ unit 'u') :
    readText (unit '\\' :: e :: text) =
      (singleValue e).bind fun v => (readText text).map (v :: ·) := by
  have hne : unit '\\' ≠ unit '"' := by decide
  rw [readText.eq_def]
  simp [hne, h]

theorem readText_number {a b c d : UInt16} {i j k l : ℕ} (ha : digitValue a = some i)
    (hb : digitValue b = some j) (hc : digitValue c = some k) (hd : digitValue d = some l) :
    readText (unit '\\' :: unit 'u' :: a :: b :: c :: d :: text) =
      (readText text).map (UInt16.ofNat (i * 0x1000 + j * 0x100 + k * 0x10 + l) :: ·) := by
  have hne : unit '\\' ≠ unit '"' := by decide
  rw [readText.eq_def]
  simp [hne, ha, hb, hc, hd]

end Read

theorem readText_append_of_forall {us : List UInt16} (h : ∀ u ∈ us, u ≠ unit '"' ∧ u ≠ unit '\\')
    (rest : List UInt16) : readText (us ++ rest) = (readText rest).map (us ++ ·) := by
  induction us with
  | nil => simp
  | cons u us ih =>
    obtain ⟨⟨hquote, hbackslash⟩, h⟩ := List.forall_mem_cons.mp h
    rw [List.cons_append, readText_plain _ hquote hbackslash, ih h, Option.map_map]
    rfl

theorem ne_of_mem_units {cp : ℕ} {u : UInt16} (hu : u ∈ units cp) {c : Char} (hc : c.toNat < 0x80)
    (hne : cp ≠ c.toNat) (hlt : cp < 0x110000) : u ≠ unit c := by
  have hunit : (unit c).toNat = c.toNat := UInt16.toNat_ofNat_of_lt' (by rw [UInt16.size]; omega)
  rintro rfl
  unfold units at hu
  split_ifs at hu with h
  · rw [List.mem_singleton] at hu
    have heq := congrArg UInt16.toNat hu
    rw [hunit, UInt16.toNat_ofNat_of_lt' h] at heq
    exact hne heq.symm
  · simp only [List.mem_cons, List.not_mem_nil, or_false] at hu
    rcases hu with hu | hu
    all_goals
      have heq := congrArg UInt16.toNat hu
      rw [hunit, UInt16.toNat_ofNat_of_lt' (by rw [UInt16.size]; omega)] at heq
      omega

theorem Char.toNat_ne {c d : Char} (h : c ≠ d) : c.toNat ≠ d.toNat := fun heq => h (Char.toNat_inj.mp heq)

theorem readText_append {text us : List UInt16} (h : StringText text us) (rest : List UInt16) :
    readText (text ++ unit '"' :: rest) = some us := by
  induction h with
  | nil => exact readText_quote rest
  | @char c text us hc _ ih =>
    have hplain : ∀ u ∈ units c.toNat, u ≠ unit '"' ∧ u ≠ unit '\\' := by
      intro u hu
      exact ⟨ne_of_mem_units hu (by decide) (Char.toNat_ne hc.2.1) (Char.scalar c).1,
        ne_of_mem_units hu (by decide) (Char.toNat_ne hc.2.2) (Char.scalar c).1⟩
    rw [List.append_assoc, readText_append_of_forall hplain, ih]
    rfl
  | @single c v text us hc _ ih =>
    obtain ⟨hne, hvalue, -⟩ := singleValue_of_mem hc
    rw [List.cons_append, List.cons_append, readText_single _ hne, hvalue, ih]
    rfl
  | number ha hb hc hd _ ih =>
    simp only [List.cons_append]
    rw [readText_number _ ha hb hc hd, ih]
    rfl

theorem not_isSurrogate_of_digitValue {u : UInt16} {d : ℕ} (h : digitValue u = some d) :
    ¬ IsSurrogate u.toNat := by
  unfold digitValue at h
  unfold IsSurrogate
  simp only [Char.reduceToNat] at h
  split_ifs at h <;> omega

theorem StringText.wellFormed {text us : List UInt16} (h : StringText text us) (rest : List UInt16)
    (hrest : WellFormed rest) : WellFormed (text ++ rest) := by
  induction h with
  | nil => exact hrest
  | @char c _ _ _ _ ih =>
    rw [List.append_assoc]
    exact ih.units_append (Char.scalar c).1 (Char.scalar c).2
  | single hc _ ih => exact .cons (by decide) (.cons (singleValue_of_mem hc).2.2 ih)
  | number ha hb hc hd _ ih =>
    refine .cons (by decide) (.cons (by decide) (.cons ?_ (.cons ?_ (.cons ?_ (.cons ?_ ih)))))
    · exact not_isSurrogate_of_digitValue ha
    · exact not_isSurrogate_of_digitValue hb
    · exact not_isSurrogate_of_digitValue hc
    · exact not_isSurrogate_of_digitValue hd

/-! ## Literals in a document -/

/-- What a parser takes from a place in a document: the UTF-8 of the literal that stands there. It may
reject a surrogate by itself, or hand it on in three bytes. -/
def ReadsLiteral (value : List UInt8 → Option (List UInt8)) (before after : List UInt16) : Prop :=
  ∀ text us, StringText text us →
    value (toUtf8 (before ++ unit '"' :: text ++ unit '"' :: after)) = some ((codePoints us).flatMap utf8) ∨
    ¬ WellFormed us ∧ value (toUtf8 (before ++ unit '"' :: text ++ unit '"' :: after)) = none

/-- The literal behind the first `n` code units of a document. -/
def valueAt (n : ℕ) (bytes : List UInt8) : Option (List UInt8) := do
  let document ← fromUtf8 bytes
  let us ← readString (document.drop n)
  some ((codePoints us).flatMap utf8)

theorem readsLiteral_valueAt {before after : List UInt16} (hbefore : WellFormed before)
    (hafter : WellFormed after) : ReadsLiteral (valueAt before.length) before after := by
  intro text us h
  left
  have hquote : ¬ IsSurrogate (unit '"').toNat := by decide
  have hlow : ¬ IsLowSurrogate (unit '"').toNat := by decide
  have htext : WellFormed (text ++ unit '"' :: after) := h.wellFormed _ (.cons hquote hafter)
  have hdocument : WellFormed (before ++ unit '"' :: text ++ unit '"' :: after) := by
    rw [List.append_assoc]
    exact hbefore.append hlow (.cons hquote htext)
  rw [valueAt, fromUtf8_toUtf8 hdocument, List.append_assoc]
  simp only [Option.bind_eq_bind, Option.bind_some, List.drop_left]
  rw [List.cons_append, readString, if_pos rfl, readText_append h]
  rfl

end Json
