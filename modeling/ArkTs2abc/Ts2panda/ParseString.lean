import ArkTs2abc.Json.StringText
import ArkTs2abc.Ts2panda.Base.Util

/-!
# Strings on their way to the assembler

A string is written as a JSON literal, the escapes of the text are escaped once
more, the JSON parser takes the literal apart, and `ParseString` undoes the
escapes that are left while it turns the bytes into modified UTF-8.

## Main definitions

* `parseString` — the last step.
* `Piece` — what becomes of a string on the way, piece by piece.

## Main results

* `decode_transported_iff` — the strings that arrive.
-/

namespace ArkTs2abc.Ts2panda

open Unicode

/-! ## ParseString -/

/-- The conversions of `panda::utf`: what is written in front of the final zero, and what reads it. -/
structure PandaUtf where
  convertRegionUtf16ToMUtf8 : List UInt16 → List UInt8
  decode : List UInt8 → Option (List UInt16)
  /-- Zero bytes only end a text. -/
  zero_not_mem (us : List UInt16) : 0 ∉ convertRegionUtf16ToMUtf8 us
  decode_nil : decode [] = some []
  /-- What is written is read back. A surrogate by itself is written if it is all there is. -/
  decode_append (us : List UInt16) (rest : List UInt8) (h : WellFormed us ∨ us.length = 1) :
    decode (convertRegionUtf16ToMUtf8 us ++ rest) = (decode rest).map (us ++ ·)

/-- `isspace`. -/
def isSpace (b : UInt8) : Bool := b = byte ' ' || (0x09 ≤ b.toNat && b.toNat ≤ 0x0D)

/-- The number the leading digits stand for, behind those of `n`. -/
def leadingDigits (n : ℕ) : List UInt8 → ℕ
  | [] => n
  | b :: s =>
    match Json.digitValue b.toUInt16 with
    | some d => leadingDigits (n * 16 + d) s
    | none => n

def startsWithDigit : List UInt8 → Bool
  | [] => false
  | b :: _ => (Json.digitValue b.toUInt16).isSome

def skipHexPrefix : List UInt8 → List UInt8
  | z :: x :: s => if z = byte '0' ∧ (x = byte 'x' ∨ x = byte 'X') ∧ startsWithDigit s then s else z :: x :: s
  | s => s

/-- `stoi(s, NULL, 16)` of a few characters; without digits it throws. -/
def stoi (s : List UInt8) : Option ℤ :=
  let s := s.dropWhile isSpace
  let neg : Bool := s.head? = some (byte '-')
  let s := if neg || s.head? = some (byte '+') then s.tail else s
  let s := skipHexPrefix s
  if startsWithDigit s then some (if neg then -leadingDigits 0 s else leadingDigits 0 s) else none

/-- `find("\\u")`, from the start of the bytes. -/
def indexOfUnicode : List UInt8 → Option ℕ
  | c :: d :: data =>
    if c = byte '\\' ∧ d = byte 'u' then some 0 else (indexOfUnicode (d :: data)).map (· + 1)
  | _ => none

/-- `data.find("\\u", startIdx)`. -/
def findUnicode (data : List UInt8) (startIdx : ℕ) : Option ℕ :=
  (indexOfUnicode (data.drop startIdx)).map (· + startIdx)

section ParseString

variable (utf : PandaUtf)

/-- The bytes up to the first zero. -/
def convertUtf16ToMUtf8 (u16Data : List UInt16) : List UInt8 :=
  (utf.convertRegionUtf16ToMUtf8 u16Data ++ [0]).takeWhile (· ≠ 0)

/-- Other bytes than UTF-8 make `from_bytes` throw. -/
def convertUtf8ToMUtf8 (data : List UInt8) : Option (List UInt8) :=
  (fromUtf8 data).map (convertUtf16ToMUtf8 utf)

/-- The loop of `ParseUnicodeEscapeString` with what follows it, for at most `n` rounds. -/
def parseUnicodeEscapeLoop (data : List UInt8) : ℕ → ℕ → List UInt8 → Option (List UInt8)
  | 0, _, _ => none
  | n + 1, startIdx, newData =>
    match findUnicode data startIdx with
    | none =>
      if startIdx = data.length then some newData
      else if data.length < startIdx then none
      else do
        let tmpStr ← convertUtf8ToMUtf8 utf (data.drop startIdx)
        some (newData ++ tmpStr)
    | some index =>
      if index ≠ 0 ∧ data[index - 1]? = some (byte '\\') then do
        -- The length wraps around if the backslash stands before `startIdx`.
        let length := if startIdx < index then index - 1 - startIdx else data.length
        let tmpStr ← convertUtf8ToMUtf8 utf
          ((data.drop startIdx).take length ++ (data.drop index).take 2)
        parseUnicodeEscapeLoop data n (index + 2) (newData ++ tmpStr)
      else do
        let tmpStr ← convertUtf8ToMUtf8 utf ((data.drop startIdx).take (index - startIdx))
        let u16Data ← stoi ((data.drop (index + 2)).take 4)
        parseUnicodeEscapeLoop data n (index + 6)
          (newData ++ tmpStr ++ convertUtf16ToMUtf8 utf [UInt16.ofInt u16Data])

def parseUnicodeEscapeString (data : List UInt8) : Option (List UInt8) :=
  parseUnicodeEscapeLoop utf data (data.length + 1) 0 []

/-- An exception is `none`. -/
def parseString (data : List UInt8) : Option (List UInt8) :=
  if findUnicode data 0 ≠ none then parseUnicodeEscapeString utf data else convertUtf8ToMUtf8 utf data

end ParseString

/-! ## Pieces of a string -/

/-- A code point that JSON writes without its number, other than the backslash. -/
def Plain (cp : ℕ) : Prop := cp < 0x110000 ∧ cp ≠ '\\'.toNat ∧ ¬ Json.Numbered cp

instance (cp : ℕ) : Decidable (Plain cp) := inferInstanceAs (Decidable (_ ∧ _))

/-- The pieces that are rewritten each by itself. -/
inductive Piece where
  /-- A backslash and the letter `u`. -/
  | letter
  /-- A backslash and a code point that is written with its number. -/
  | escaped (cp : ℕ) (h : Json.Numbered cp)
  | number (cp : ℕ) (h : Json.Numbered cp)
  | backslash
  | plain (cp : ℕ) (h : Plain cp)

namespace Piece

/-- The code points of the string. -/
def codePoints : Piece → List ℕ
  | letter => ['\\'.toNat, 'u'.toNat]
  | escaped cp _ => ['\\'.toNat, cp]
  | number cp _ => [cp]
  | backslash => ['\\'.toNat]
  | plain cp _ => [cp]

/-- How JSON writes it. -/
def quoted (p : Piece) : JsString := p.codePoints.flatMap Json.quoteCodePoint

/-- How it is written behind `escapeUnicode`. -/
def rewritten : Piece → JsString
  | letter => [unit '\\', unit '\\', unit '\\', unit '\\', unit 'u']
  | escaped cp _ => unit '\\' :: unit '\\' :: unit '\\' :: unit '\\' :: unit '\\' :: unit 'u' :: Json.hex4 cp
  | number cp _ => unit '\\' :: unit '\\' :: unit 'u' :: Json.hex4 cp
  | backslash => [unit '\\', unit '\\']
  | plain cp _ => Json.quoteCodePoint cp

/-- The code points that the JSON parser takes from it. -/
def parsed : Piece → List ℕ
  | letter => ['\\'.toNat, '\\'.toNat, 'u'.toNat]
  | escaped cp _ => ['\\'.toNat, '\\'.toNat, cp]
  | number cp _ => '\\'.toNat :: 'u'.toNat :: (Json.hex4 cp).map UInt16.toNat
  | backslash => ['\\'.toNat]
  | plain cp _ => [cp]

/-- What arrives. A surrogate that is no escape any more cannot be converted. -/
def delivered : Piece → Option (List ℕ)
  | escaped cp _ => if IsSurrogate cp then none else some ['\\'.toNat, '\\'.toNat, cp]
  | p => some p.codePoints

/-- Whether a piece must not stand behind a single backslash. -/
def Attached : Piece → Prop
  | number _ _ => True
  | plain cp _ => cp = 'u'.toNat
  | _ => False

end Piece

/-- Whether no piece is torn from the backslash in front of it; `after` says that one stands in front
of the first piece. -/
def Complete : Bool → List Piece → Prop
  | _, [] => True
  | after, p :: ps => (after = true → ¬ p.Attached) ∧ Complete (p matches .backslash) ps

def pieces : List ℕ → List Piece
  | [] => []
  | cp :: cps =>
    if cp = '\\'.toNat then
      match cps with
      | [] => [.backslash]
      | cp' :: cps' =>
        if cp' = 'u'.toNat then .letter :: pieces cps'
        else if h : Json.Numbered cp' then .escaped cp' h :: pieces cps'
        else .backslash :: pieces (cp' :: cps')
    else if h : Json.Numbered cp then .number cp h :: pieces cps
    else if h : Plain cp then .plain cp h :: pieces cps
    else pieces cps

/-! ## The string and its pieces -/

attribute [simp] Piece.codePoints

theorem flatMap_codePoints_pieces {cps : List ℕ} (h : ∀ cp ∈ cps, cp < 0x110000) :
    (pieces cps).flatMap Piece.codePoints = cps := by
  fun_induction pieces cps with
  | case1 => rfl
  | case2 => rfl
  | case3 cps ih =>
    simp only [List.forall_mem_cons] at h
    simp [ih h.2.2]
  | case4 cp cps hu hn ih =>
    simp only [List.forall_mem_cons] at h
    simp [ih h.2.2]
  | case5 cp cps hu hn ih =>
    simp only [List.forall_mem_cons] at h ih
    simp [ih h.2]
  | case6 cp cps hb hn ih =>
    simp only [List.forall_mem_cons] at h
    simp [ih h.2]
  | case7 cp cps hb hn hp ih =>
    simp only [List.forall_mem_cons] at h
    simp [ih h.2]
  | case8 cp cps hb hn hp ih =>
    exact absurd ⟨h cp List.mem_cons_self, hb, hn⟩ hp

theorem complete_pieces {cps : List ℕ} (hlt : ∀ cp ∈ cps, cp < 0x110000) (after : Bool)
    (h : after = true → ∀ cp ∈ cps.head?, cp ≠ 'u'.toNat ∧ ¬ Json.Numbered cp) :
    Complete after (pieces cps) := by
  fun_induction pieces cps generalizing after with
  | case1 => trivial
  | case2 => exact ⟨fun _ => not_false, trivial⟩
  | case3 cps ih =>
    simp only [List.forall_mem_cons] at hlt
    exact ⟨fun _ => not_false, ih hlt.2.2 false nofun⟩
  | case4 cp cps hu hn ih =>
    simp only [List.forall_mem_cons] at hlt
    exact ⟨fun _ => not_false, ih hlt.2.2 false nofun⟩
  | case5 cp cps hu hn ih =>
    refine ⟨fun _ => not_false, ih (List.forall_mem_cons.mp hlt).2 true fun _ cp' hcp' => ?_⟩
    cases hcp'
    exact ⟨hu, hn⟩
  | case6 cp cps hb hn ih =>
    exact ⟨fun hafter => absurd hn (h hafter cp rfl).2, ih (List.forall_mem_cons.mp hlt).2 false nofun⟩
  | case7 cp cps hb hn hp ih =>
    exact ⟨fun hafter => (h hafter cp rfl).1, ih (List.forall_mem_cons.mp hlt).2 false nofun⟩
  | case8 cp cps hb hn hp ih => exact absurd ⟨hlt cp List.mem_cons_self, hb, hn⟩ hp

/-! ## The text that is written -/

theorem hexDigit_ne {d : ℕ} (h : d < 16) : Json.hexDigit d ≠ unit '\\' ∧ Json.hexDigit d ≠ unit '\n' := by
  have hall : ∀ d < 16, Json.hexDigit d ≠ unit '\\' ∧ Json.hexDigit d ≠ unit '\n' := by decide
  exact hall d h

theorem ne_of_mem_hex4 {n : ℕ} {u : UInt16} (h : u ∈ Json.hex4 n) : u ≠ unit '\\' ∧ u ≠ unit '\n' := by
  simp only [Json.hex4, List.mem_cons, List.not_mem_nil, or_false] at h
  rcases h with rfl | rfl | rfl | rfl <;> exact hexDigit_ne (Nat.mod_lt _ (by decide))

theorem quoteCodePoint_numbered {cp : ℕ} (h : Json.Numbered cp) :
    Json.quoteCodePoint cp = unit '\\' :: unit 'u' :: Json.hex4 cp := by
  rw [Json.quoteCodePoint, h.1]
  exact if_pos h

theorem shortEscape_eq {cp : ℕ} {c : Char} (h : Json.shortEscape cp = some c) :
    (cp, c) ∈ [(0x08, 'b'), (0x09, 't'), (0x0A, 'n'), (0x0C, 'f'), (0x0D, 'r'), ('"'.toNat, '"'),
      ('\\'.toNat, '\\')] := by
  unfold Json.shortEscape at h
  split_ifs at h with h₁ h₂ h₃ h₄ h₅ h₆ h₇
  all_goals
    cases h
    subst cp
    decide

/-- A plain code point is written as a letter behind a backslash, or as it is. -/
theorem quoteCodePoint_plain {cp : ℕ} (h : Plain cp) :
    (∃ c v, Json.shortEscape cp = some c ∧ unit c ≠ unit 'u' ∧ unit c ≠ unit '\\' ∧ cp = Char.toNat v ∧
      (c, v) ∈ Json.singleEscapes ∧ Json.quoteCodePoint cp = [unit '\\', unit c]) ∨
    Json.shortEscape cp = none ∧ 0x20 ≤ cp ∧ ¬ IsSurrogate cp ∧ cp ≠ '"'.toNat ∧
      Json.quoteCodePoint cp = units cp := by
  obtain ⟨-, hne, hn⟩ := h
  unfold Json.quoteCodePoint
  cases hshort : Json.shortEscape cp with
  | none =>
    right
    rw [Json.Numbered, not_and, not_or] at hn
    obtain ⟨hge, hs⟩ := hn hshort
    refine ⟨rfl, by omega, hs, ?_, if_neg ?_⟩
    · rintro rfl
      exact absurd hshort (by decide)
    · exact fun h => h.2.elim hge hs
  | some c =>
    left
    have hmem := shortEscape_eq hshort
    simp only [List.mem_cons, List.not_mem_nil, or_false, Prod.mk.injEq] at hmem
    rcases hmem with ⟨rfl, rfl⟩ | ⟨rfl, rfl⟩ | ⟨rfl, rfl⟩ | ⟨rfl, rfl⟩ | ⟨rfl, rfl⟩ | ⟨rfl, rfl⟩ | ⟨rfl, rfl⟩
    · exact ⟨_, '\x08', rfl, by decide, by decide, by decide, by decide, rfl⟩
    · exact ⟨_, '\t', rfl, by decide, by decide, by decide, by decide, rfl⟩
    · exact ⟨_, '\n', rfl, by decide, by decide, by decide, by decide, rfl⟩
    · exact ⟨_, '\x0c', rfl, by decide, by decide, by decide, by decide, rfl⟩
    · exact ⟨_, '\r', rfl, by decide, by decide, by decide, by decide, rfl⟩
    · exact ⟨_, '"', rfl, by decide, by decide, by decide, by decide, rfl⟩
    · exact absurd rfl hne

theorem head?_quoted_ne {ps : List Piece} (hps : Complete true ps) :
    (ps.flatMap Piece.quoted).head? ≠ some (unit 'u') := by
  cases ps with
  | nil => exact nofun
  | cons p ps =>
    have hp := hps.1 rfl
    have hbackslash : some (unit '\\') ≠ some (unit 'u') := by decide
    cases p with
    | letter => exact hbackslash
    | escaped cp h => exact hbackslash
    | number cp h => exact absurd trivial hp
    | backslash => exact hbackslash
    | plain cp h =>
      rw [List.flatMap_cons, Piece.quoted, Piece.codePoints, List.flatMap_singleton]
      rcases quoteCodePoint_plain h with ⟨c, v, -, -, -, -, -, hq⟩ | ⟨-, -, -, -, hq⟩
      · rw [hq]
        exact hbackslash
      · rw [hq, List.head?_append_of_ne_nil _ (units_ne_nil cp)]
        intro heq
        exact Json.ne_of_mem_units (List.mem_of_mem_head? heq) (by decide) hp h.1 rfl

theorem addUnicodeEscape_quoted {ps : List Piece} {prev : Option UInt16}
    (h : Complete (prev = some (unit '\\')) ps) :
    addUnicodeEscape prev (ps.flatMap Piece.quoted) = ps.flatMap Piece.rewritten := by
  have hbackslash {prev : Option UInt16} {u : UInt16} (hu : u ≠ unit 'u') (text : JsString) :
      addUnicodeEscape prev (unit '\\' :: u :: text) =
        unit '\\' :: addUnicodeEscape (some (unit '\\')) (u :: text) :=
    addUnicodeEscape_cons prev fun _ heq => hu (Option.some.inj heq)
  have hnumber (cp : ℕ) (text : JsString) : addUnicodeEscape (some (unit 'u')) (Json.hex4 cp ++ text) =
      Json.hex4 cp ++ addUnicodeEscape (some (Json.hexDigit (cp % 0x10))) text :=
    addUnicodeEscape_append _ _ (fun u hu => (ne_of_mem_hex4 hu).1) text
  have hdigit (cp : ℕ) : some (Json.hexDigit (cp % 0x10)) ≠ some (unit '\\') :=
    fun heq => (hexDigit_ne (Nat.mod_lt _ (by decide))).1 (Option.some.inj heq)
  have hother {prev : Option UInt16} {ps : List Piece} (hprev : prev ≠ some (unit '\\'))
      (hps : Complete false ps) : Complete (prev = some (unit '\\')) ps := by
    rwa [decide_eq_false hprev]
  induction ps generalizing prev with
  | nil => rfl
  | cons p ps ih =>
    obtain ⟨hp, hps⟩ := h
    rw [List.flatMap_cons, List.flatMap_cons]
    cases p with
    | letter =>
      have hq : Piece.letter.quoted = [unit '\\', unit '\\', unit 'u'] := by decide
      rw [hq]
      simp only [List.cons_append, List.nil_append]
      rw [hbackslash (by decide), addUnicodeEscape_unicode, if_pos rfl, ih (hother (by decide) hps)]
      rfl
    | escaped cp h =>
      have hq : (Piece.escaped cp h).quoted =
          unit '\\' :: unit '\\' :: unit '\\' :: unit 'u' :: Json.hex4 cp := by
        rw [Piece.quoted, Piece.codePoints, List.flatMap_cons, List.flatMap_singleton,
          quoteCodePoint_numbered h]
        rfl
      rw [hq]
      simp only [List.cons_append]
      rw [hbackslash (by decide), hbackslash (by decide), addUnicodeEscape_unicode, if_pos rfl, hnumber,
        ih (hother (hdigit cp) hps)]
      rfl
    | number cp h =>
      have hq : (Piece.number cp h).quoted = unit '\\' :: unit 'u' :: Json.hex4 cp := by
        simp [Piece.quoted, quoteCodePoint_numbered h]
      have hprev : prev ≠ some (unit '\\') := fun heq => hp (by simpa using heq) trivial
      rw [hq]
      simp only [List.cons_append]
      rw [addUnicodeEscape_unicode, if_neg hprev, hnumber, ih (hother (hdigit cp) hps)]
      rfl
    | backslash =>
      have hq : Piece.backslash.quoted = [unit '\\', unit '\\'] := by decide
      rw [hq]
      simp only [List.cons_append, List.nil_append]
      rw [hbackslash (by decide), addUnicodeEscape_cons _ (fun _ => head?_quoted_ne hps), ih]
      · rfl
      · rwa [decide_eq_true rfl]
    | plain cp h =>
      have hq : (Piece.plain cp h).quoted = Json.quoteCodePoint cp := by
        simp [Piece.quoted]
      have hrewritten : (Piece.plain cp h).rewritten = Json.quoteCodePoint cp := rfl
      rw [hq, hrewritten]
      rcases quoteCodePoint_plain h with ⟨c, v, -, hu, hb, -, -, hq⟩ | ⟨-, -, -, -, hq⟩
      · rw [hq]
        simp only [List.cons_append, List.nil_append]
        rw [hbackslash hu, addUnicodeEscape_cons _ (fun heq => absurd heq hb), ih]
        exact hother (fun heq => hb (Option.some.inj heq)) hps
      · have hunits : ∀ u ∈ units cp, u ≠ unit '\\' :=
          fun u hu => Json.ne_of_mem_units hu (by decide) h.2.1 h.1
        rw [hq, addUnicodeEscape_append _ _ hunits, ih (hother _ hps)]
        rw [List.getLast?_eq_some_getLast (units_ne_nil cp)]
        exact fun heq => hunits _ (List.getLast_mem _) (Option.some.inj heq)

/-! ## The value of the literal -/

theorem digitValue_hexDigit {d : ℕ} (h : d < 16) : Json.digitValue (Json.hexDigit d) = some d := by
  have hall : ∀ d < 16, Json.digitValue (Json.hexDigit d) = some d := by decide
  exact hall d h

theorem hex4_value {n : ℕ} (h : n < 0x10000) :
    n / 0x1000 % 0x10 * 0x1000 + n / 0x100 % 0x10 * 0x100 + n / 0x10 % 0x10 * 0x10 + n % 0x10 = n := by
  omega

/-- The pieces are texts of a literal. -/
theorem stringText_rewritten (ps : List Piece) :
    Json.StringText (ps.flatMap Piece.rewritten) ((ps.flatMap Piece.parsed).flatMap units) := by
  have hbackslash {text us : JsString} (h : Json.StringText text us) :
      Json.StringText (unit '\\' :: unit '\\' :: text) (unit '\\' :: us) :=
    .single (by decide) h
  have hu {text us : JsString} (h : Json.StringText text us) :
      Json.StringText (unit 'u' :: text) (unit 'u' :: us) :=
    @Json.StringText.char 'u' _ _ (by decide) h
  have hu₁ : units 92 = [unit '\\'] := by decide
  have hu₂ : units 117 = [unit 'u'] := by decide
  have hdigit {d : ℕ} (hd : d < 16) {text us : JsString} (h : Json.StringText text us) :
      Json.StringText (Json.hexDigit d :: text) (Json.hexDigit d :: us) := by
    have hall : ∀ d < 16, ∃ c ∈ ['0', '1', '2', '3', '4', '5', '6', '7', '8', '9', 'a', 'b', 'c', 'd', 'e',
        'f'], units c.toNat = [Json.hexDigit d] ∧ 0x20 ≤ c.toNat ∧ c ≠ '"' ∧ c ≠ '\\' := by decide
    obtain ⟨c, -, hunits, hc⟩ := hall d hd
    have hchar := Json.StringText.char hc h
    rwa [hunits] at hchar
  induction ps with
  | nil => exact .nil
  | cons p ps ih =>
    rw [List.flatMap_cons, List.flatMap_cons, List.flatMap_append]
    cases p with
    | letter => exact hbackslash (hbackslash (hu ih))
    | escaped cp h =>
      have hunits : units cp = [UInt16.ofNat cp] := if_pos h.lt.1
      have hnumber := Json.StringText.number (digitValue_hexDigit (Nat.mod_lt (cp / 0x1000) (by decide)))
        (digitValue_hexDigit (Nat.mod_lt (cp / 0x100) (by decide)))
        (digitValue_hexDigit (Nat.mod_lt (cp / 0x10) (by decide)))
        (digitValue_hexDigit (Nat.mod_lt cp (by decide))) ih
      rw [hex4_value h.lt.1] at hnumber
      have htext := hbackslash (hbackslash hnumber)
      simpa [Piece.rewritten, Piece.parsed, hunits, Json.hex4, hu₁] using htext
    | number cp h =>
      have htext := hbackslash (hu (hdigit (Nat.mod_lt (cp / 0x1000) (by decide))
        (hdigit (Nat.mod_lt (cp / 0x100) (by decide)) (hdigit (Nat.mod_lt (cp / 0x10) (by decide))
          (hdigit (Nat.mod_lt cp (by decide)) ih)))))
      simpa [Piece.rewritten, Piece.parsed, units_toNat, Json.hex4, hu₁, hu₂] using htext
    | backslash => exact hbackslash ih
    | plain cp h =>
      have hparsed : (Piece.plain cp h).parsed.flatMap units = units cp := by
        simp [Piece.parsed]
      have hrewritten : (Piece.plain cp h).rewritten = Json.quoteCodePoint cp := rfl
      rw [hparsed, hrewritten]
      rcases quoteCodePoint_plain h with ⟨c, v, -, -, -, rfl, hmem, hq⟩ | ⟨-, hge, hs, hquote, hq⟩
      · have hsmall : ∀ e ∈ Json.singleEscapes, units e.2.toNat = [unit e.2] := by decide
        rw [hq, hsmall _ hmem]
        exact .single hmem ih
      · have hc : (Char.ofNat cp).toNat = cp := by
          have hvalid : cp.isValidChar := by
            have hlt := h.1
            unfold IsSurrogate at hs
            unfold Nat.isValidChar
            omega
          rw [Char.ofNat, dif_pos hvalid]
          rfl
        have hchar : 0x20 ≤ (Char.ofNat cp).toNat ∧ Char.ofNat cp ≠ '"' ∧ Char.ofNat cp ≠ '\\' := by
          refine ⟨by rwa [hc], fun heq => hquote ?_, fun heq => h.2.1 ?_⟩
          · rw [← heq, hc]
          · rw [← heq, hc]
        have htext := Json.StringText.char hchar ih
        rw [hq]
        rwa [hc] at htext

theorem Plain.not_isSurrogate {cp : ℕ} (h : Plain cp) : ¬ IsSurrogate cp := by
  rcases quoteCodePoint_plain h with ⟨c, v, hshort, -⟩ | ⟨-, -, hs, -⟩
  · have hsmall : ∀ e ∈ [(0x08, 'b'), (0x09, 't'), (0x0A, 'n'), (0x0C, 'f'), (0x0D, 'r'), ('"'.toNat, '"'),
        ('\\'.toNat, '\\')], ¬ IsSurrogate e.1 := by decide
    exact hsmall _ (shortEscape_eq hshort)
  · exact hs

/-- No piece starts with a low surrogate. -/
theorem head?_parsed {ps : List Piece} {v : UInt16}
    (hv : v ∈ ((ps.flatMap Piece.parsed).flatMap units).head?) : ¬ IsLowSurrogate v.toNat := by
  cases ps with
  | nil => cases hv
  | cons p ps =>
    have hbackslash : ¬ IsLowSurrogate (unit '\\').toNat := by decide
    rw [List.flatMap_cons, List.flatMap_append] at hv
    cases p with
    | plain cp h =>
      have hs := h.not_isSurrogate
      have hparsed : (Piece.plain cp h).parsed.flatMap units = units cp := by
        simp [Piece.parsed]
      have hlt := h.1
      rw [hparsed, List.head?_append_of_ne_nil _ (units_ne_nil cp)] at hv
      unfold units at hv
      unfold IsSurrogate at hs
      unfold IsLowSurrogate
      split_ifs at hv with hcp
      · cases hv
        rw [UInt16.toNat_ofNat_of_lt' hcp]
        omega
      · cases hv
        rw [UInt16.toNat_ofNat_of_lt' (by rw [UInt16.size]; omega)]
        omega
    | _ =>
      cases hv
      exact hbackslash

theorem Piece.lt_of_mem_parsed {p : Piece} {cp : ℕ} (h : cp ∈ p.parsed) : cp < 0x110000 := by
  have hb : '\\'.toNat < 0x110000 := by decide
  have hu : 'u'.toNat < 0x110000 := by decide
  cases p with
  | letter =>
    have hall : ∀ cp ∈ Piece.letter.parsed, cp < 0x110000 := by decide
    exact hall _ h
  | escaped cp' h' =>
    have hlt := h'.lt.1
    simp only [Piece.parsed, List.mem_cons, List.not_mem_nil, or_false] at h
    omega
  | number cp' h' =>
    simp only [Piece.parsed, List.mem_cons, List.mem_map] at h
    obtain rfl | rfl | ⟨u, -, rfl⟩ := h
    · exact hb
    · exact hu
    · exact u.toNat_lt.trans (by decide)
  | backslash =>
    have hall : ∀ cp ∈ Piece.backslash.parsed, cp < 0x110000 := by decide
    exact hall _ h
  | plain cp' h' =>
    obtain rfl := List.mem_singleton.mp h
    exact h'.1

theorem Piece.not_isSurrogate {p : Piece} (hp : ∀ cp h, p ≠ .escaped cp h) {cp : ℕ} (h : cp ∈ p.parsed) :
    ¬ IsSurrogate cp := by
  cases p with
  | letter =>
    have hall : ∀ cp ∈ Piece.letter.parsed, ¬ IsSurrogate cp := by decide
    exact hall cp h
  | escaped cp' h' => exact absurd rfl (hp cp' h')
  | number cp' h' =>
    have hdigit : ∀ d < 16, ¬ IsSurrogate (Json.hexDigit d).toNat := by decide
    simp only [Piece.parsed, Json.hex4, List.map_cons, List.map_nil, List.mem_cons, List.not_mem_nil,
      or_false] at h
    obtain rfl | rfl | rfl | rfl | rfl | rfl := h
    · decide
    · decide
    all_goals exact hdigit _ (Nat.mod_lt _ (by decide))
  | backslash =>
    have hall : ∀ cp ∈ Piece.backslash.parsed, ¬ IsSurrogate cp := by decide
    exact hall cp h
  | plain cp' h' =>
    obtain rfl := List.mem_singleton.mp h
    exact h'.not_isSurrogate

theorem codePoints_parsed (ps : List Piece) :
    codePoints ((ps.flatMap Piece.parsed).flatMap units) = ps.flatMap Piece.parsed := by
  have hscalar {cps : List ℕ} (h : ∀ cp ∈ cps, cp < 0x110000 ∧ ¬ IsSurrogate cp) (us : JsString) :
      codePoints (cps.flatMap units ++ us) = cps ++ codePoints us := by
    induction cps with
    | nil => rfl
    | cons cp cps ih =>
      obtain ⟨⟨hlt, hs⟩, hcps⟩ := List.forall_mem_cons.mp h
      rw [List.flatMap_cons, List.append_assoc, codePoints_units_append hlt hs, ih hcps]
      rfl
  have hpiece {p : Piece} (hp : ∀ cp h, p ≠ .escaped cp h) {cp : ℕ} (hcp : cp ∈ p.parsed) :
      cp < 0x110000 ∧ ¬ IsSurrogate cp :=
    ⟨Piece.lt_of_mem_parsed hcp, Piece.not_isSurrogate hp hcp⟩
  induction ps with
  | nil => rfl
  | cons p ps ih =>
    rw [List.flatMap_cons, List.flatMap_append]
    cases p with
    | letter => rw [hscalar (by decide), ih]
    | escaped cp h =>
      have hunits : units cp = [UInt16.ofNat cp] := if_pos h.lt.1
      have hsplit : (Piece.escaped cp h).parsed.flatMap units ++ (ps.flatMap Piece.parsed).flatMap units =
          ['\\'.toNat, '\\'.toNat].flatMap units ++
            (UInt16.ofNat cp :: (ps.flatMap Piece.parsed).flatMap units) := by
        simp [Piece.parsed, hunits]
      rw [hsplit, hscalar (by decide), codePoints_cons_of_not_pair fun v hv hpair => head?_parsed hv hpair.2,
        ih, UInt16.toNat_ofNat_of_lt' h.lt.1]
      rfl
    | number cp h => rw [hscalar fun cp hcp => hpiece (by rintro _ _ ⟨⟩) hcp, ih]
    | backslash => rw [hscalar (by decide), ih]
    | plain cp h => rw [hscalar fun cp hcp => hpiece (by rintro _ _ ⟨⟩) hcp, ih]

/-! ## Escapes in the bytes -/

theorem indexOfUnicode_append {q : List UInt8} (hq : indexOfUnicode q = none) {rest : List UInt8}
    (h : q.getLast? = some (byte '\\') → rest.head? ≠ some (byte 'u')) :
    indexOfUnicode (q ++ rest) = (indexOfUnicode rest).map (· + q.length) := by
  fun_induction indexOfUnicode q with
  | case1 c d q hcd => cases hq
  | case2 c d q hcd ih =>
    rw [Option.map_eq_none_iff] at hq
    have hlast : (d :: q).getLast? = some (byte '\\') → rest.head? ≠ some (byte 'u') := by
      intro heq
      exact h (by rw [List.getLast?_cons, heq]; rfl)
    have ih := ih hq hlast
    rw [List.cons_append] at ih ⊢
    rw [List.cons_append, indexOfUnicode, if_neg hcd, ih, Option.map_map]
    rfl
  | case3 q hshort =>
    rcases q with _ | ⟨c, _ | ⟨d, q⟩⟩
    · simp
    · cases rest with
      | nil => rfl
      | cons d rest =>
        rw [List.cons_append, List.nil_append, indexOfUnicode, if_neg]
        · rfl
        · rintro ⟨rfl, rfl⟩
          exact h rfl rfl
    · exact absurd rfl (hshort c d q)

theorem indexOfUnicode_unicode (rest : List UInt8) :
    indexOfUnicode (byte '\\' :: byte 'u' :: rest) = some 0 := by
  rw [indexOfUnicode, if_pos ⟨rfl, rfl⟩]

theorem findUnicode_append {q : List UInt8} (hq : indexOfUnicode q = none) (done rest : List UInt8) :
    findUnicode (done ++ (q ++ byte '\\' :: byte 'u' :: rest)) done.length = some (q.length + done.length) := by
  have hhead : q.getLast? = some (byte '\\') → (byte '\\' :: byte 'u' :: rest).head? ≠ some (byte 'u') :=
    fun _ heq => absurd (Option.some.inj heq) (by decide)
  have h : indexOfUnicode (q ++ byte '\\' :: byte 'u' :: rest) = some (0 + q.length) := by
    rw [indexOfUnicode_append hq hhead, indexOfUnicode_unicode]
    rfl
  rw [findUnicode, List.drop_left, h, Nat.zero_add]
  rfl

theorem byte_not_mem_utf8 {cp : ℕ} (hlt : cp < 0x110000) {c : Char} (hc : c.toNat < 0x80)
    (hne : cp ≠ c.toNat) : byte c ∉ utf8 cp := by
  intro hmem
  have hbyte : (byte c).toNat = c.toNat := UInt8.toNat_ofNat_of_lt' (by rw [UInt8.size]; omega)
  have h := utf8_of_ascii_mem hlt hmem (by omega)
  exact hne (h.trans hbyte)

theorem indexOfUnicode_append_utf8 {q : List UInt8} (hq : indexOfUnicode q = none) {cp : ℕ}
    (hlt : cp < 0x110000) (h : q.getLast? = some (byte '\\') → cp ≠ 'u'.toNat) :
    indexOfUnicode (q ++ utf8 cp) = none := by
  have hnone : ∀ bytes : List UInt8, byte '\\' ∉ bytes → indexOfUnicode bytes = none := by
    intro bytes hmem
    fun_induction indexOfUnicode bytes with
    | case1 c d bytes hcd => exact absurd (hcd.1 ▸ List.mem_cons_self) hmem
    | case2 c d bytes hcd ih =>
      rw [List.mem_cons, not_or] at hmem
      rw [ih hmem.2]
      rfl
    | case3 => rfl
  have hcp : indexOfUnicode (utf8 cp) = none := by
    rcases eq_or_ne cp '\\'.toNat with rfl | hne
    · decide
    · exact hnone _ (byte_not_mem_utf8 hlt (by decide) hne)
  rw [indexOfUnicode_append hq, hcp]
  · rfl
  · intro hlast hhead
    exact byte_not_mem_utf8 hlt (by decide) (h hlast) (List.mem_of_mem_head? hhead)

/-- The bytes of four digits. -/
def hexBytes (n : ℕ) : List UInt8 := (Json.hex4 n).map fun u => UInt8.ofNat u.toNat

theorem stoi_digits {a b c d : UInt8} {i j k l : ℕ}
    (ha : Json.digitValue a.toUInt16 = some i) (hb : Json.digitValue b.toUInt16 = some j)
    (hc : Json.digitValue c.toUInt16 = some k) (hd : Json.digitValue d.toUInt16 = some l)
    (hspace : isSpace a = false) (hsign : a ≠ byte '-' ∧ a ≠ byte '+') (hx : b ≠ byte 'x' ∧ b ≠ byte 'X') :
    stoi [a, b, c, d] = some (((i * 16 + j) * 16 + k) * 16 + l : ℕ) := by
  simp [stoi, hspace, hsign, skipHexPrefix, hx, startsWithDigit, leadingDigits, ha, hb, hc, hd]

theorem stoi_hexBytes {n : ℕ} (h : n < 0x10000) : stoi (hexBytes n) = some (n : ℤ) := by
  have hdigit : ∀ d < 16, Json.digitValue (UInt8.ofNat (Json.hexDigit d).toNat).toUInt16 = some d ∧
      isSpace (UInt8.ofNat (Json.hexDigit d).toNat) = false ∧
      UInt8.ofNat (Json.hexDigit d).toNat ∉ [byte '-', byte '+', byte 'x', byte 'X'] := by decide
  obtain ⟨hi, hspace, hsign⟩ := hdigit _ (Nat.mod_lt (n / 0x1000) (by decide))
  obtain ⟨hj, -, hx⟩ := hdigit _ (Nat.mod_lt (n / 0x100) (by decide))
  obtain ⟨hk, -, -⟩ := hdigit _ (Nat.mod_lt (n / 0x10) (by decide))
  obtain ⟨hl, -, -⟩ := hdigit _ (Nat.mod_lt n (by decide))
  have hvalue : ((n / 0x1000 % 0x10 * 16 + n / 0x100 % 0x10) * 16 + n / 0x10 % 0x10) * 16 + n % 0x10 = n := by
    omega
  simp only [List.mem_cons, List.not_mem_nil, or_false, not_or] at hsign hx
  have h := stoi_digits hi hj hk hl hspace ⟨hsign.1, hsign.2.1⟩ ⟨hx.2.2.1, hx.2.2.2⟩
  rw [hvalue] at h
  exact h

section Decode

variable (utf : PandaUtf)

/-- Whether `newData` is read as `us`, whatever follows it. -/
def Reads (newData : List UInt8) (us : JsString) : Prop :=
  ∀ rest, utf.decode (newData ++ rest) = (utf.decode rest).map (us ++ ·)

theorem reads_nil : Reads utf [] [] := by
  intro rest
  simp

theorem Reads.append {newData : List UInt8} {us vs : JsString} (h : Reads utf newData us)
    (hvs : WellFormed vs ∨ vs.length = 1) :
    Reads utf (newData ++ convertUtf16ToMUtf8 utf vs) (us ++ vs) := by
  have hconvert : convertUtf16ToMUtf8 utf vs = utf.convertRegionUtf16ToMUtf8 vs := by
    have hzero := utf.zero_not_mem vs
    rw [convertUtf16ToMUtf8, List.takeWhile_append_of_pos]
    · simp
    · intro b hb
      exact decide_eq_true fun heq => hzero (heq ▸ hb)
  intro rest
  rw [hconvert, List.append_assoc, h, utf.decode_append vs rest hvs, Option.map_map]
  simp [Function.comp_def]

theorem Reads.decode {newData : List UInt8} {us : JsString} (h : Reads utf newData us) :
    utf.decode newData = some us := by
  have h := h []
  rw [List.append_nil, utf.decode_nil] at h
  simpa using h

theorem wellFormed_flatMap_units {cps : List ℕ} (h : ∀ cp ∈ cps, cp < 0x110000)
    (hs : ¬ ∃ cp ∈ cps, IsSurrogate cp) : WellFormed (cps.flatMap units) := by
  induction cps with
  | nil => exact nofun
  | cons cp cps ih =>
    obtain ⟨hcp, hcps⟩ := List.forall_mem_cons.mp h
    have hrest : ¬ ∃ cp ∈ cps, IsSurrogate cp :=
      fun ⟨cp', hcp', hs'⟩ => hs ⟨cp', List.mem_cons_of_mem _ hcp', hs'⟩
    exact (ih hcps hrest).units_append hcp fun hs' => hs ⟨cp, List.mem_cons_self, hs'⟩

theorem convertUtf8ToMUtf8_flatMap {cps : List ℕ} (h : ∀ cp ∈ cps, cp < 0x110000) :
    convertUtf8ToMUtf8 utf (cps.flatMap utf8) =
      if ∃ cp ∈ cps, IsSurrogate cp then none
      else some (convertUtf16ToMUtf8 utf (cps.flatMap units)) := by
  rw [convertUtf8ToMUtf8, fromUtf8, decodeUtf8_flatMap h]
  split_ifs <;> rfl

end Decode

/-- What arrives of a string. -/
def arrived (ps : List Piece) : Option JsString :=
  (ps.mapM Piece.delivered).map fun cps => cps.flatten.flatMap units

theorem arrived_cons (p : Piece) (ps : List Piece) :
    arrived (p :: ps) =
      p.delivered.bind fun cps => (arrived ps).map (cps.flatMap units ++ ·) := by
  simp only [arrived, List.mapM_cons, Option.bind_eq_bind, Option.pure_def]
  cases p.delivered with
  | none => rfl
  | some cps => cases ps.mapM Piece.delivered <;> simp

/-! ## The loop -/

theorem drop_append_append (done q : List UInt8) (k : ℕ) (rest : List UInt8) :
    (done ++ (q ++ rest)).drop (done.length + q.length + k) = rest.drop k := by
  rw [← List.append_assoc, ← List.length_append, List.drop_length_add_append]

section Loop

variable (utf : PandaUtf) {done q : List UInt8} (n : ℕ) (newData : List UInt8)

theorem parseUnicodeEscapeLoop_end (hq : indexOfUnicode q = none) :
    parseUnicodeEscapeLoop utf (done ++ q) (n + 1) done.length newData =
      if q = [] then some newData
      else (convertUtf8ToMUtf8 utf q).map (newData ++ ·) := by
  have hfind : findUnicode (done ++ q) done.length = none := by
    rw [findUnicode, List.drop_left, hq]
    rfl
  rw [parseUnicodeEscapeLoop, hfind]
  rcases eq_or_ne q [] with rfl | hne
  · rw [if_pos rfl, List.append_nil]
    exact if_pos rfl
  · have hpos := List.length_pos_iff.mpr hne
    have hlength := @List.length_append _ done q
    simp only [List.drop_left]
    rw [if_neg (by omega), if_neg (by omega), if_neg hne]
    cases convertUtf8ToMUtf8 utf q <;> rfl

theorem parseUnicodeEscapeLoop_letter (hq : indexOfUnicode q = none) (rest : List UInt8) :
    parseUnicodeEscapeLoop utf (done ++ (q ++ byte '\\' :: byte '\\' :: byte 'u' :: rest)) (n + 1)
        done.length newData =
      (convertUtf8ToMUtf8 utf (q ++ [byte '\\', byte 'u'])).bind fun tmpStr =>
        parseUnicodeEscapeLoop utf (done ++ (q ++ byte '\\' :: byte '\\' :: byte 'u' :: rest)) n
          (done.length + q.length + 3) (newData ++ tmpStr) := by
  have hq' : indexOfUnicode (q ++ [byte '\\']) = none :=
    @indexOfUnicode_append_utf8 q hq '\\'.toNat (by decide) fun _ => by decide
  have hfind := findUnicode_append hq' done rest
  simp only [List.append_assoc, List.cons_append, List.nil_append, List.length_append, List.length_singleton]
    at hfind
  have hbackslash : (done ++ (q ++ byte '\\' :: byte '\\' :: byte 'u' :: rest))[done.length + q.length]? =
      some (byte '\\') := by
    rw [List.getElem?_append_right (by omega), List.getElem?_append_right (by omega)]
    simp
  have hdrop : (done ++ (q ++ byte '\\' :: byte '\\' :: byte 'u' :: rest)).drop (done.length + q.length + 1) =
      byte '\\' :: byte 'u' :: rest := by
    exact drop_append_append done q 1 _
  have hindex : q.length + 1 + done.length = done.length + q.length + 1 := by omega
  rw [hindex] at hfind
  rw [parseUnicodeEscapeLoop, hfind]
  simp only [Nat.add_sub_cancel]
  rw [if_pos ⟨by omega, hbackslash⟩, if_pos (by omega), hdrop, List.drop_left, Nat.add_sub_cancel_left,
    List.take_left]
  rfl

/-- A single backslash starts an escape that is decoded. -/
theorem parseUnicodeEscapeLoop_number (hq : indexOfUnicode q = none)
    (hlast : (done ++ q).getLast? ≠ some (byte '\\')) {cp : ℕ} (hcp : cp < 0x10000) (rest : List UInt8) :
    parseUnicodeEscapeLoop utf (done ++ (q ++ byte '\\' :: byte 'u' :: (hexBytes cp ++ rest))) (n + 1)
        done.length newData =
      (convertUtf8ToMUtf8 utf q).bind fun tmpStr =>
        parseUnicodeEscapeLoop utf (done ++ (q ++ byte '\\' :: byte 'u' :: (hexBytes cp ++ rest))) n
          (done.length + q.length + 6)
          (newData ++ tmpStr ++ convertUtf16ToMUtf8 utf [UInt16.ofNat cp]) := by
  have hfind := findUnicode_append hq done (hexBytes cp ++ rest)
  rw [Nat.add_comm] at hfind
  have hprev : ¬ (done.length + q.length ≠ 0 ∧
      (done ++ (q ++ byte '\\' :: byte 'u' :: (hexBytes cp ++ rest)))[done.length + q.length - 1]? =
        some (byte '\\')) := by
    rintro ⟨hne, h⟩
    rw [List.getLast?_eq_getElem?, List.length_append] at hlast
    rw [← List.append_assoc, List.getElem?_append_left (by rw [List.length_append]; omega)] at h
    exact hlast h
  have hdrop : ((done ++ (q ++ byte '\\' :: byte 'u' :: (hexBytes cp ++ rest))).drop
      (done.length + q.length + 2)).take 4 = hexBytes cp := by
    rw [drop_append_append]
    exact @List.take_left _ (hexBytes cp) rest
  have hofInt : UInt16.ofInt (cp : ℤ) = UInt16.ofNat cp := by
    rw [UInt16.ofInt, Int.emod_eq_of_lt (by omega) (by omega), Int.toNat_natCast]
  rw [parseUnicodeEscapeLoop, hfind]
  simp only []
  rw [if_neg hprev, List.drop_left, Nat.add_sub_cancel_left, List.take_left, hdrop, stoi_hexBytes hcp]
  simp only [Option.bind_eq_bind, Option.bind_some, hofInt]

end Loop

theorem exists_mem_append {cps cps' : List ℕ} :
    (∃ cp ∈ cps ++ cps', IsSurrogate cp) ↔ (∃ cp ∈ cps, IsSurrogate cp) ∨ ∃ cp ∈ cps', IsSurrogate cp := by
  simp only [List.mem_append, or_and_right, exists_or]

theorem arrived_join {p : Piece}
    (hp : p.delivered = if ∃ cp ∈ p.parsed, IsSurrogate cp then none else some p.parsed)
    (qs : List ℕ) (us : JsString) (ps : List Piece) :
    (if ∃ cp ∈ qs ++ p.parsed, IsSurrogate cp then none
      else (arrived ps).map fun vs => us ++ ((qs ++ p.parsed).flatMap units ++ vs)) =
    if ∃ cp ∈ qs, IsSurrogate cp then none
      else (arrived (p :: ps)).map fun vs => us ++ (qs.flatMap units ++ vs) := by
  rw [arrived_cons, hp]
  simp only [exists_mem_append]
  by_cases hqs : ∃ cp ∈ qs, IsSurrogate cp
  · rw [if_pos hqs, if_pos (.inl hqs)]
  · rw [if_neg hqs]
    by_cases hparsed : ∃ cp ∈ p.parsed, IsSurrogate cp
    · rw [if_pos (.inr hparsed), if_pos hparsed]
      rfl
    · rw [if_neg (not_or.mpr ⟨hqs, hparsed⟩), if_neg hparsed, Option.bind_some, Option.map_map]
      congr 1
      funext vs
      simp

theorem decode_parseUnicodeEscapeLoop (utf : PandaUtf) {ps : List Piece} {n : ℕ} {done : List UInt8}
    {qs : List ℕ} {newData : List UInt8} {us : JsString} (hn : ps.length < n)
    (hqs : ∀ cp ∈ qs, cp < 0x110000) (hq : indexOfUnicode (qs.flatMap utf8) = none)
    (hps : Complete ((done ++ qs.flatMap utf8).getLast? = some (byte '\\')) ps) (hreads : Reads utf newData us) :
    (parseUnicodeEscapeLoop utf (done ++ (qs.flatMap utf8 ++ (ps.flatMap Piece.parsed).flatMap utf8)) n
        done.length newData).bind utf.decode =
      if ∃ cp ∈ qs, IsSurrogate cp then none
      else (arrived ps).map fun vs => us ++ (qs.flatMap units ++ vs) := by
  induction ps generalizing n done qs newData us with
  | nil =>
    obtain ⟨n, rfl⟩ : ∃ k, n = k + 1 := ⟨n - 1, by omega⟩
    have harrived : arrived [] = some [] := rfl
    rw [List.flatMap_nil, List.flatMap_nil, List.append_nil, parseUnicodeEscapeLoop_end utf n newData hq,
      convertUtf8ToMUtf8_flatMap utf hqs, harrived]
    rcases eq_or_ne qs [] with rfl | hne
    · simpa using hreads.decode
    · have hnil : qs.flatMap utf8 ≠ [] := by
        obtain ⟨cp, cps, rfl⟩ := List.exists_cons_of_ne_nil hne
        exact List.append_ne_nil_of_left_ne_nil (utf8_ne_nil cp) _
      rw [if_neg hnil]
      split_ifs with hs
      · rfl
      · have hall := (hreads.append utf (.inl (wellFormed_flatMap_units hqs hs))).decode
        simpa using hall
  | cons p ps ih =>
    obtain ⟨hp, hps⟩ := hps
    have hn' : ps.length < n := by
      rw [List.length_cons] at hn
      omega
    -- A piece that is no escape joins the code points in front of it.
    have hjoin (hdelivered : p.delivered = if ∃ cp ∈ p.parsed, IsSurrogate cp then none else some p.parsed)
        (hindex : indexOfUnicode ((qs ++ p.parsed).flatMap utf8) = none)
        (hlast : Complete ((p.parsed.flatMap utf8).getLast? = some (byte '\\')) ps)
        (hne : p.parsed.flatMap utf8 ≠ []) :
        (parseUnicodeEscapeLoop utf (done ++ (qs.flatMap utf8 ++ ((p :: ps).flatMap Piece.parsed).flatMap utf8)) n
          done.length newData).bind utf.decode =
        if ∃ cp ∈ qs, IsSurrogate cp then none
          else (arrived (p :: ps)).map fun vs => us ++ (qs.flatMap units ++ vs) := by
      have hlt : ∀ cp ∈ qs ++ p.parsed, cp < 0x110000 := fun cp hcp =>
        (List.mem_append.mp hcp).elim (hqs cp) Piece.lt_of_mem_parsed
      have hcomplete : Complete ((done ++ (qs ++ p.parsed).flatMap utf8).getLast? = some (byte '\\')) ps := by
        rwa [List.flatMap_append, ← List.append_assoc, List.getLast?_append_of_ne_nil _ hne]
      have h := ih hn' hlt hindex hcomplete hreads
      rw [arrived_join hdelivered] at h
      simpa using h
    -- Behind an escape the loop goes on with no code points left to be converted.
    have hgo {m : ℕ} {mid tmpStr : List UInt8} {vs : JsString} (hm : ps.length < m)
        (hlast : Complete ((done ++ mid).getLast? = some (byte '\\')) ps) (htmp : Reads utf (newData ++ tmpStr) vs) :
        (parseUnicodeEscapeLoop utf (done ++ (mid ++ (ps.flatMap Piece.parsed).flatMap utf8)) m
          (done.length + mid.length) (newData ++ tmpStr)).bind utf.decode =
        (arrived ps).map (vs ++ ·) := by
      have h := @ih m (done ++ mid) [] (newData ++ tmpStr) vs hm nofun rfl (by simpa using hlast) htmp
      simpa using h
    have hother {last : Option UInt8} (hlast : last ≠ some (byte '\\')) (hps : Complete false ps) :
        Complete (last = some (byte '\\')) ps := by
      rwa [decide_eq_false hlast]
    have hlastOther {cp : ℕ} (hlt : cp < 0x110000) (hne : cp ≠ '\\'.toNat) (hps : Complete false ps) :
        Complete ((utf8 cp).getLast? = some (byte '\\')) ps :=
      hother (fun heq => byte_not_mem_utf8 hlt (by decide) hne (List.mem_of_getLast? heq)) hps
    have hb : utf8 '\\'.toNat = [byte '\\'] := utf8_ascii (by decide)
    have hu : utf8 'u'.toNat = [byte 'u'] := utf8_ascii (by decide)
    cases p with
    | letter =>
      obtain ⟨n, rfl⟩ : ∃ k, n = k + 1 := ⟨n - 1, by omega⟩
      have hbytes : ((Piece.letter :: ps).flatMap Piece.parsed).flatMap utf8 =
          byte '\\' :: byte '\\' :: byte 'u' :: (ps.flatMap Piece.parsed).flatMap utf8 := by
        simp only [List.flatMap_cons, Piece.parsed, List.cons_append, List.nil_append, hb, hu]
      have htmp : qs.flatMap utf8 ++ [byte '\\', byte 'u'] = (qs ++ ['\\'.toNat, 'u'.toNat]).flatMap utf8 := by
        simp only [List.flatMap_append, List.flatMap_cons, List.flatMap_nil, hb, hu, List.cons_append,
          List.nil_append]
      have hlt : ∀ cp ∈ qs ++ ['\\'.toNat, 'u'.toNat], cp < 0x110000 := fun cp hcp =>
        (List.mem_append.mp hcp).elim (hqs cp) (@Piece.lt_of_mem_parsed .letter cp ∘ List.mem_cons_of_mem _)
      have hletter : ¬ ∃ cp ∈ ['\\'.toNat, 'u'.toNat], IsSurrogate cp := by decide
      rw [hbytes, parseUnicodeEscapeLoop_letter utf n newData hq, htmp, convertUtf8ToMUtf8_flatMap utf hlt,
        arrived_cons]
      simp only [exists_mem_append, hletter, or_false]
      split_ifs with hs
      · rfl
      · have hwf := wellFormed_flatMap_units hlt (by rwa [exists_mem_append, or_iff_left hletter])
        have hlast : (done ++ (qs.flatMap utf8 ++ [byte '\\', byte '\\', byte 'u'])).getLast? ≠
            some (byte '\\') := by
          have hne : byte 'u' ≠ byte '\\' := by decide
          simpa using hne
        have h := hgo (Nat.lt_of_succ_lt_succ hn) (hother hlast hps) (hreads.append utf (.inl hwf))
        simpa [Piece.delivered, Function.comp_def, Nat.add_assoc] using h
    | escaped cp h =>
      have hparsed : (Piece.escaped cp h).parsed = ['\\'.toNat, '\\'.toNat, cp] := rfl
      have hne : cp ≠ '\\'.toNat := by
        rintro rfl
        exact absurd h.1 (by decide)
      have hbytes : (Piece.escaped cp h).parsed.flatMap utf8 =
          utf8 '\\'.toNat ++ utf8 '\\'.toNat ++ utf8 cp := by
        simp [hparsed]
      apply hjoin
      · have hs : ¬ IsSurrogate 92 := by decide
        simp [hparsed, Piece.delivered, hs]
      · rw [List.flatMap_append, hbytes, ← List.append_assoc, ← List.append_assoc]
        refine indexOfUnicode_append_utf8 ?_ (h.lt.1.trans (by decide)) fun _ => h.lt.2
        refine indexOfUnicode_append_utf8 ?_ (by decide) fun _ => by decide
        exact indexOfUnicode_append_utf8 hq (by decide) fun _ => by decide
      · rw [hbytes, List.getLast?_append_of_ne_nil _ (utf8_ne_nil cp)]
        exact hlastOther (h.lt.1.trans (by decide)) hne hps
      · rw [hbytes]
        exact List.append_ne_nil_of_right_ne_nil _ (utf8_ne_nil cp)
    | number cp h =>
      obtain ⟨n, rfl⟩ : ∃ k, n = k + 1 := ⟨n - 1, by omega⟩
      have hdigit : ∀ d < 16, utf8 (Json.hexDigit d).toNat = [UInt8.ofNat (Json.hexDigit d).toNat] ∧
          UInt8.ofNat (Json.hexDigit d).toNat ≠ byte '\\' := by decide
      have hdigits (d : ℕ) := hdigit (d % 16) (Nat.mod_lt _ (by decide))
      have hbytes : ((Piece.number cp h :: ps).flatMap Piece.parsed).flatMap utf8 =
          byte '\\' :: byte 'u' :: (hexBytes cp ++ (ps.flatMap Piece.parsed).flatMap utf8) := by
        simp only [List.flatMap_cons, Piece.parsed, Json.hex4, hexBytes, List.map_cons, List.map_nil,
          List.cons_append, List.nil_append, hb, hu, (hdigits _).1]
      have hlast : (done ++ qs.flatMap utf8).getLast? ≠ some (byte '\\') :=
        fun heq => hp (decide_eq_true heq) trivial
      rw [hbytes, parseUnicodeEscapeLoop_number utf n newData hq hlast h.lt.1,
        convertUtf8ToMUtf8_flatMap utf hqs, arrived_cons]
      split_ifs with hs
      · rfl
      · have hwf := wellFormed_flatMap_units hqs hs
        have hreads' := @Reads.append utf _ _ [UInt16.ofNat cp] (hreads.append utf (.inl hwf)) (.inr rfl)
        rw [List.append_assoc] at hreads'
        have hlast' : (done ++ (qs.flatMap utf8 ++ byte '\\' :: byte 'u' :: hexBytes cp)).getLast? ≠
            some (byte '\\') := by
          have hlast : (hexBytes cp).getLast? = some (UInt8.ofNat (Json.hexDigit (cp % 0x10)).toNat) := rfl
          have hne := (hdigits cp).2
          rw [List.getLast?_append, List.getLast?_append, List.getLast?_cons, List.getLast?_cons, hlast]
          exact fun heq => hne (Option.some.inj heq)
        have hfour : (hexBytes cp).length = 4 := rfl
        have hunits : units cp = [UInt16.ofNat cp] := if_pos h.lt.1
        have h := hgo (Nat.lt_of_succ_lt_succ hn)
          (hother hlast' hps) hreads'
        simpa [Piece.delivered, Function.comp_def, Nat.add_assoc, hfour, hunits] using h
    | backslash =>
      apply hjoin
      · rfl
      · rw [List.flatMap_append, Piece.parsed, List.flatMap_singleton]
        exact indexOfUnicode_append_utf8 hq (by decide) fun _ => by decide
      · rw [Piece.parsed, List.flatMap_singleton, hb]
        exact hps
      · exact List.cons_ne_nil _ _
    | plain cp h =>
      have hparsed : (Piece.plain cp h).parsed = [cp] := rfl
      apply hjoin
      · rw [hparsed, if_neg]
        · rfl
        · rintro ⟨cp', hcp', hs⟩
          obtain rfl := List.mem_singleton.mp hcp'
          exact h.not_isSurrogate hs
      · rw [List.flatMap_append, hparsed, List.flatMap_singleton]
        refine indexOfUnicode_append_utf8 hq h.1 fun hlast => hp (decide_eq_true ?_)
        rw [List.getLast?_append, hlast]
        rfl
      · rw [hparsed, List.flatMap_singleton]
        exact hlastOther h.1 h.2.1 hps
      · rw [hparsed, List.flatMap_singleton]
        exact utf8_ne_nil cp

theorem length_le_length_parsed (ps : List Piece) :
    ps.length ≤ ((ps.flatMap Piece.parsed).flatMap utf8).length := by
  induction ps with
  | nil => exact Nat.zero_le _
  | cons p ps ih =>
    have hpos : 0 < (p.parsed.flatMap utf8).length := by
      rw [List.length_pos_iff]
      cases p with
      | plain cp h =>
        rw [Piece.parsed, List.flatMap_singleton]
        exact utf8_ne_nil cp
      | _ => exact List.cons_ne_nil _ _
    rw [List.flatMap_cons, List.flatMap_append, List.length_append, List.length_cons]
    omega

theorem decode_parseString (utf : PandaUtf) {ps : List Piece} (hps : Complete false ps) :
    (parseString utf ((ps.flatMap Piece.parsed).flatMap utf8)).bind utf.decode = arrived ps := by
  have hn := Nat.lt_succ_of_le (length_le_length_parsed ps)
  have hloop : (parseUnicodeEscapeString utf ((ps.flatMap Piece.parsed).flatMap utf8)).bind utf.decode =
      arrived ps := by
    refine (@decode_parseUnicodeEscapeLoop utf ps _ [] [] [] [] hn nofun rfl hps (reads_nil utf)).trans ?_
    simp
  generalize (ps.flatMap Piece.parsed).flatMap utf8 = data at hloop ⊢
  unfold parseString
  split_ifs with hfind
  · exact hloop
  · have hindex : indexOfUnicode data = none := by
      simpa [findUnicode] using hfind
    have hend := @parseUnicodeEscapeLoop_end utf [] data data.length [] hindex
    rw [parseUnicodeEscapeString] at hloop
    rw [← hloop]
    rw [List.nil_append, List.length_nil] at hend
    rw [hend]
    rcases eq_or_ne data [] with rfl | hne
    · have hnil := (@Reads.append utf _ _ [] (reads_nil utf) (.inl nofun)).decode
      have hempty := (reads_nil utf).decode
      rw [List.nil_append, List.nil_append] at hnil
      rw [if_pos rfl]
      exact hnil.trans hempty.symm
    · rw [if_neg hne]
      simp

/-! ## The whole way -/

/-- The bytes a string arrives as, with the text of the document around it. -/
def transport (utf : PandaUtf) (value : List UInt8 → Option (List UInt8)) (before s after : JsString) :
    Option (List UInt8) :=
  (value (toUtf8 (escapeUnicode (before ++ Json.stringify s ++ after)))).bind (parseString utf)

/-- Whether a backslash stands in front of a code point that JSON writes with its number. -/
def BackslashBeforeNumber (s : JsString) : Prop :=
  ∃ cp, Json.Numbered cp ∧ ['\\'.toNat, cp] <:+: codePoints s

theorem escaped_mem_pieces_iff {cps : List ℕ} {cp : ℕ} (h : Json.Numbered cp) :
    .escaped cp h ∈ pieces cps ↔ ['\\'.toNat, cp] <:+: cps := by
  have hb : ¬ Json.Numbered '\\'.toNat := by decide
  have hbu : '\\'.toNat ≠ 'u'.toNat := by decide
  have hu := h.lt.2
  fun_induction pieces cps with
  | case1 => simp
  | case2 => simp [List.infix_cons_iff]
  | case3 cps ih => 
    rw [List.infix_cons_iff, List.infix_cons_iff]
    grind
  | case4 cp' cps hu' hn ih =>
    rw [List.infix_cons_iff, List.infix_cons_iff]
    grind
  | case5 cp' cps hu' hn ih =>
    rw [List.infix_cons_iff]
    grind
  | case6 cp' cps hb' hn ih =>
    rw [List.infix_cons_iff]
    grind
  | case7 cp' cps hb' hn hp ih =>
    rw [List.infix_cons_iff]
    grind
  | case8 cp' cps hb' hn hp ih =>
    rw [List.infix_cons_iff]
    grind

theorem arrived_eq_of_not_escaped {ps : List Piece} (h : ∀ cp h, Piece.escaped cp h ∉ ps) :
    arrived ps = some ((ps.flatMap Piece.codePoints).flatMap units) := by
  induction ps with
  | nil => rfl
  | cons p ps ih =>
    have hp : p.delivered = some p.codePoints := by
      cases p with
      | escaped cp h' => exact absurd List.mem_cons_self (h cp h')
      | _ => rfl
    rw [arrived_cons, hp, ih fun cp h' hmem => h cp h' (List.mem_cons_of_mem _ hmem)]
    simp

/-- Nothing is lost, and each escaped piece has a backslash too many. -/
theorem length_of_arrived {ps : List Piece} {us : JsString} (h : arrived ps = some us) :
    ((ps.flatMap Piece.codePoints).flatMap units).length ≤ us.length ∧
    ∀ cp h, Piece.escaped cp h ∈ ps →
      ((ps.flatMap Piece.codePoints).flatMap units).length < us.length := by
  induction ps generalizing us with
  | nil => exact ⟨Nat.zero_le _, nofun⟩
  | cons p ps ih =>
    rw [arrived_cons, Option.bind_eq_some_iff] at h
    obtain ⟨cps, hp, h⟩ := h
    obtain ⟨vs, hvs, rfl⟩ := Option.map_eq_some_iff.mp h
    obtain ⟨hle, hlt⟩ := ih hvs
    simp only [List.flatMap_cons, List.flatMap_append, List.length_append]
    cases p with
    | escaped cp h' =>
      have hone : cps.flatMap units = unit '\\' :: (Piece.escaped cp h').codePoints.flatMap units := by
        simp only [Piece.delivered] at hp
        split_ifs at hp
        cases hp
        rfl
      rw [hone, List.length_cons]
      exact ⟨by omega, fun _ _ _ => by omega⟩
    | _ =>
      cases hp
      refine ⟨by omega, fun cp h' hmem => ?_⟩
      have := hlt cp h' (by simpa using hmem)
      omega

theorem stringify_eq (s : JsString) :
    Json.stringify s = unit '"' :: (pieces (codePoints s)).flatMap Piece.quoted ++ [unit '"'] := by
  have h : (codePoints s).flatMap Json.quoteCodePoint =
      (pieces (codePoints s)).flatMap Piece.quoted := by
    conv_lhs => rw [← flatMap_codePoints_pieces fun cp => codePoints_lt, List.flatMap_assoc]
    rfl
  rw [Json.stringify, h]

theorem lineFeed_not_mem_quoted (ps : List Piece) : unit '\n' ∉ ps.flatMap Piece.quoted := by
  have hnumber {cp : ℕ} (h : Json.Numbered cp) : unit '\n' ∉ Json.quoteCodePoint cp := by
    rw [quoteCodePoint_numbered h, List.mem_cons, List.mem_cons]
    rintro (h | h | h)
    · exact absurd h (by decide)
    · exact absurd h (by decide)
    · exact (ne_of_mem_hex4 h).2 rfl
  have hb : unit '\n' ∉ Json.quoteCodePoint '\\'.toNat := by decide
  have hu : unit '\n' ∉ Json.quoteCodePoint 'u'.toNat := by decide
  intro hmem
  obtain ⟨p, -, hquoted⟩ := List.mem_flatMap.mp hmem
  obtain ⟨cp, hcp, hp⟩ := List.mem_flatMap.mp hquoted
  cases p with
  | letter =>
    obtain rfl | rfl := by simpa using hcp
    · exact hb hp
    · exact hu hp
  | escaped cp' h =>
    obtain rfl | rfl := by simpa using hcp
    · exact hb hp
    · exact hnumber h hp
  | number cp' h =>
    obtain rfl := List.mem_singleton.mp hcp
    exact hnumber h hp
  | backslash =>
    obtain rfl := List.mem_singleton.mp hcp
    exact hb hp
  | plain cp' h =>
    obtain rfl := List.mem_singleton.mp hcp
    rcases quoteCodePoint_plain h with ⟨c, v, -, -, -, -, hmem, hq⟩ | ⟨-, hge, -, -, hq⟩
    · have hletter : ∀ e ∈ Json.singleEscapes, unit '\n' ∉ [unit '\\', unit e.1] := by decide
      exact hletter _ hmem (hq ▸ hp)
    · rw [hq] at hp
      refine Json.ne_of_mem_units hp (by decide) (fun heq => ?_) h.1 rfl
      have hten : '\n'.toNat = 10 := rfl
      omega

/-- A string arrives unless a backslash stands in front of a code point that JSON writes with its
number: there the escape of the text is taken for an escaped backslash and a letter. -/
theorem decode_transport_iff (utf : PandaUtf) {value : List UInt8 → Option (List UInt8)}
    {before after : JsString} (hafter : unit '\n' ∈ after)
    (hvalue : Json.ReadsLiteral value (escapeBefore before) (escapeUnicode after)) (s : JsString) :
    (transport utf value before s after).bind utf.decode = some s ↔ ¬ BackslashBeforeNumber s := by
  have hlt : ∀ cp ∈ codePoints s, cp < 0x110000 := fun cp => codePoints_lt
  have hcomplete : Complete false (pieces (codePoints s)) := complete_pieces hlt false nofun
  have hcodePoints : ((pieces (codePoints s)).flatMap Piece.codePoints).flatMap units = s := by
    rw [flatMap_codePoints_pieces hlt, flatMap_units_codePoints]
  have hescaped : BackslashBeforeNumber s ↔ ∃ cp h, Piece.escaped cp h ∈ pieces (codePoints s) := by
    simp only [BackslashBeforeNumber, escaped_mem_pieces_iff, exists_prop]
  have hparsed := codePoints_parsed (pieces (codePoints s))
  have harrived := decode_parseString utf hcomplete
  have htext := escapeUnicode_append (lineFeed_not_mem_quoted (pieces (codePoints s))) hafter before
  rw [addUnicodeEscape_quoted (by simpa using hcomplete)] at htext
  have hdocument : before ++ Json.stringify s ++ after =
      before ++ unit '"' :: (pieces (codePoints s)).flatMap Piece.quoted ++ unit '"' :: after := by
    rw [stringify_eq]
    simp
  rw [transport, hdocument, htext, hescaped]
  constructor
  · rintro harrives ⟨cp, h, hmem⟩
    rcases hvalue _ _ (stringText_rewritten (pieces (codePoints s))) with hsome | ⟨-, hnone⟩
    · rw [hsome, hparsed, Option.bind_some, harrived] at harrives
      have hlonger := (length_of_arrived harrives).2 cp h hmem
      rw [hcodePoints] at hlonger
      exact Nat.lt_irrefl _ hlonger
    · rw [hnone] at harrives
      cases harrives
  · intro hnot
    have hnone : ∀ cp h, Piece.escaped cp h ∉ pieces (codePoints s) := fun cp h hmem => hnot ⟨cp, h, hmem⟩
    rcases hvalue _ _ (stringText_rewritten (pieces (codePoints s))) with hsome | ⟨hill, -⟩
    · rw [hsome, hparsed, Option.bind_some, harrived, arrived_eq_of_not_escaped hnone, hcodePoints]
    · refine absurd ?_ hill
      intro cp hcp hs
      rw [hparsed] at hcp
      obtain ⟨p, hp, hcp⟩ := List.mem_flatMap.mp hcp
      exact Piece.not_isSurrogate (fun cp' h heq => hnone cp' h (heq ▸ hp)) hcp hs

/-- The conversions of modified UTF-8 with three bytes for each surrogate. -/
def PandaUtf.mutf8 : PandaUtf where
  convertRegionUtf16ToMUtf8 := Unicode.mutf8
  decode := decodeMutf8
  zero_not_mem := zero_not_mem_mutf8
  decode_nil := by simp [decodeMutf8]
  decode_append us rest _ := decodeMutf8_mutf8_append us rest

/-- An escape arrives behind no backslash, and behind an escaped one it does not. -/
theorem decode_transport_iff_examples :
    ((transport .mutf8 (Json.valueAt 3) [unit '{', unit '\n', unit ' '] [unit 'A', 1]
      [unit '\n', unit '}']).bind PandaUtf.mutf8.decode = some [unit 'A', 1] ↔
        ¬ BackslashBeforeNumber [unit 'A', 1]) ∧
    ((transport .mutf8 (Json.valueAt 3) [unit '{', unit '\n', unit ' '] [unit '\\', 1]
      [unit '\n', unit '}']).bind PandaUtf.mutf8.decode = some [unit '\\', 1] ↔
        ¬ BackslashBeforeNumber [unit '\\', 1]) := by
  have hvalue : Json.ReadsLiteral (Json.valueAt 3) (escapeBefore [unit '{', unit '\n', unit ' '])
      (escapeUnicode [unit '\n', unit '}']) := by
    exact @Json.readsLiteral_valueAt (escapeBefore [unit '{', unit '\n', unit ' ']) _ (by decide) (by decide)
  exact ⟨decode_transport_iff .mutf8 (by decide) hvalue _, decode_transport_iff .mutf8 (by decide) hvalue _⟩

/-- A backslash and U+0001 arrive as two backslashes and U+0001. -/
theorem transport_backslash_control :
    (transport .mutf8 (Json.valueAt 3) [unit '{', unit '\n', unit ' '] [unit '\\', 1]
      [unit '\n', unit '}']).bind PandaUtf.mutf8.decode = some [unit '\\', unit '\\', 1] := by
  decide +kernel

end ArkTs2abc.Ts2panda
