import ArkTs2abc.Unicode.Utf

/-!
# Texts

A text is a list of characters; its bytes are UTF-8 and its code units UTF-16.

## Main definitions

* `utf8Text`, `utf16Text` — the bytes and the code units of a text.

## Main results

* `utf8Text_injective`, `utf16Text_injective` — both tell texts apart.
-/

namespace Unicode

/-- The bytes of a text. -/
def utf8Text (cs : List Char) : List UInt8 := cs.flatMap String.utf8EncodeChar

/-- The code units of a text. -/
def utf16Text (cs : List Char) : List UInt16 := cs.flatMap fun c => units c.toNat

@[simp] theorem utf8Text_nil : utf8Text [] = [] := rfl

theorem utf8Text_cons (c : Char) (cs : List Char) :
    utf8Text (c :: cs) = utf8 c.toNat ++ utf8Text cs := by
  rw [utf8Text, List.flatMap_cons, utf8EncodeChar_eq_utf8]
  rfl

@[simp] theorem utf8Text_append (cs ds : List Char) :
    utf8Text (cs ++ ds) = utf8Text cs ++ utf8Text ds :=
  List.flatMap_append

theorem utf8Text_cons_ascii {c : Char} (h : c.toNat < 0x80) (cs : List Char) :
    utf8Text (c :: cs) = byte c :: utf8Text cs := by
  rw [utf8Text_cons, utf8_ascii h]
  rfl

@[simp] theorem utf16Text_cons (c : Char) (cs : List Char) :
    utf16Text (c :: cs) = units c.toNat ++ utf16Text cs :=
  rfl

theorem toNat_char_lt (c : Char) : c.toNat < 0x110000 ∧ ¬ IsSurrogate c.toNat := by
  have h := c.valid
  simp only [UInt32.isValidChar, Nat.isValidChar] at h
  unfold IsSurrogate
  show c.val.toNat < _ ∧ ¬ (_ ≤ c.val.toNat ∧ c.val.toNat < _)
  omega

theorem decodeUtf8_utf8Text (cs : List Char) : decodeUtf8 (utf8Text cs) = some (cs.map Char.toNat) := by
  induction cs with
  | nil => rfl
  | cons c cs ih =>
    obtain ⟨hlt, hsurrogate⟩ := toNat_char_lt c
    rw [utf8Text_cons, decodeUtf8_utf8_append hlt, if_neg hsurrogate, ih]
    rfl

theorem codePoints_utf16Text (cs : List Char) : codePoints (utf16Text cs) = cs.map Char.toNat := by
  induction cs with
  | nil => rfl
  | cons c cs ih =>
    obtain ⟨hlt, hsurrogate⟩ := toNat_char_lt c
    rw [utf16Text_cons, codePoints_units_append hlt hsurrogate, ih]
    rfl

theorem toNat_char_injective : Function.Injective Char.toNat := fun _ _ h => Char.toNat_inj.mp h

theorem utf8Text_injective : Function.Injective utf8Text := by
  intro cs ds h
  have h' := congrArg decodeUtf8 h
  rw [decodeUtf8_utf8Text, decodeUtf8_utf8Text] at h'
  exact toNat_char_injective.list_map (Option.some.inj h')

theorem utf16Text_injective : Function.Injective utf16Text := by
  intro cs ds h
  have h' := congrArg codePoints h
  rw [codePoints_utf16Text, codePoints_utf16Text] at h'
  exact toNat_char_injective.list_map h'

end Unicode
