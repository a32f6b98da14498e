import ArkTs2abc.Es2panda.Lexer.ScanString
import ArkTs2abc.Unicode.Text

/-!
# The iterator on a text

What `Peek`, `PeekCp`, `SkipCp` and a step of one byte do where the iterator stands
before a character of a text. Only ASCII characters are told by their first byte.
-/

namespace ArkTs2abc.Es2panda.Lexer

open Unicode

theorem peek_utf8Text_ascii {c : Char} (h : c.toNat < 0x80) (cs : List Char) :
    peek (utf8Text (c :: cs)) = c.toNat := by
  have hbyte := byte_toNat h
  rw [utf8Text_cons_ascii h, peek_cons (by omega), hbyte]

theorem tail_utf8Text_ascii {c : Char} (h : c.toNat < 0x80) (cs : List Char) :
    (utf8Text (c :: cs)).tail = utf8Text cs := by
  rw [utf8Text_cons_ascii h, List.tail_cons]

section

variable {c : Char} (h : 0x80 ≤ c.toNat) (cs : List Char)
include h cs

theorem le_peek_utf8Text :
    0xFFFFFF80 ≤ peek (utf8Text (c :: cs)) ∧ peek (utf8Text (c :: cs)) < INVALID_CP := by
  rw [utf8Text_cons]
  exact le_peek_utf8 h (char_lt c) (utf8Text cs)

theorem le_peek_tail_utf8Text :
    0xFFFFFF80 ≤ peek (utf8Text (c :: cs)).tail := by
  have hmem (b : UInt8) (hb : b ∈ utf8 c.toNat) := le_of_mem_utf8 h (char_lt c) hb
  have hlength : 2 ≤ (utf8 c.toNat).length := by
    unfold utf8
    split_ifs <;> first | omega | simp
  rw [utf8Text_cons]
  rcases hbytes : utf8 c.toNat with _ | ⟨a, _ | ⟨b, bytes⟩⟩
  · simp [hbytes] at hlength
  · simp [hbytes] at hlength
  · have hb := hmem b (by simp [hbytes])
    rw [List.cons_append, List.tail_cons, List.cons_append, peek, if_neg (by omega)]
    omega

theorem decodeCP_tail_utf8Text :
    ∃ iter, decodeCP (utf8Text (c :: cs)).tail = some (INVALID_CP, iter) := by
  have htail (n : ℕ) (iter : List UInt8) :
      decodeCP (lead 0x80 (n % 0x40) :: iter) = some (INVALID_CP, iter) := by
    have hb : (lead 0x80 (n % 0x40)).toNat = 0x80 + n % 0x40 := toNat_lead (by omega)
    have htwo := marker_two (0x80 + n % 0x40) (by omega)
    have hthree := marker_three (0x80 + n % 0x40) (by omega)
    have hfour := marker_four (0x80 + n % 0x40) (by omega)
    unfold decodeCP
    simp only [hb, htwo, hthree, hfour]
    rw [if_neg (by omega), if_neg (by omega), if_neg (by omega), if_neg (by omega)]
  rw [utf8Text_cons, utf8, if_neg (by omega)]
  split_ifs
  all_goals exact ⟨_, htail _ _⟩

end

theorem peek_utf8Text_eq_iff {d : Char} (hd : d.toNat < 0x80) (cs : List Char) :
    peek (utf8Text cs) = d.toNat ↔ cs.head? = some d := by
  rcases cs with _ | ⟨c, cs⟩
  · have hinvalid : peek (utf8Text []) = 2 ^ 32 - 1 := rfl
    simp only [hinvalid, List.head?_nil, reduceCtorEq, iff_false]
    omega
  · rw [List.head?_cons, Option.some.injEq]
    rcases Nat.lt_or_ge c.toNat 0x80 with hascii | hge
    · rw [peek_utf8Text_ascii hascii, Char.toNat_inj]
    · have hle := (le_peek_utf8Text hge cs).1
      have hne : c ≠ d := by
        rintro rfl
        omega
      simp only [hne, iff_false]
      omega

theorem head?_utf8Text_eq_iff {d : Char} (hd : d.toNat < 0x80) (cs : List Char) :
    (utf8Text cs).head? = some (byte d) ↔ cs.head? = some d := by
  constructor
  · intro h
    obtain ⟨bytes, hbytes⟩ := List.head?_eq_some_iff.mp h
    rw [← peek_utf8Text_eq_iff hd, hbytes, peek_cons (by rwa [byte_toNat hd]), byte_toNat hd]
  · intro h
    obtain ⟨ds, rfl⟩ := List.head?_eq_some_iff.mp h
    rw [utf8Text_cons_ascii hd, List.head?_cons]

theorem decodeCP_utf8Text_cons (c : Char) (cs : List Char) :
    decodeCP (utf8Text (c :: cs)) = some (c.toNat, utf8Text cs) := by
  rw [utf8Text_cons]
  exact decodeCP_utf8_append (char_lt c) (utf8Text cs)

theorem utf8Text_eq_nil_iff {cs : List Char} : utf8Text cs = [] ↔ cs = [] := by
  rcases cs with _ | ⟨c, cs⟩
  · simp
  · simp [utf8Text_cons, utf8_ne_nil]

theorem utf8Text_eq_append {cs : List Char} {c : Char} {rest : List UInt8}
    (h : utf8Text cs = utf8 c.toNat ++ rest) : ∃ ds, cs = c :: ds ∧ utf8Text ds = rest := by
  rcases cs with _ | ⟨d, ds⟩
  · exact absurd (List.append_eq_nil_iff.mp h.symm).1 (utf8_ne_nil c.toNat)
  · have hd := decodeCP_utf8Text_cons d ds
    rw [h, decodeCP_utf8_append (char_lt c)] at hd
    obtain ⟨hcode, hrest⟩ := Prod.mk.inj (Option.some.inj hd)
    obtain rfl := Char.toNat_inj.mp hcode
    exact ⟨ds, rfl, hrest.symm⟩

theorem utf8Text_eq_cons {cs : List Char} {c : Char} (hc : c.toNat < 0x80) {rest : List UInt8}
    (h : utf8Text cs = byte c :: rest) : ∃ ds, cs = c :: ds ∧ utf8Text ds = rest := by
  refine utf8Text_eq_append ?_
  rw [h, utf8_ascii hc]
  rfl

theorem flatMap_utf8_inj {cps cps' : List ℕ} (h : ∀ cp ∈ cps, cp < 0x110000)
    (h' : ∀ cp ∈ cps', cp < 0x110000) (heq : cps.flatMap utf8 = cps'.flatMap utf8) : cps = cps' := by
  induction cps generalizing cps' with
  | nil =>
    cases cps' with
    | nil => rfl
    | cons cp' cps' =>
      exact absurd (List.append_eq_nil_iff.mp heq.symm).1 (utf8_ne_nil cp')
  | cons cp cps ih =>
    cases cps' with
    | nil => exact absurd (List.append_eq_nil_iff.mp heq).1 (utf8_ne_nil cp)
    | cons cp' cps' =>
      obtain ⟨hcp, hcps⟩ := List.forall_mem_cons.mp h
      obtain ⟨hcp', hcps'⟩ := List.forall_mem_cons.mp h'
      have hdecode := decodeCP_utf8_append hcp (cps.flatMap utf8)
      rw [List.flatMap_cons, List.flatMap_cons] at heq
      rw [heq, decodeCP_utf8_append hcp'] at hdecode
      obtain ⟨rfl, hrest⟩ := Prod.mk.inj (Option.some.inj hdecode)
      rw [ih hcps hcps' hrest.symm]

theorem length_le_utf8Text (cs : List Char) : cs.length ≤ (utf8Text cs).length := by
  induction cs with
  | nil => simp
  | cons c cs ih =>
    have hpos := List.length_pos_iff.mpr (utf8_ne_nil c.toNat)
    rw [utf8Text_cons, List.length_append, List.length_cons]
    omega

end ArkTs2abc.Es2panda.Lexer
