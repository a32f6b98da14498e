import ArkTs2abc.Unicode.Utf

/-!
# Strings of es2panda

A `StringView` holds bytes. They are UTF-8, but an escaped surrogate is in them as
three bytes of its own. `Mutf8` decodes them code point by code point, and writes
each one as modified UTF-8.

## Main definitions

* `utf8Encode`, `mutf8Encode` — the two encoders, for one code point.
* `decodeCP` — the decoder of the iterator.
* `StringView.mutf8` — `StringView::Mutf8`.

## Main results

* `decodeCP_utf8_append` — the decoder reads what the encoder wrote.
* `StringView.mutf8_flatMap` — the re-encoded bytes are those of the code units.
-/

namespace ArkTs2abc.Es2panda

open Unicode

/-- `std::numeric_limits<char32_t>::max()`. -/
def INVALID_CP : ℕ := 2 ^ 32 - 1

/-- `Utf8Encode`: what is pushed back. -/
def utf8Encode (cu : ℕ) : List UInt8 :=
  if cu < 0x80 then [UInt8.ofNat cu]
  else if cu < 0x800 then
    [UInt8.ofNat ((cu >>> 6 &&& 0x1F) ||| 0xC0), UInt8.ofNat ((cu &&& 0x3F) ||| 0x80)]
  else if cu < 0x10000 then
    [UInt8.ofNat ((cu >>> 12 &&& 0x0F) ||| 0xE0), UInt8.ofNat ((cu >>> 6 &&& 0x3F) ||| 0x80),
      UInt8.ofNat ((cu &&& 0x3F) ||| 0x80)]
  else
    [UInt8.ofNat ((cu >>> 18 &&& 0x07) ||| 0xF0), UInt8.ofNat ((cu >>> 12 &&& 0x3F) ||| 0x80),
      UInt8.ofNat ((cu >>> 6 &&& 0x3F) ||| 0x80), UInt8.ofNat ((cu &&& 0x3F) ||| 0x80)]

/-- `EncodeSurrogate`. -/
def encodeSurrogate (cp : ℕ) : ℕ × ℕ :=
  ((cp - 0x10000) >>> 10 ||| 0xD800, (cp &&& 0x3FF) ||| 0xDC00)

/-- The branches of `Mutf8Encode` for a single code unit. -/
def mutf8EncodeUnit (cu : ℕ) : List UInt8 :=
  if cu = 0 then [0xC0, 0x80]
  else if cu < 0x80 then [UInt8.ofNat cu]
  else if cu < 0x800 then
    [UInt8.ofNat (cu >>> 6 ||| 0xC0), UInt8.ofNat ((cu &&& 0x3F) ||| 0x80)]
  else
    [UInt8.ofNat (cu >>> 12 ||| 0xE0), UInt8.ofNat ((cu >>> 6 &&& 0x3F) ||| 0x80),
      UInt8.ofNat ((cu &&& 0x3F) ||| 0x80)]

/-- `Mutf8Encode`, down to a depth of recursion. The surrogates of a code point are code units; those
of `INVALID_CP` are code units in turn. So the recursion is never deeper than three. -/
def mutf8Encode : ℕ → ℕ → List UInt8
  | 0, _ => []
  | depth + 1, cu =>
    if cu < 0x10000 then mutf8EncodeUnit cu
    else mutf8Encode depth (encodeSurrogate cu).1 ++ mutf8Encode depth (encodeSurrogate cu).2

/-- `DecodeCP`, and where it leaves the iterator. It is `none` where the code would read behind the
end of the view. -/
def decodeCP : List UInt8 → Option (ℕ × List UInt8)
  | [] => some (INVALID_CP, [])
  | b :: iter =>
    let cu0 := b.toNat
    if cu0 < 0x80 then some (cu0, iter)
    else if cu0 &&& 0xE0 = 0xC0 then
      match iter with
      | cu1 :: iter => some ((cu0 &&& 0x1F) <<< 6 ||| (cu1.toNat &&& 0x3F), iter)
      | _ => none
    else if cu0 &&& 0xF0 = 0xE0 then
      match iter with
      | cu1 :: cu2 :: iter =>
        some ((cu0 &&& 0x0F) <<< 12 ||| (cu1.toNat &&& 0x3F) <<< 6 ||| (cu2.toNat &&& 0x3F), iter)
      | _ => none
    else if cu0 &&& 0xF8 = 0xF0 ∧ cu0 ≤ 0xF4 then
      match iter with
      | cu1 :: cu2 :: cu3 :: iter =>
        some ((cu0 &&& 0x07) <<< 18 ||| (cu1.toNat &&& 0x3F) <<< 12 ||| (cu2.toNat &&& 0x3F) <<< 6 |||
          (cu3.toNat &&& 0x3F), iter)
      | _ => none
    else some (INVALID_CP, iter)

namespace StringView

/-- The loop of `Mutf8`, for at most `n` code points. -/
def mutf8Loop : ℕ → List UInt8 → Option (List UInt8)
  | _, [] => some []
  | 0, _ => none
  | n + 1, iter => do
    let (cp, iter) ← decodeCP iter
    let rest ← mutf8Loop n iter
    some (mutf8Encode 3 cp ++ rest)

/-- `StringView::Mutf8`. -/
def mutf8 (sv : List UInt8) : Option (List UInt8) := mutf8Loop sv.length sv

end StringView

/-! ## Shifts and masks -/

theorem and_mask (n k : ℕ) : n &&& (2 ^ k - 1) = n % 2 ^ k := Nat.and_two_pow_sub_one_eq_mod n k

theorem or_marker {n i m : ℕ} (h : n < 2 ^ i) : n ||| 2 ^ i * m = 2 ^ i * m + n := by
  rw [Nat.or_comm, Nat.two_pow_add_eq_or_of_lt h]

theorem lead_eq {n i m : ℕ} (h : n < 2 ^ i) : UInt8.ofNat (n ||| 2 ^ i * m) = lead (2 ^ i * m) n := by
  rw [or_marker h, lead]

theorem cont_eq (n : ℕ) : UInt8.ofNat ((n &&& 0x3F) ||| 0x80) = lead 0x80 (n % 0x40) := by
  have hmask : n &&& 0x3F = n % 0x40 := and_mask n 6
  rw [hmask]
  exact @lead_eq (n % 0x40) 6 2 (Nat.mod_lt _ (by decide))

theorem utf8Encode_eq_utf8 {cu : ℕ} (h : cu < 0x110000) : utf8Encode cu = utf8 cu := by
  unfold utf8Encode utf8
  simp only [cont_eq, Nat.shiftRight_eq_div_pow]
  split_ifs with h₁ h₂ h₃
  · rw [lead, Nat.zero_add]
  · have hmask : cu / 2 ^ 6 &&& 0x1F = cu / 2 ^ 6 := by
      rw [show (0x1F : ℕ) = 2 ^ 5 - 1 from rfl, and_mask, Nat.mod_eq_of_lt (by omega)]
    rw [hmask]
    exact congrArg (· :: _) (@lead_eq (cu / 2 ^ 6) 6 3 (by omega))
  · have hmask : cu / 2 ^ 12 &&& 0x0F = cu / 2 ^ 12 := by
      rw [show (0x0F : ℕ) = 2 ^ 4 - 1 from rfl, and_mask, Nat.mod_eq_of_lt (by omega)]
    rw [hmask]
    exact congrArg (· :: _) (@lead_eq (cu / 2 ^ 12) 5 7 (by omega))
  · have hmask : cu / 2 ^ 18 &&& 0x07 = cu / 2 ^ 18 := by
      rw [show (0x07 : ℕ) = 2 ^ 3 - 1 from rfl, and_mask, Nat.mod_eq_of_lt (by omega)]
    rw [hmask]
    exact congrArg (· :: _) (@lead_eq (cu / 2 ^ 18) 4 15 (by omega))

theorem mutf8EncodeUnit_eq {cu : ℕ} (h : cu < 0x10000) : mutf8EncodeUnit cu = mutf8Unit cu := by
  unfold mutf8EncodeUnit mutf8Unit
  simp only [cont_eq, Nat.shiftRight_eq_div_pow]
  by_cases hzero : cu = 0
  · subst hzero
    decide
  · simp only [ne_eq, hzero, not_false_eq_true, true_and, if_false]
    split_ifs with h₁ h₂
    · rw [lead, Nat.zero_add]
    · exact congrArg (· :: _) (@lead_eq (cu / 2 ^ 6) 6 3 (by omega))
    · exact congrArg (· :: _) (@lead_eq (cu / 2 ^ 12) 5 7 (by omega))

theorem mutf8Encode_eq {cu : ℕ} (h : cu < 0x110000) : mutf8Encode 3 cu = Unicode.mutf8 (units cu) := by
  unfold mutf8Encode units
  split_ifs with hsmall
  · have hunit : (UInt16.ofNat cu).toNat = cu := by
      rw [UInt16.toNat_ofNat', Nat.mod_eq_of_lt hsmall]
    rw [mutf8EncodeUnit_eq hsmall, Unicode.mutf8, List.flatMap_singleton, hunit]
  · have hhigh : (encodeSurrogate cu).1 = 0xD800 + (cu - 0x10000) / 0x400 := by
      unfold encodeSurrogate
      rw [Nat.shiftRight_eq_div_pow]
      exact @or_marker ((cu - 0x10000) / 2 ^ 10) 11 27 (by omega)
    have hlow : (encodeSurrogate cu).2 = 0xDC00 + cu % 0x400 := by
      unfold encodeSurrogate
      have hmask : cu &&& 0x3FF = cu % 0x400 := and_mask cu 10
      rw [hmask]
      exact @or_marker (cu % 0x400) 10 55 (Nat.mod_lt _ (by decide))
    have hunit {n : ℕ} (hn : n < 0x10000) :
        mutf8Encode 2 n = mutf8Unit (UInt16.ofNat n).toNat := by
      rw [mutf8Encode, if_pos hn, mutf8EncodeUnit_eq hn, UInt16.toNat_ofNat', Nat.mod_eq_of_lt hn]
    rw [hhigh, hlow, hunit (by omega), hunit (by omega)]
    simp [Unicode.mutf8]

/-! ## Decoding -/

theorem marker_two : ∀ n < 0x100, n &&& 0xE0 = n / 0x20 * 0x20 := by decide +kernel

theorem marker_three : ∀ n < 0x100, n &&& 0xF0 = n / 0x10 * 0x10 := by decide +kernel

theorem marker_four : ∀ n < 0x100, n &&& 0xF8 = n / 0x08 * 0x08 := by decide +kernel

theorem shift_or (n i m : ℕ) (h : n < 2 ^ i) : m <<< i ||| n = m * 2 ^ i + n := by
  rw [Nat.shiftLeft_eq, Nat.mul_comm, Nat.two_pow_add_eq_or_of_lt h]

theorem decodeCP_utf8_append {cp : ℕ} (h : cp < 0x110000) (rest : List UInt8) :
    decodeCP (utf8 cp ++ rest) = some (cp, rest) := by
  have htail {n : ℕ} (hn : n < 0x40) : (lead 0x80 n).toNat &&& 0x3F = n := by
    have hmask : (lead 0x80 n).toNat &&& 0x3F = (lead 0x80 n).toNat % 0x40 := and_mask _ 6
    rw [hmask, toNat_lead (by omega)]
    omega
  have hcont (n : ℕ) : n % 0x40 < 0x40 := Nat.mod_lt _ (by decide)
  unfold utf8
  split_ifs with h₁ h₂ h₃
  · have ha : (lead 0 cp).toNat = cp := by
      rw [toNat_lead (by omega), Nat.zero_add]
    unfold decodeCP
    simp only [List.singleton_append, ha, h₁, if_true]
  · have ha : (lead 0xC0 (cp / 0x40)).toNat = 0xC0 + cp / 0x40 := toNat_lead (by omega)
    have hmask : 0xC0 + cp / 0x40 &&& 0x1F = (0xC0 + cp / 0x40) % 0x20 := and_mask _ 5
    have htwo := marker_two (0xC0 + cp / 0x40) (by omega)
    unfold decodeCP
    simp only [List.cons_append, List.nil_append, ha, htwo, hmask, htail (hcont _)]
    rw [if_neg (by omega), if_pos (by omega), shift_or _ _ _ (hcont _)]
    exact congrArg (fun cp => some (cp, rest)) (by omega)
  · have ha : (lead 0xE0 (cp / 0x1000)).toNat = 0xE0 + cp / 0x1000 := toNat_lead (by omega)
    have hmask : 0xE0 + cp / 0x1000 &&& 0x0F = (0xE0 + cp / 0x1000) % 0x10 := and_mask _ 4
    have htwo := marker_two (0xE0 + cp / 0x1000) (by omega)
    have hthree := marker_three (0xE0 + cp / 0x1000) (by omega)
    unfold decodeCP
    simp only [List.cons_append, List.nil_append, ha, htwo, hthree, hmask, htail (hcont _)]
    rw [if_neg (by omega), if_neg (by omega), if_pos (by omega), Nat.or_assoc,
      shift_or (cp % 0x40) 6 _ (hcont _), shift_or _ 12 _ (by omega)]
    exact congrArg (fun cp => some (cp, rest)) (by omega)
  · have ha : (lead 0xF0 (cp / 0x40000)).toNat = 0xF0 + cp / 0x40000 := toNat_lead (by omega)
    have hmask : 0xF0 + cp / 0x40000 &&& 0x07 = (0xF0 + cp / 0x40000) % 0x08 := and_mask _ 3
    have htwo := marker_two (0xF0 + cp / 0x40000) (by omega)
    have hthree := marker_three (0xF0 + cp / 0x40000) (by omega)
    have hfour := marker_four (0xF0 + cp / 0x40000) (by omega)
    unfold decodeCP
    simp only [List.cons_append, List.nil_append, ha, htwo, hthree, hfour, hmask, htail (hcont _)]
    rw [if_neg (by omega), if_neg (by omega), if_neg (by omega), if_pos (by omega), Nat.or_assoc,
      Nat.or_assoc, shift_or (cp % 0x40) 6 _ (hcont _), shift_or _ 12 _ (by omega),
      shift_or _ 18 _ (by omega)]
    exact congrArg (fun cp => some (cp, rest)) (by omega)

namespace StringView

theorem mutf8Loop_flatMap {cps : List ℕ} (h : ∀ cp ∈ cps, cp < 0x110000) {n : ℕ}
    (hn : (cps.flatMap utf8).length ≤ n) :
    mutf8Loop n (cps.flatMap utf8) = some (Unicode.mutf8 (cps.flatMap units)) := by
  induction cps generalizing n with
  | nil => cases n <;> rfl
  | cons cp cps ih =>
    obtain ⟨hcp, hcps⟩ := List.forall_mem_cons.mp h
    rw [List.flatMap_cons, List.length_append] at hn
    have hpos := List.length_pos_iff.mpr (utf8_ne_nil cp)
    obtain ⟨n, rfl⟩ : ∃ k, n = k + 1 := ⟨n - 1, by omega⟩
    rw [List.flatMap_cons]
    have hdecode := decodeCP_utf8_append hcp (cps.flatMap utf8)
    cases hbytes : utf8 cp ++ cps.flatMap utf8 with
    | nil => exact absurd (List.append_eq_nil_iff.mp hbytes).1 (utf8_ne_nil cp)
    | cons b bytes =>
      rw [hbytes] at hdecode
      have hrest := @ih hcps n (by omega)
      rw [mutf8Loop, hdecode]
      · simp [hrest, mutf8Encode_eq hcp, Unicode.mutf8]
      · exact List.cons_ne_nil _ _

theorem mutf8_flatMap {cps : List ℕ} (h : ∀ cp ∈ cps, cp < 0x110000) :
    mutf8 (cps.flatMap utf8) = some (Unicode.mutf8 (cps.flatMap units)) :=
  mutf8Loop_flatMap h (Nat.le_refl _)

end StringView

end ArkTs2abc.Es2panda
