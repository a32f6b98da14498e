import Mathlib.Data.List.Basic
import Mathlib.Tactic.SplitIfs
import Mathlib.Tactic.IntervalCases

/-!
# Encodings of text

A text is a sequence of UTF-16 code units, surrogates in any order. Its code
points are what its units stand for: a high surrogate and the low surrogate
behind it are one code point, any other surrogate is one by itself.

## Main definitions

* `units`, `codePoints` — from code points to code units and back.
* `utf8` — the bytes of a code point, surrogates included.
* `toUtf8` — the bytes of a text; a surrogate by itself is lost.
* `mutf8`, `decodeMutf8` — modified UTF-8: up to three bytes for each code unit, and none of them zero.
* `fromUtf8` — the text of strict UTF-8, without surrogates by themselves.

## Main results

* `flatMap_units_codePoints` — the code points of a text are all there is to it.
* `decodeMutf8_mutf8` — modified UTF-8 is read back.
-/

namespace Unicode

/-! ## Properties of the characters of a text -/

section

variable (P : Char → Prop) [DecidablePred P]

/-- It is decided on the text, not on all characters. -/
instance (priority := high) decidableForallMemList (text : List Char) : Decidable (∀ c ∈ text, P c) :=
  List.decidableBAll P text

instance (priority := high) decidableExistsMemList (text : List Char) : Decidable (∃ c ∈ text, P c) :=
  List.decidableBEx P text

instance (priority := high) decidableForallMemOption (next : Option Char) :
    Decidable (∀ c ∈ next, P c) := next.decidableForallMem

instance (priority := high) decidableExistsMemOption (next : Option Char) :
    Decidable (∃ c ∈ next, P c) := next.decidableExistsMem

end

/-! ## Surrogates -/

def IsHighSurrogate (u : ℕ) : Prop := 0xD800 ≤ u ∧ u < 0xDC00

def IsLowSurrogate (u : ℕ) : Prop := 0xDC00 ≤ u ∧ u < 0xE000

def IsSurrogate (u : ℕ) : Prop := 0xD800 ≤ u ∧ u < 0xE000

instance (u : ℕ) : Decidable (IsHighSurrogate u) := inferInstanceAs (Decidable (_ ∧ _))

instance (u : ℕ) : Decidable (IsLowSurrogate u) := inferInstanceAs (Decidable (_ ∧ _))

instance (u : ℕ) : Decidable (IsSurrogate u) := inferInstanceAs (Decidable (_ ∧ _))

/-! ## Code units and code points -/

/-- The code units of a code point. -/
def units (cp : ℕ) : List UInt16 :=
  if cp < 0x10000 then [UInt16.ofNat cp]
  else [UInt16.ofNat (0xD800 + (cp - 0x10000) / 0x400), UInt16.ofNat (0xDC00 + cp % 0x400)]

/-- The code point of a surrogate pair. -/
def ofPair (high low : ℕ) : ℕ := 0x10000 + (high - 0xD800) * 0x400 + (low - 0xDC00)

def codePoints : List UInt16 → List ℕ
  | [] => []
  | [u] => [u.toNat]
  | u :: v :: us =>
    if IsHighSurrogate u.toNat ∧ IsLowSurrogate v.toNat then ofPair u.toNat v.toNat :: codePoints us
    else u.toNat :: codePoints (v :: us)

variable {v : UInt16} {cp : ℕ} {us : List UInt16}

theorem units_ofPair {u : UInt16} (hu : IsHighSurrogate u.toNat) (hv : IsLowSurrogate v.toNat) :
    units (ofPair u.toNat v.toNat) = [u, v] := by
  obtain ⟨hu₁, hu₂⟩ := hu
  obtain ⟨hv₁, hv₂⟩ := hv
  have hbig : ¬ ofPair u.toNat v.toNat < 0x10000 := by
    unfold ofPair
    omega
  have hhigh : 0xD800 + (ofPair u.toNat v.toNat - 0x10000) / 0x400 = u.toNat := by
    unfold ofPair
    omega
  have hlow : 0xDC00 + ofPair u.toNat v.toNat % 0x400 = v.toNat := by
    unfold ofPair
    omega
  rw [units, if_neg hbig, hhigh, hlow, UInt16.ofNat_toNat, UInt16.ofNat_toNat]

theorem units_ne_nil (cp : ℕ) : units cp ≠ [] := by
  unfold units
  split_ifs <;> exact List.cons_ne_nil _ _

theorem units_toNat (u : UInt16) : units u.toNat = [u] := by
  rw [units, if_pos u.toNat_lt, UInt16.ofNat_toNat]

attribute [local simp] codePoints in
theorem flatMap_units_codePoints (us : List UInt16) : (codePoints us).flatMap units = us := by
  fun_induction codePoints us with
  | case1 => rfl
  | case2 u => simp [units_toNat]
  | case3 u v us h ih => simp [units_ofPair h.1 h.2, ih]
  | case4 u v us h ih => simp [units_toNat, ih]

theorem ofPair_lt {high low : ℕ} (hhigh : IsHighSurrogate high) (hlow : IsLowSurrogate low) :
    0x10000 ≤ ofPair high low ∧ ofPair high low < 0x110000 := by
  obtain ⟨h₁, h₂⟩ := hhigh
  obtain ⟨h₃, h₄⟩ := hlow
  unfold ofPair
  omega

theorem codePoints_lt (h : cp ∈ codePoints us) : cp < 0x110000 := by
  have hunit (u : UInt16) : u.toNat < 0x110000 := by
    have := u.toNat_lt
    omega
  fun_induction codePoints us with
  | case1 => cases h
  | case2 u =>
    obtain rfl := List.mem_singleton.mp h
    exact hunit u
  | case3 u v us hpair ih =>
    rcases List.mem_cons.mp h with heq | h
    · rw [heq]
      exact (ofPair_lt hpair.1 hpair.2).2
    · exact ih h
  | case4 u v us hpair ih =>
    rcases List.mem_cons.mp h with rfl | h
    · exact hunit u
    · exact ih h

theorem codePoints_cons_of_not_pair {u : UInt16}
    (h : ∀ v ∈ us.head?, ¬ (IsHighSurrogate u.toNat ∧ IsLowSurrogate v.toNat)) :
    codePoints (u :: us) = u.toNat :: codePoints us := by
  cases us with
  | nil => rfl
  | cons v us => rw [codePoints, if_neg (h v rfl)]

theorem codePoints_cons {u : UInt16} (h : ¬ IsHighSurrogate u.toNat) (us : List UInt16) :
    codePoints (u :: us) = u.toNat :: codePoints us :=
  codePoints_cons_of_not_pair fun _ _ hpair => h hpair.1

theorem codePoints_append (h : ¬ IsLowSurrogate v.toNat) (us vs : List UInt16) :
    codePoints (us ++ v :: vs) = codePoints us ++ codePoints (v :: vs) := by
  fun_induction codePoints us with
  | case1 => rfl
  | case2 u =>
    show codePoints (u :: v :: vs) = _
    rw [codePoints, if_neg fun hpair => h hpair.2]
    rfl
  | case3 u w us hpair ih =>
    show codePoints (u :: w :: (us ++ v :: vs)) = _
    rw [codePoints, if_pos hpair, ih]
    rfl
  | case4 u w us hpair ih =>
    show codePoints (u :: w :: (us ++ v :: vs)) = _
    rw [codePoints, if_neg hpair]
    exact congrArg _ ih

/-! ## Characters -/

/-- The code unit of a character of the basic plane. -/
def unit (c : Char) : UInt16 := UInt16.ofNat c.toNat

/-- The byte of an ASCII character. -/
def byte (c : Char) : UInt8 := UInt8.ofNat c.toNat

/-! ## UTF-8 -/

/-- The byte that starts, or goes on with, a sequence. -/
def lead (marker n : ℕ) : UInt8 := UInt8.ofNat (marker + n)

def utf8 (cp : ℕ) : List UInt8 :=
  if cp < 0x80 then [lead 0 cp]
  else if cp < 0x800 then [lead 0xC0 (cp / 0x40), lead 0x80 (cp % 0x40)]
  else if cp < 0x10000 then
    [lead 0xE0 (cp / 0x1000), lead 0x80 (cp / 0x40 % 0x40), lead 0x80 (cp % 0x40)]
  else [lead 0xF0 (cp / 0x40000), lead 0x80 (cp / 0x1000 % 0x40), lead 0x80 (cp / 0x40 % 0x40),
    lead 0x80 (cp % 0x40)]

theorem toNat_lead {marker n : ℕ} (h : marker + n < 0x100) : (lead marker n).toNat = marker + n := by
  rw [lead, UInt8.toNat_ofNat', Nat.mod_eq_of_lt h]

theorem utf8_ascii (h : cp < 0x80) : utf8 cp = [UInt8.ofNat cp] := by
  rw [utf8, if_pos h, lead, Nat.zero_add]

theorem utf8_ne_nil (cp : ℕ) : utf8 cp ≠ [] := by
  unfold utf8
  split_ifs <;> exact List.cons_ne_nil _ _

/-- A text as UTF-8; a surrogate by itself has none and is replaced. -/
def toUtf8 (us : List UInt16) : List UInt8 :=
  (codePoints us).flatMap fun cp => utf8 (if IsSurrogate cp then 0xFFFD else cp)

theorem le_of_mem_utf8 (hge : 0x80 ≤ cp) (hlt : cp < 0x110000) {b : UInt8} (hb : b ∈ utf8 cp) :
    0x80 ≤ b.toNat := by
  unfold utf8 at hb
  split_ifs at hb
  · omega
  all_goals
    simp only [List.mem_cons, List.not_mem_nil, or_false] at hb
    rcases hb with rfl | rfl | rfl | rfl
    all_goals
      rw [toNat_lead (by omega)]
      omega

theorem toUtf8_append (h : ¬ IsLowSurrogate v.toNat) (us vs : List UInt16) :
    toUtf8 (us ++ v :: vs) = toUtf8 us ++ toUtf8 (v :: vs) := by
  rw [toUtf8, codePoints_append h, List.flatMap_append]
  rfl

theorem toUtf8_cons_ascii (h : v.toNat < 0x80) (us : List UInt16) :
    toUtf8 (v :: us) = UInt8.ofNat v.toNat :: toUtf8 us := by
  have hhigh : ¬ IsHighSurrogate v.toNat := by
    unfold IsHighSurrogate
    omega
  have hsurrogate : ¬ IsSurrogate v.toNat := by
    unfold IsSurrogate
    omega
  rw [toUtf8, codePoints_cons hhigh, List.flatMap_cons, if_neg hsurrogate, utf8_ascii h]
  rfl

theorem toUtf8_concat_ascii (h : v.toNat < 0x80) (us : List UInt16) :
    toUtf8 (us ++ [v]) = toUtf8 us ++ [UInt8.ofNat v.toNat] := by
  have hlow : ¬ IsLowSurrogate v.toNat := by
    unfold IsLowSurrogate
    omega
  rw [toUtf8_append hlow, toUtf8_cons_ascii h]
  rfl

theorem utf8_of_ascii_mem (hlt : cp < 0x110000) {b : UInt8} (hb : b ∈ utf8 cp)
    (hascii : b.toNat < 0x80) : cp = b.toNat := by
  rcases Nat.lt_or_ge cp 0x80 with hcp | hcp
  · rw [utf8_ascii hcp] at hb
    obtain rfl := List.mem_singleton.mp hb
    rw [UInt8.toNat_ofNat', Nat.mod_eq_of_lt (by omega)]
  · have := le_of_mem_utf8 hcp hlt hb
    omega

theorem utf8EncodeChar_eq_utf8 (c : Char) : String.utf8EncodeChar c = utf8 c.toNat := by
  have hlt : c.val.toNat < 0x110000 := by
    have := c.valid
    simp only [UInt32.isValidChar, Nat.isValidChar] at this
    omega
  show String.utf8EncodeChar c = utf8 c.val.toNat
  simp only [String.utf8EncodeChar, utf8, lead]
  generalize c.val.toNat = v at hlt
  have h₁ : v ≤ 0x7F ↔ v < 0x80 := by omega
  have h₂ : v ≤ 0x7FF ↔ v < 0x800 := by omega
  have h₃ : v ≤ 0xFFFF ↔ v < 0x10000 := by omega
  simp only [h₁, h₂, h₃]
  split_ifs with h₁ h₂ h₃
  · rw [Nat.zero_add]
  · rw [Nat.mod_eq_of_lt (by omega : v / 64 < 0x20), Nat.add_comm, Nat.add_comm (v % 64)]
  · rw [Nat.mod_eq_of_lt (by omega : v / 4096 < 0x10), Nat.add_comm, Nat.add_comm (v / 64 % 64),
      Nat.add_comm (v % 64)]
  · rw [Nat.mod_eq_of_lt (by omega : v / 262144 < 0x08), Nat.add_comm, Nat.add_comm (v / 4096 % 64),
      Nat.add_comm (v / 64 % 64), Nat.add_comm (v % 64)]

/-! ## Modified UTF-8 -/

def mutf8Unit (u : ℕ) : List UInt8 :=
  if u ≠ 0 ∧ u < 0x80 then [lead 0 u]
  else if u < 0x800 then [lead 0xC0 (u / 0x40), lead 0x80 (u % 0x40)]
  else [lead 0xE0 (u / 0x1000), lead 0x80 (u / 0x40 % 0x40), lead 0x80 (u % 0x40)]

def mutf8 (us : List UInt16) : List UInt8 := us.flatMap fun u => mutf8Unit u.toNat

/-- Whether a byte goes on with a sequence. -/
def IsTail (b : UInt8) : Prop := 0x80 ≤ b.toNat ∧ b.toNat < 0xC0

instance (b : UInt8) : Decidable (IsTail b) := inferInstanceAs (Decidable (_ ∧ _))

def decodeMutf8 : List UInt8 → Option (List UInt16)
  | [] => some []
  | a :: bytes =>
    if a.toNat < 0x80 then (decodeMutf8 bytes).map (UInt16.ofNat a.toNat :: ·)
    else match bytes with
      | [] => none
      | b :: bytes =>
        if ¬ IsTail b then none
        else if 0xC0 ≤ a.toNat ∧ a.toNat < 0xE0 then
          (decodeMutf8 bytes).map (UInt16.ofNat (a.toNat % 0x20 * 0x40 + b.toNat % 0x40) :: ·)
        else match bytes with
          | [] => none
          | c :: bytes =>
            if ¬ IsTail c then none
            else if 0xE0 ≤ a.toNat ∧ a.toNat < 0xF0 then
              (decodeMutf8 bytes).map (UInt16.ofNat
                (a.toNat % 0x10 * 0x1000 + b.toNat % 0x40 * 0x40 + c.toNat % 0x40) :: ·)
            else none

theorem isTail_lead {n : ℕ} (h : n < 0x40) : IsTail (lead 0x80 n) := by
  unfold IsTail
  rw [toNat_lead (by omega)]
  omega

section Decode

variable {a b c : UInt8} {bytes : List UInt8}

attribute [local simp] decodeMutf8 in
theorem decodeMutf8_one (ha : a.toNat < 0x80) :
    decodeMutf8 (a :: bytes) = (decodeMutf8 bytes).map (UInt16.ofNat a.toNat :: ·) := by
  rcases bytes with _ | ⟨b, _ | ⟨c, bytes⟩⟩ <;> simp [decodeMutf8, ha]

theorem decodeMutf8_two (ha : 0xC0 ≤ a.toNat ∧ a.toNat < 0xE0) (hb : IsTail b) :
    decodeMutf8 (a :: b :: bytes) =
      (decodeMutf8 bytes).map (UInt16.ofNat (a.toNat % 0x20 * 0x40 + b.toNat % 0x40) :: ·) := by
  have hbig : ¬ a.toNat < 0x80 := by omega
  rcases bytes with _ | ⟨c, bytes⟩ <;> simp [decodeMutf8, hbig, ha, hb]

theorem decodeMutf8_three (ha : 0xE0 ≤ a.toNat ∧ a.toNat < 0xF0) (hb : IsTail b) (hc : IsTail c) :
    decodeMutf8 (a :: b :: c :: bytes) = (decodeMutf8 bytes).map
      (UInt16.ofNat (a.toNat % 0x10 * 0x1000 + b.toNat % 0x40 * 0x40 + c.toNat % 0x40) :: ·) := by
  have hbig : ¬ a.toNat < 0x80 := by omega
  have htwo : ¬ (0xC0 ≤ a.toNat ∧ a.toNat < 0xE0) := by omega
  rw [decodeMutf8.eq_def]
  simp [hbig, htwo, ha, hb, hc]

end Decode

theorem decodeMutf8_mutf8Unit_append (u : UInt16) (rest : List UInt8) :
    decodeMutf8 (mutf8Unit u.toNat ++ rest) = (decodeMutf8 rest).map (u :: ·) := by
  have hlt := u.toNat_lt
  have hu : UInt16.ofNat u.toNat = u := UInt16.ofNat_toNat
  generalize u.toNat = n at hlt hu
  subst hu
  unfold mutf8Unit
  split_ifs with h₁ h₂
  · have ha : (lead 0 n).toNat = n := by
      rw [toNat_lead (by omega), Nat.zero_add]
    rw [List.singleton_append, decodeMutf8_one (by omega), ha]
  · have ha : (lead 0xC0 (n / 0x40)).toNat = 0xC0 + n / 0x40 := toNat_lead (by omega)
    have hb : (lead 0x80 (n % 0x40)).toNat = 0x80 + n % 0x40 := toNat_lead (by omega)
    have htail : IsTail (lead 0x80 (n % 0x40)) := isTail_lead (Nat.mod_lt _ (by decide))
    have hn : (0xC0 + n / 0x40) % 0x20 * 0x40 + (0x80 + n % 0x40) % 0x40 = n := by omega
    rw [List.cons_append, List.singleton_append, decodeMutf8_two (by omega) htail, ha, hb, hn]
  · have ha : (lead 0xE0 (n / 0x1000)).toNat = 0xE0 + n / 0x1000 := toNat_lead (by omega)
    have hb : (lead 0x80 (n / 0x40 % 0x40)).toNat = 0x80 + n / 0x40 % 0x40 := toNat_lead (by omega)
    have hc : (lead 0x80 (n % 0x40)).toNat = 0x80 + n % 0x40 := toNat_lead (by omega)
    have htail : IsTail (lead 0x80 (n / 0x40 % 0x40)) := isTail_lead (Nat.mod_lt _ (by decide))
    have htail' : IsTail (lead 0x80 (n % 0x40)) := isTail_lead (Nat.mod_lt _ (by decide))
    have hn : (0xE0 + n / 0x1000) % 0x10 * 0x1000 + (0x80 + n / 0x40 % 0x40) % 0x40 * 0x40 +
        (0x80 + n % 0x40) % 0x40 = n := by omega
    rw [List.cons_append, List.cons_append, List.singleton_append,
      decodeMutf8_three (by omega) htail htail', ha, hb, hc, hn]

theorem decodeMutf8_mutf8_append (us : List UInt16) (rest : List UInt8) :
    decodeMutf8 (mutf8 us ++ rest) = (decodeMutf8 rest).map (us ++ ·) := by
  induction us with
  | nil => simp [mutf8]
  | cons u us ih =>
    have hcons : mutf8 (u :: us) = mutf8Unit u.toNat ++ mutf8 us := rfl
    rw [hcons, List.append_assoc, decodeMutf8_mutf8Unit_append, ih, Option.map_map]
    rfl

theorem decodeMutf8_mutf8 (us : List UInt16) : decodeMutf8 (mutf8 us) = some us := by
  have h := decodeMutf8_mutf8_append us []
  rw [List.append_nil] at h
  rw [h]
  simp [decodeMutf8]

theorem mutf8_injective {us' : List UInt16} (h : mutf8 us = mutf8 us') : us = us' := by
  have h' := congrArg decodeMutf8 h
  rw [decodeMutf8_mutf8, decodeMutf8_mutf8] at h'
  exact Option.some.inj h'

theorem zero_not_mem_mutf8 (us : List UInt16) : 0 ∉ mutf8 us := by
  have hlead {marker n : ℕ} (hlt : marker + n < 0x100) (hpos : 0 < marker + n) : 0 ≠ lead marker n := by
    intro h
    have h' := congrArg UInt8.toNat h
    rw [toNat_lead hlt] at h'
    exact hpos.ne h'
  intro hmem
  obtain ⟨u, -, hu⟩ := List.mem_flatMap.mp hmem
  have hlt := u.toNat_lt
  unfold mutf8Unit at hu
  split_ifs at hu
  all_goals simp only [List.mem_cons, List.not_mem_nil, or_false] at hu
  · exact hlead (by omega) (by omega) hu
  · rcases hu with h | h
    · exact hlead (by omega) (by omega) h
    · exact hlead (by omega) (by omega) h
  · rcases hu with h | h | h
    · exact hlead (by omega) (by omega) h
    · exact hlead (by omega) (by omega) h
    · exact hlead (by omega) (by omega) h


/-! ## Strict UTF-8 -/

/-- The code points of strict UTF-8: shortest forms only, and no surrogates. -/
def decodeUtf8 : List UInt8 → Option (List ℕ)
  | [] => some []
  | a :: bytes =>
    if a.toNat < 0x80 then (decodeUtf8 bytes).map (a.toNat :: ·)
    else match bytes with
      | [] => none
      | b :: bytes =>
        if ¬ IsTail b then none
        else if 0xC2 ≤ a.toNat ∧ a.toNat < 0xE0 then
          (decodeUtf8 bytes).map ((a.toNat % 0x20 * 0x40 + b.toNat % 0x40) :: ·)
        else match bytes with
          | [] => none
          | c :: bytes =>
            let cp := a.toNat % 0x10 * 0x1000 + b.toNat % 0x40 * 0x40 + c.toNat % 0x40
            if ¬ IsTail c then none
            else if 0xE0 ≤ a.toNat ∧ a.toNat < 0xF0 then
              if 0x800 ≤ cp ∧ ¬ IsSurrogate cp then (decodeUtf8 bytes).map (cp :: ·) else none
            else match bytes with
              | [] => none
              | d :: bytes =>
                let cp := a.toNat % 0x08 * 0x40000 + b.toNat % 0x40 * 0x1000 + c.toNat % 0x40 * 0x40 +
                  d.toNat % 0x40
                if IsTail d ∧ 0xF0 ≤ a.toNat ∧ a.toNat < 0xF8 ∧ 0x10000 ≤ cp ∧ cp < 0x110000 then
                  (decodeUtf8 bytes).map (cp :: ·)
                else none

section DecodeUtf8

variable {a b c d : UInt8} {bytes : List UInt8}

attribute [local simp] decodeUtf8 in
theorem decodeUtf8_one (ha : a.toNat < 0x80) :
    decodeUtf8 (a :: bytes) = (decodeUtf8 bytes).map (a.toNat :: ·) := by
  rcases bytes with _ | ⟨b, _ | ⟨c, _ | ⟨d, bytes⟩⟩⟩ <;> simp [decodeUtf8, ha]

theorem decodeUtf8_two (ha : 0xC2 ≤ a.toNat ∧ a.toNat < 0xE0) (hb : IsTail b) :
    decodeUtf8 (a :: b :: bytes) =
      (decodeUtf8 bytes).map ((a.toNat % 0x20 * 0x40 + b.toNat % 0x40) :: ·) := by
  have hbig : ¬ a.toNat < 0x80 := by omega
  rw [decodeUtf8.eq_def]
  simp [hbig, ha, hb]

theorem decodeUtf8_three {cp : ℕ} (ha : 0xE0 ≤ a.toNat ∧ a.toNat < 0xF0) (hb : IsTail b) (hc : IsTail c)
    (hcp : a.toNat % 0x10 * 0x1000 + b.toNat % 0x40 * 0x40 + c.toNat % 0x40 = cp) (hge : 0x800 ≤ cp) :
    decodeUtf8 (a :: b :: c :: bytes) =
      if IsSurrogate cp then none else (decodeUtf8 bytes).map (cp :: ·) := by
  have hbig : ¬ a.toNat < 0x80 := by omega
  have htwo : ¬ (0xC2 ≤ a.toNat ∧ a.toNat < 0xE0) := by omega
  rw [decodeUtf8.eq_def]
  by_cases hsurrogate : IsSurrogate cp <;> simp [hbig, htwo, ha, hb, hc, hcp, hge, hsurrogate]

theorem decodeUtf8_four {cp : ℕ} (ha : 0xF0 ≤ a.toNat ∧ a.toNat < 0xF8) (hb : IsTail b) (hc : IsTail c)
    (hd : IsTail d) (hcp : a.toNat % 0x08 * 0x40000 + b.toNat % 0x40 * 0x1000 + c.toNat % 0x40 * 0x40 +
      d.toNat % 0x40 = cp) (hge : 0x10000 ≤ cp) (hlt : cp < 0x110000) :
    decodeUtf8 (a :: b :: c :: d :: bytes) = (decodeUtf8 bytes).map (cp :: ·) := by
  have hbig : ¬ a.toNat < 0x80 := by omega
  have htwo : ¬ (0xC2 ≤ a.toNat ∧ a.toNat < 0xE0) := by omega
  have hthree : ¬ (0xE0 ≤ a.toNat ∧ a.toNat < 0xF0) := by omega
  rw [decodeUtf8.eq_def]
  simp [hbig, htwo, hthree, ha, hb, hc, hd, hcp, hge, hlt]

end DecodeUtf8

/-- A surrogate is not decoded, any other code point is. -/
theorem decodeUtf8_utf8_append (h : cp < 0x110000) (rest : List UInt8) :
    decodeUtf8 (utf8 cp ++ rest) =
      if IsSurrogate cp then none else (decodeUtf8 rest).map (cp :: ·) := by
  have hlead {m : ℕ} (hm : m < 0x40) : (lead 0x80 m).toNat = 0x80 + m ∧ IsTail (lead 0x80 m) :=
    ⟨toNat_lead (by omega), isTail_lead hm⟩
  rcases Nat.lt_or_ge cp 0x800 with hsmall | hge
  · rw [if_neg (by unfold IsSurrogate; omega), utf8]
    split_ifs with hone
    · have ha : (lead 0 cp).toNat = cp := by
        rw [toNat_lead (by omega), Nat.zero_add]
      rw [List.singleton_append, decodeUtf8_one (by omega), ha]
    · have ha : (lead 0xC0 (cp / 0x40)).toNat = 0xC0 + cp / 0x40 := toNat_lead (by omega)
      obtain ⟨hb, htail⟩ := @hlead (cp % 0x40) (by omega)
      have hcp : (0xC0 + cp / 0x40) % 0x20 * 0x40 + (0x80 + cp % 0x40) % 0x40 = cp := by omega
      rw [List.cons_append, List.singleton_append, decodeUtf8_two (by omega) htail, ha, hb, hcp]
  · rw [utf8, if_neg (by omega), if_neg (by omega)]
    obtain ⟨hmid, htailMid⟩ := @hlead (cp / 0x40 % 0x40) (by omega)
    obtain ⟨hlast, htailLast⟩ := @hlead (cp % 0x40) (by omega)
    split_ifs with hthree hs hs
    · have ha : (lead 0xE0 (cp / 0x1000)).toNat = 0xE0 + cp / 0x1000 := toNat_lead (by omega)
      exact (decodeUtf8_three (by omega) htailMid htailLast (by omega) hge).trans (if_pos hs)
    · have ha : (lead 0xE0 (cp / 0x1000)).toNat = 0xE0 + cp / 0x1000 := toNat_lead (by omega)
      exact (decodeUtf8_three (by omega) htailMid htailLast (by omega) hge).trans (if_neg hs)
    · unfold IsSurrogate at hs
      omega
    · have ha : (lead 0xF0 (cp / 0x40000)).toNat = 0xF0 + cp / 0x40000 := toNat_lead (by omega)
      obtain ⟨hb, htail⟩ := @hlead (cp / 0x1000 % 0x40) (by omega)
      exact decodeUtf8_four (by omega) htail htailMid htailLast (by omega) (by omega) h

/-! ## Well-formed text -/

/-- Whether there is no surrogate by itself. -/
def WellFormed (us : List UInt16) : Prop := ∀ cp ∈ codePoints us, ¬ IsSurrogate cp

instance (us : List UInt16) : Decidable (WellFormed us) :=
  inferInstanceAs (Decidable (∀ cp ∈ codePoints us, ¬ IsSurrogate cp))

/-- The text some strict UTF-8 stands for. -/
def fromUtf8 (bytes : List UInt8) : Option (List UInt16) :=
  (decodeUtf8 bytes).map fun cps => cps.flatMap units

theorem decodeUtf8_flatMap {cps : List ℕ} (h : ∀ cp ∈ cps, cp < 0x110000) :
    decodeUtf8 (cps.flatMap utf8) = if ∃ cp ∈ cps, IsSurrogate cp then none else some cps := by
  induction cps with
  | nil => rfl
  | cons cp cps ih =>
    obtain ⟨hcp, hcps⟩ := List.forall_mem_cons.mp h
    rw [List.flatMap_cons, decodeUtf8_utf8_append hcp, ih hcps]
    by_cases hs : IsSurrogate cp
    · simp [hs]
    · by_cases hrest : ∃ cp ∈ cps, IsSurrogate cp <;> simp [hs, hrest]

theorem codePoints_units_append (hlt : cp < 0x110000) (hs : ¬ IsSurrogate cp) (us : List UInt16) :
    codePoints (units cp ++ us) = cp :: codePoints us := by
  rcases Nat.lt_or_ge cp 0x10000 with h | h
  · have hcp : (UInt16.ofNat cp).toNat = cp := UInt16.toNat_ofNat_of_lt' h
    have hhigh : ¬ IsHighSurrogate (UInt16.ofNat cp).toNat := by
      rw [hcp]
      unfold IsHighSurrogate IsSurrogate at *
      omega
    rw [units, if_pos h, List.singleton_append, codePoints_cons hhigh, hcp]
  · have hhigh : (UInt16.ofNat (0xD800 + (cp - 0x10000) / 0x400)).toNat =
        0xD800 + (cp - 0x10000) / 0x400 := UInt16.toNat_ofNat_of_lt' (by rw [UInt16.size]; omega)
    have hlow : (UInt16.ofNat (0xDC00 + cp % 0x400)).toNat = 0xDC00 + cp % 0x400 :=
      UInt16.toNat_ofNat_of_lt' (by rw [UInt16.size]; omega)
    have hpair : IsHighSurrogate (0xD800 + (cp - 0x10000) / 0x400) ∧ IsLowSurrogate (0xDC00 + cp % 0x400) := by
      unfold IsHighSurrogate IsLowSurrogate
      omega
    have hcp : ofPair (0xD800 + (cp - 0x10000) / 0x400) (0xDC00 + cp % 0x400) = cp := by
      unfold ofPair
      omega
    rw [units, if_neg (by omega), List.cons_append, List.singleton_append, codePoints, hhigh, hlow,
      if_pos hpair, hcp]

theorem toUtf8_eq (h : WellFormed us) : toUtf8 us = (codePoints us).flatMap utf8 :=
  List.flatMap_congr fun cp hcp => by rw [if_neg (h cp hcp)]

theorem fromUtf8_toUtf8 (h : WellFormed us) : fromUtf8 (toUtf8 us) = some us := by
  have hnone : ¬ ∃ cp ∈ codePoints us, IsSurrogate cp := fun ⟨cp, hcp, hs⟩ => h cp hcp hs
  rw [fromUtf8, toUtf8_eq h, decodeUtf8_flatMap fun cp => codePoints_lt, if_neg hnone, Option.map_some,
    flatMap_units_codePoints]

theorem WellFormed.append {vs : List UInt16} (hv : ¬ IsLowSurrogate v.toNat) (hus : WellFormed us)
    (hvs : WellFormed (v :: vs)) : WellFormed (us ++ v :: vs) := by
  intro cp hcp
  rw [codePoints_append hv] at hcp
  exact (List.mem_append.mp hcp).elim (hus cp) (hvs cp)

theorem WellFormed.cons {u : UInt16} (hu : ¬ IsSurrogate u.toNat) (hus : WellFormed us) :
    WellFormed (u :: us) := by
  have hhigh : ¬ IsHighSurrogate u.toNat := by
    unfold IsHighSurrogate IsSurrogate at *
    omega
  intro cp hcp
  rw [codePoints_cons hhigh] at hcp
  exact (List.mem_cons.mp hcp).elim (fun heq => heq ▸ hu) (hus cp)

theorem WellFormed.units_append (hlt : cp < 0x110000) (hs : ¬ IsSurrogate cp) (hus : WellFormed us) :
    WellFormed (units cp ++ us) := by
  intro cp' hcp'
  rw [codePoints_units_append hlt hs] at hcp'
  exact (List.mem_cons.mp hcp').elim (fun heq => heq ▸ hs) (hus cp')

end Unicode
