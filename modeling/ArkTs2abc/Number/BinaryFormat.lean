import Mathlib.Algebra.Order.Field.Power
import Mathlib.Algebra.Order.Round
import Mathlib.Data.Int.Log
import Mathlib.Data.Rat.Floor
import Mathlib.Tactic.Linarith
import Mathlib.Tactic.Positivity
import Mathlib.Tactic.Ring
import Mathlib.Tactic.NormNum

/-!
# Rounding to a binary format

Numbers with a bounded number of significant bits, and gradual underflow. What is rounded is not negative.

## Main definitions

* `roundHalfEven` — to the nearest integer, ties to even.
* `BinaryFormat.round` — to the nearest number of a format, with no bound on its size.
* `BinaryFormat.Overflows`, `BinaryFormat.Underflows`

## Main results

* `le_roundHalfEven_iff`, `BinaryFormat.le_round_iff` — what is rounded to at least some even number.
-/

def roundHalfEven (x : ℚ) : ℤ :=
  if x - ⌊x⌋ < 1 / 2 then ⌊x⌋
  else if 1 / 2 < x - ⌊x⌋ then ⌊x⌋ + 1
  else if ⌊x⌋ % 2 = 0 then ⌊x⌋ else ⌊x⌋ + 1

section RoundHalfEven

variable {x : ℚ} {n : ℤ}

theorem floor_le_roundHalfEven : ⌊x⌋ ≤ roundHalfEven x := by
  unfold roundHalfEven
  split_ifs <;> omega

theorem roundHalfEven_le_floor_add_one : roundHalfEven x ≤ ⌊x⌋ + 1 := by
  unfold roundHalfEven
  split_ifs <;> omega

theorem roundHalfEven_eq_floor (h : x - ⌊x⌋ < 1 / 2) : roundHalfEven x = ⌊x⌋ := if_pos h

theorem le_roundHalfEven (h : n ≤ x) : n ≤ roundHalfEven x :=
  (Int.le_floor.mpr h).trans floor_le_roundHalfEven

theorem roundHalfEven_le (h : x ≤ n) : roundHalfEven x ≤ n := by
  rcases eq_or_lt_of_le h with rfl | hlt
  · rw [roundHalfEven_eq_floor (by simp), Int.floor_intCast]
  · have hfloor : ⌊x⌋ < n := Int.floor_lt.mpr hlt
    have hle := roundHalfEven_le_floor_add_one (x := x)
    omega

theorem le_roundHalfEven_iff (hn : n % 2 = 0) : n ≤ roundHalfEven x ↔ (n : ℚ) - 1 / 2 ≤ x := by
  have hfloor := Int.floor_le x
  have hlt := Int.lt_floor_add_one x
  constructor
  · intro h
    by_contra hx
    push Not at hx
    have hle : ⌊x⌋ < n := by
      rw [Int.floor_lt]
      linarith
    rcases eq_or_lt_of_le (Int.add_one_le_of_lt hle) with heq | hlt'
    · have hcast : (⌊x⌋ : ℚ) = n - 1 := by
        rw [← heq]
        push_cast
        ring
      rw [roundHalfEven_eq_floor (by linarith)] at h
      omega
    · have := roundHalfEven_le_floor_add_one (x := x)
      omega
  · intro h
    have hle : n - 1 ≤ ⌊x⌋ := by
      rw [Int.le_floor]
      push_cast
      linarith
    rcases eq_or_lt_of_le hle with heq | hlt'
    · have hcast : (⌊x⌋ : ℚ) = n - 1 := by
        rw [← heq]
        push_cast
        ring
      unfold roundHalfEven
      rw [if_neg (by linarith)]
      split_ifs <;> omega
    · exact (by omega : n ≤ ⌊x⌋).trans floor_le_roundHalfEven

end RoundHalfEven

/-- The significant bits, and the greatest exponent of a number `1.… * 2 ^ e`. -/
structure BinaryFormat where
  precision : ℕ
  maxExponent : ℤ
  pos : 0 < precision

namespace BinaryFormat

/-- Below it the bits get fewer. -/
def minExponent (F : BinaryFormat) : ℤ := 1 - F.maxExponent

/-- The weight of the last bit, as an exponent. -/
def ulpExponent (F : BinaryFormat) (q : ℚ) : ℤ := max (Int.log 2 q) F.minExponent - F.precision + 1

def round (F : BinaryFormat) (q : ℚ) : ℚ :=
  roundHalfEven (q / 2 ^ F.ulpExponent q) * 2 ^ F.ulpExponent q

/-- The rounded number is too large. -/
def Overflows (F : BinaryFormat) (q : ℚ) : Prop := 2 ^ (F.maxExponent + 1) ≤ F.round q

/-- The number is too small, and not one of the format. -/
def Underflows (F : BinaryFormat) (q : ℚ) : Prop := 0 < q ∧ q < 2 ^ F.minExponent ∧ F.round q ≠ q

instance (F : BinaryFormat) (q : ℚ) : Decidable (F.Overflows q) := inferInstanceAs (Decidable (_ ≤ _))

instance (F : BinaryFormat) (q : ℚ) : Decidable (F.Underflows q) := inferInstanceAs (Decidable (_ ∧ _ ∧ _))

variable {F : BinaryFormat} {q : ℚ} {e : ℤ}

theorem two_zpow_pos (k : ℤ) : (0 : ℚ) < 2 ^ k := zpow_pos (by norm_num) k

theorem zpow_div_zpow {k : ℤ} (h : k ≤ e) : (2 : ℚ) ^ e / 2 ^ k = ((2 ^ (e - k).toNat : ℤ) : ℚ) := by
  rw [← zpow_sub₀ (by norm_num)]
  push_cast
  rw [← zpow_natCast, Int.toNat_of_nonneg (by omega)]

@[simp] theorem round_zero : F.round 0 = 0 := by
  have h : roundHalfEven 0 = 0 := by decide +kernel
  simp [round, h]

section

variable (hmin : F.minExponent ≤ e)
include hmin

theorem round_le (hpos : 0 < q) (hq : q ≤ 2 ^ e) : F.round q ≤ 2 ^ e := by
  have hlog : Int.log 2 q ≤ e := by
    have := Int.log_mono_right (b := 2) hpos hq
    rwa [show ((2 : ℚ) ^ e) = ((2 : ℕ) : ℚ) ^ e by norm_num, Int.log_zpow (by norm_num)] at this
  have hk : F.ulpExponent q ≤ e := by
    have := F.pos
    unfold ulpExponent
    omega
  have hu := two_zpow_pos (F.ulpExponent q)
  have hround : roundHalfEven (q / 2 ^ F.ulpExponent q) ≤ 2 ^ (e - F.ulpExponent q).toNat := by
    refine roundHalfEven_le ?_
    rw [← zpow_div_zpow hk]
    gcongr
  calc F.round q ≤ ((2 ^ (e - F.ulpExponent q).toNat : ℤ) : ℚ) * 2 ^ F.ulpExponent q := by
        unfold round
        gcongr
    _ = 2 ^ e := by rw [← zpow_div_zpow hk, div_mul_cancel₀ _ hu.ne']

theorem le_round (hq : 2 ^ e ≤ q) : 2 ^ e ≤ F.round q := by
  have hpos : 0 < q := (two_zpow_pos e).trans_le hq
  have hlog : e ≤ Int.log 2 q := by
    have := Int.log_mono_right (b := 2) (two_zpow_pos e) hq
    rwa [show ((2 : ℚ) ^ e) = ((2 : ℕ) : ℚ) ^ e by norm_num, Int.log_zpow (by norm_num)] at this
  have hself : (2 : ℚ) ^ Int.log 2 q ≤ q := by
    simpa using Int.zpow_log_le_self (b := 2) (by norm_num) hpos
  have hk : F.ulpExponent q ≤ Int.log 2 q := by
    have := F.pos
    unfold ulpExponent
    omega
  have hu := two_zpow_pos (F.ulpExponent q)
  have hround : 2 ^ (Int.log 2 q - F.ulpExponent q).toNat ≤ roundHalfEven (q / 2 ^ F.ulpExponent q) := by
    refine le_roundHalfEven ?_
    rw [← zpow_div_zpow hk]
    gcongr
  calc (2 : ℚ) ^ e ≤ 2 ^ Int.log 2 q := zpow_le_zpow_right₀ (by norm_num) hlog
    _ = ((2 ^ (Int.log 2 q - F.ulpExponent q).toNat : ℤ) : ℚ) * 2 ^ F.ulpExponent q := by
        rw [← zpow_div_zpow hk, div_mul_cancel₀ _ hu.ne']
    _ ≤ F.round q := by
        unfold round
        gcongr

theorem ulpExponent_eq (hge : 2 ^ e ≤ q) (hlt : q < 2 ^ (e + 1)) :
    F.ulpExponent q = e - F.precision + 1 := by
  have hpos : 0 < q := (two_zpow_pos e).trans_le hge
  have hlog : Int.log 2 q = e := by
    have hle : e ≤ Int.log 2 q := (Int.zpow_le_iff_le_log (by norm_num) hpos).mp (by simpa using hge)
    have hlt' : Int.log 2 q < e + 1 := (Int.lt_zpow_iff_log_lt (by norm_num) hpos).mp (by simpa using hlt)
    omega
  unfold ulpExponent
  omega

/-- What is rounded to at least an even significand reaches to half a unit below it. -/
theorem le_round_iff {m : ℕ} (hm : m % 2 = 0) (hlt : 2 ^ (F.precision - 1) < m)
    (hle : m ≤ 2 ^ F.precision) (hq : 0 ≤ q) :
    (m : ℚ) * 2 ^ (e - F.precision + 1) ≤ F.round q ↔ ((m : ℚ) - 1 / 2) * 2 ^ (e - F.precision + 1) ≤ q := by
  have hpos := F.pos
  have hu := two_zpow_pos (e - F.precision + 1)
  have hlower : (2 : ℚ) ^ (F.precision - 1) * 2 ^ (e - F.precision + 1) = 2 ^ e := by
    rw [← zpow_natCast, ← zpow_add₀ (by norm_num)]
    congr 1
    omega
  have hupper : (2 : ℚ) ^ F.precision * 2 ^ (e - F.precision + 1) = 2 ^ (e + 1) := by
    rw [← zpow_natCast, ← zpow_add₀ (by norm_num)]
    congr 1
    omega
  have hm₁ : (2 : ℚ) ^ (F.precision - 1) + 1 ≤ m := by exact_mod_cast hlt
  have hm₂ : (m : ℚ) ≤ 2 ^ F.precision := by exact_mod_cast hle
  rcases lt_or_ge q (2 ^ e) with hbelow | hge
  · have hround : F.round q ≤ 2 ^ e := by
      rcases eq_or_lt_of_le hq with rfl | hq
      · rw [round_zero]
        exact (two_zpow_pos e).le
      · exact round_le hmin hq hbelow.le
    have hbig : 2 ^ e < ((m : ℚ) - 1 / 2) * 2 ^ (e - F.precision + 1) := by
      rw [← hlower]
      exact mul_lt_mul_of_pos_right (by linarith) hu
    have hmore : ((m : ℚ) - 1 / 2) * 2 ^ (e - F.precision + 1) ≤ m * 2 ^ (e - F.precision + 1) :=
      mul_le_mul_of_nonneg_right (by linarith) hu.le
    constructor
    · intro h
      linarith
    · intro h
      linarith
  · rcases lt_or_ge q (2 ^ (e + 1)) with hbelow | habove
    · have hiff := le_roundHalfEven_iff (x := q / 2 ^ (e - F.precision + 1)) (n := m) (by omega)
      rw [round, ulpExponent_eq hmin hge hbelow, mul_le_mul_iff_left₀ hu, ← le_div_iff₀ hu]
      exact_mod_cast hiff
    · have hsmall : (m : ℚ) * 2 ^ (e - F.precision + 1) ≤ 2 ^ (e + 1) := by
        rw [← hupper]
        exact mul_le_mul_of_nonneg_right hm₂ hu.le
      have hless : ((m : ℚ) - 1 / 2) * 2 ^ (e - F.precision + 1) ≤ m * 2 ^ (e - F.precision + 1) :=
        mul_le_mul_of_nonneg_right (by linarith) hu.le
      have hround := le_round (F := F) (hmin.trans (by omega : e ≤ e + 1)) habove
      exact ⟨fun _ => by linarith, fun _ => by linarith⟩

end

theorem underflows_of_lt (hpos : 0 < q) (hlt : q < 2 ^ (F.minExponent - F.precision)) : F.Underflows q := by
  have hprecision := F.pos
  have hmin : q < 2 ^ F.minExponent :=
    hlt.trans_le (zpow_le_zpow_right₀ (by norm_num) (by omega))
  have hexponent : F.ulpExponent q = F.minExponent - F.precision + 1 := by
    have hlog : Int.log 2 q < F.minExponent :=
      (Int.lt_zpow_iff_log_lt (by norm_num) hpos).mp (by simpa using hmin)
    unfold ulpExponent
    omega
  have hu := two_zpow_pos (F.minExponent - F.precision + 1)
  have hhalf : q / 2 ^ (F.minExponent - F.precision + 1) < 1 / 2 := by
    rw [div_lt_iff₀ hu, zpow_add₀ (by norm_num)]
    linarith
  have hfloor : ⌊q / 2 ^ (F.minExponent - F.precision + 1)⌋ = 0 := by
    rw [Int.floor_eq_zero_iff]
    exact ⟨by positivity, hhalf.trans (by norm_num)⟩
  have hround : F.round q = 0 := by
    rw [round, hexponent, roundHalfEven_eq_floor (by rw [hfloor]; simpa using hhalf), hfloor]
    simp
  exact ⟨hpos, hmin, by rw [hround]; exact hpos.ne⟩

end BinaryFormat
