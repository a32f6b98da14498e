import Mathlib.Algebra.Order.Field.Power
import Mathlib.Data.Nat.Digits.Defs
import Mathlib.Data.Nat.Log
import Mathlib.Data.Rat.Cast.Order
import Mathlib.Tactic.Linarith
import Mathlib.Tactic.NormNum
import Mathlib.Tactic.Positivity

/-!
# Decimal text of doubles

The text of a double is a shortest decimal that rounds to it. Values are rationals; only those that
are not negative occur.

## Main definitions

* `IsDouble`, `RoundsTo` — the values of the finite doubles, and rounding to the nearest of them.
* `Shortest` — a decimal with as few digits as possible.
* `Double.toString` — ECMAScript's Number::toString.

## Main results

* `Double.toString_natCast` — the text of a natural number is its digits.
* `toDigits_ofDigitChars` — digits without a leading zero are the text of their value.
-/

namespace Decimal

/-- The values of the finite doubles. -/
def IsDouble (q : ℚ) : Prop :=
  ∃ (m : ℕ) (e : ℤ), m < 2 ^ 53 ∧ -1074 ≤ e ∧ e ≤ 971 ∧ q = m * 2 ^ e

/-- The significand of 53 bits is even; below the normal range there are fewer bits. -/
def EvenSignificand (q : ℚ) : Prop :=
  ∃ (m : ℕ) (e : ℤ), 2 * m < 2 ^ 53 ∧ (2 ^ 52 ≤ 2 * m ∨ e = -1074) ∧ q = (2 * m : ℕ) * 2 ^ e

/-- Round to nearest, ties to even. What is not nearer to a double than to `2 ^ 1024` is rounded to
infinity. -/
def RoundsTo (q x : ℚ) : Prop :=
  IsDouble x ∧ ∀ y, IsDouble y ∨ y = 2 ^ 1024 → y ≠ x →
    |q - x| < |q - y| ∨ |q - x| = |q - y| ∧ EvenSignificand x

/-- The decimal `s * 10 ^ (n - k)`, where `s` has `k` digits, rounds to the double. -/
structure Represents (x : ℚ) (k s : ℕ) (n : ℤ) : Prop where
  pos : 1 ≤ k
  le : 10 ^ (k - 1) ≤ s
  lt : s < 10 ^ k
  roundsTo : RoundsTo (s * 10 ^ (n - k)) x

/-- No decimal with fewer digits does. -/
def Shortest (x : ℚ) (k s : ℕ) (n : ℤ) : Prop :=
  Represents x k s n ∧ ∀ k' s' n', Represents x k' s' n' → k ≤ k'

/-- The digits with their point, or with an exponent. -/
def format (k s : ℕ) (n : ℤ) : List Char :=
  let digits := Nat.toDigits 10 s
  if k ≤ n ∧ n ≤ 21 then digits ++ List.replicate (n - k).toNat '0'
  else if 0 < n ∧ n ≤ 21 then digits.take n.toNat ++ '.' :: digits.drop n.toNat
  else if -6 < n ∧ n ≤ 0 then '0' :: '.' :: List.replicate (-n).toNat '0' ++ digits
  else
    digits.take 1 ++ (if k = 1 then [] else '.' :: digits.drop 1) ++
      'e' :: (if n - 1 < 0 then '-' else '+') :: Nat.toDigits 10 (n - 1).natAbs

/-- A double that is neither negative nor a NaN. -/
inductive Double where
  | finite (q : ℚ) (isDouble : IsDouble q)
  | infinity

/-- Number::toString. -/
noncomputable def Double.toString : Double → List Char
  | infinity => "Infinity".toList
  | finite q _ =>
    if q = 0 then ['0']
    else
      let (k, s, n) := Classical.epsilon fun d : ℕ × ℕ × ℤ => Shortest q d.1 d.2.1 d.2.2
      format k s n

/-! ### Natural numbers -/

theorem isDouble_natCast {n : ℕ} (h : n < 2 ^ 53) : IsDouble n :=
  ⟨n, 0, h, by decide, by decide, by simp⟩

theorem RoundsTo.refl {x : ℚ} (h : IsDouble x) : RoundsTo x x := by
  refine ⟨h, ?_⟩
  intro y _ hne
  left
  rw [sub_self, abs_zero]
  exact abs_pos.mpr (sub_ne_zero.mpr hne.symm)

theorem RoundsTo.eq_of_isDouble {q x : ℚ} (h : RoundsTo q x) (hq : IsDouble q) : q = x := by
  by_contra hne
  have habs : 0 < |q - x| := abs_pos.mpr (sub_ne_zero.mpr hne)
  rcases h.2 q (.inl hq) hne with hlt | ⟨heq, -⟩
  · rw [sub_self, abs_zero] at hlt
    linarith
  · rw [sub_self, abs_zero] at heq
    linarith

theorem RoundsTo.not_between {q x y : ℚ} (h : RoundsTo q x) (hy : IsDouble y) (hqy : q ≤ y) :
    ¬ y < x := by
  intro hyx
  have hx : |q - x| = x - q := by
    rw [abs_sub_comm]
    exact abs_of_nonneg (by linarith)
  have hq : |q - y| = y - q := by
    rw [abs_sub_comm]
    exact abs_of_nonneg (by linarith)
  rcases h.2 y (.inl hy) (ne_of_lt hyx) with hlt | ⟨heq, -⟩
  · rw [hx, hq] at hlt
    linarith
  · rw [hx, hq] at heq
    linarith

theorem RoundsTo.not_between_of_ge {q x y : ℚ} (h : RoundsTo q x) (hy : IsDouble y) (hyq : y ≤ q) :
    ¬ x < y := by
  intro hxy
  have hx : |q - x| = q - x := abs_of_nonneg (by linarith)
  have hq : |q - y| = q - y := abs_of_nonneg (by linarith)
  rcases h.2 y (.inl hy) (ne_of_gt hxy) with hlt | ⟨heq, -⟩
  · rw [hx, hq] at hlt
    linarith
  · rw [hx, hq] at heq
    linarith

theorem RoundsTo.eq_of_natCast {q n : ℕ} (h : RoundsTo q n) (hn : n < 2 ^ 53 - 1) : q = n := by
  have hq : q < 2 ^ 53 := by
    by_contra hge
    have hge : 2 ^ 53 - 1 ≤ q := by omega
    refine h.not_between_of_ge (isDouble_natCast (n := 2 ^ 53 - 1) (by decide)) ?_ ?_
    · exact_mod_cast hge
    · exact_mod_cast hn
  exact_mod_cast h.eq_of_isDouble (isDouble_natCast hq)

theorem represents_natCast {k s j : ℕ} (hpos : 1 ≤ k) (hle : 10 ^ (k - 1) ≤ s) (hlt : s < 10 ^ k)
    (hn : s * 10 ^ j < 2 ^ 53) : Represents ((s * 10 ^ j : ℕ) : ℚ) k s ((k + j : ℕ) : ℤ) where
  pos := hpos
  le := hle
  lt := hlt
  roundsTo := by
    have hvalue : (s : ℚ) * 10 ^ (((k + j : ℕ) : ℤ) - k) = ((s * 10 ^ j : ℕ) : ℚ) := by
      have hexp : ((k + j : ℕ) : ℤ) - k = (j : ℤ) := by
        push_cast
        ring
      rw [hexp, zpow_natCast]
      push_cast
      rfl
    rw [hvalue]
    exact .refl (isDouble_natCast hn)

theorem exists_shortest {x : ℚ} {k s : ℕ} {n : ℤ} (h : Represents x k s n) :
    ∃ d : ℕ × ℕ × ℤ, Shortest x d.1 d.2.1 d.2.2 := by
  classical
  have hex : ∃ k s n, Represents x k s n := ⟨k, s, n, h⟩
  obtain ⟨s', n', hmin⟩ := Nat.find_spec hex
  refine ⟨(Nat.find hex, s', n'), hmin, ?_⟩
  intro k' s'' n'' h'
  exact Nat.find_min' hex ⟨s'', n'', h'⟩

theorem Represents.value_lt {x : ℚ} {k s : ℕ} {n : ℤ} (h : Represents x k s n) :
    (s : ℚ) * 10 ^ (n - k) < 10 ^ n := by
  have hs : (s : ℚ) < 10 ^ k := by exact_mod_cast h.lt
  have hpow : (0 : ℚ) < 10 ^ (n - k) := by positivity
  calc (s : ℚ) * 10 ^ (n - k) < 10 ^ k * 10 ^ (n - k) := mul_lt_mul_of_pos_right hs hpow
    _ = 10 ^ n := by
      rw [← zpow_natCast, ← zpow_add₀ (by norm_num)]
      congr 1
      ring

/-- A shortest decimal of a natural number has no digits behind its point. -/
theorem Shortest.le_exponent {m k s : ℕ} {n : ℤ} (h : Shortest m k s n) (hm : 0 < m)
    (hlt : m < 2 ^ 53 - 1) : k ≤ n := by
  by_contra hlt'
  have hnk : n < k := lt_of_not_ge hlt'
  have hlog : 10 ^ Nat.log 10 m ≤ m := Nat.pow_log_le_self 10 (Nat.ne_of_gt hm)
  have hlog' : m < 10 ^ (Nat.log 10 m + 1) := Nat.lt_pow_succ_log_self (by decide) m
  generalize Nat.log 10 m = d at hlog hlog'
  rcases Nat.lt_or_eq_of_le hlog with hpow | hpow
  · -- the power of ten below it is nearer
    have hself := represents_natCast (j := 0) (Nat.le_add_left 1 d) hlog hlog' (by omega)
    rw [pow_zero, mul_one] at hself
    have hk := h.2 _ _ _ hself
    refine h.1.roundsTo.not_between (isDouble_natCast (n := 10 ^ d) (by omega)) ?_ ?_
    · refine le_of_lt (lt_of_lt_of_le h.1.value_lt ?_)
      rw [Nat.cast_pow, Nat.cast_ofNat, ← zpow_natCast]
      exact zpow_le_zpow_right₀ (by norm_num) (by omega)
    · exact_mod_cast hpow
  · -- a power of ten has one digit
    have hself := represents_natCast (j := d) (Nat.le_refl 1) (Nat.le_refl 1) (by decide)
      (by rw [one_mul, hpow]; omega)
    rw [one_mul, hpow] at hself
    have hk := h.2 _ _ _ hself
    have hk1 : k = 1 := Nat.le_antisymm hk h.1.pos
    have hs : (s : ℚ) ≤ 9 := by
      have := h.1.lt
      rw [hk1] at this
      exact_mod_cast Nat.le_of_lt_succ this
    have hexp : (10 : ℚ) ^ (n - k) ≤ 10 ^ (-1 : ℤ) :=
      zpow_le_zpow_right₀ (by norm_num) (by omega)
    refine h.1.roundsTo.not_between (y := 15 / 16) ⟨15, -4, by decide, by decide, by decide, ?_⟩ ?_ ?_
    · norm_num
    · have hpos : (0 : ℚ) < 10 ^ (n - k) := by positivity
      calc (s : ℚ) * 10 ^ (n - k) ≤ 9 * 10 ^ (-1 : ℤ) := mul_le_mul hs hexp (le_of_lt hpos) (by norm_num)
        _ ≤ 15 / 16 := by norm_num
    · have hone : (1 : ℚ) ≤ m := by exact_mod_cast hm
      linarith

/-! ### Digits -/

theorem toDigits_append_zeros {s : ℕ} (hs : 0 < s) (j : ℕ) :
    Nat.toDigits 10 s ++ List.replicate j '0' = Nat.toDigits 10 (s * 10 ^ j) := by
  induction j with
  | zero => simp
  | succ j ih =>
    have hpos : 0 < s * 10 ^ j := Nat.mul_pos hs (Nat.pow_pos (by decide))
    have happend := Nat.toDigits_append_toDigits (b := 10) (d := 0) (by decide) hpos (by decide)
    rw [Nat.toDigits_zero, ← ih] at happend
    rw [List.replicate_succ', ← List.append_assoc, happend]
    congr 1
    ring

theorem Double.toString_finite (q : ℚ) (h : IsDouble q) : (finite q h).toString =
    if q = 0 then ['0']
    else
      let d := Classical.epsilon fun d : ℕ × ℕ × ℤ => Shortest q d.1 d.2.1 d.2.2
      format d.1 d.2.1 d.2.2 :=
  rfl

/-- The text of a natural number is its digits. -/
theorem Double.toString_natCast {m : ℕ} (hm : m < 2 ^ 53 - 1) (h : IsDouble m) :
    (Double.finite m h).toString = Nat.toDigits 10 m := by
  by_cases hzero : m = 0
  · have hq : (m : ℚ) = 0 := by exact_mod_cast hzero
    rw [toString_finite, if_pos hq, hzero, Nat.toDigits_zero]
  · have hpos : 0 < m := Nat.pos_of_ne_zero hzero
    have hne : (m : ℚ) ≠ 0 := by exact_mod_cast Nat.ne_of_gt hpos
    have hlog : 10 ^ Nat.log 10 m ≤ m := Nat.pow_log_le_self 10 (Nat.ne_of_gt hpos)
    have hlog' : m < 10 ^ (Nat.log 10 m + 1) := Nat.lt_pow_succ_log_self (by decide) m
    have hself := represents_natCast (j := 0) (Nat.le_add_left 1 _) hlog hlog' (by omega)
    rw [pow_zero, mul_one] at hself
    have hshortest := Classical.epsilon_spec (exists_shortest hself)
    rw [toString_finite, if_neg hne]
    generalize Classical.epsilon (fun d : ℕ × ℕ × ℤ => Shortest m d.1 d.2.1 d.2.2) = d at hshortest ⊢
    obtain ⟨k, s, n⟩ := d
    have hkn := hshortest.le_exponent hpos hm
    simp only at hkn hshortest ⊢
    obtain ⟨j, hj⟩ := Int.le.dest hkn
    have hexp : n - k = (j : ℤ) := by omega
    have hvalue : s * 10 ^ j = m := by
      have hround := hshortest.1.roundsTo
      rw [hexp, zpow_natCast] at hround
      refine RoundsTo.eq_of_natCast ?_ hm
      push_cast
      exact hround
    have hn : n ≤ 21 := by
      have hle : 10 ^ (k - 1 + j) < 10 ^ 16 := by
        calc 10 ^ (k - 1 + j) = 10 ^ (k - 1) * 10 ^ j := Nat.pow_add ..
          _ ≤ s * 10 ^ j := Nat.mul_le_mul_right _ hshortest.1.le
          _ < 10 ^ 16 := by omega
      have := (Nat.pow_lt_pow_iff_right (by decide)).mp hle
      omega
    have hs : 0 < s := Nat.lt_of_lt_of_le (Nat.pow_pos (by decide)) hshortest.1.le
    rw [format, if_pos ⟨hkn, hn⟩, hexp, Int.toNat_natCast, toDigits_append_zeros hs, hvalue]

theorem digitChar_of_isDigit {c : Char} (h : c.isDigit) :
    c.toNat - '0'.toNat < 10 ∧ (c.toNat - '0'.toNat).digitChar = c := by
  have hzero : '0'.toNat = 48 := rfl
  have hle : 48 ≤ c.toNat ∧ c.toNat ≤ 57 := by
    simp only [Char.isDigit, Bool.and_eq_true, decide_eq_true_eq] at h
    exact ⟨h.1, h.2⟩
  have hlt : c.toNat - '0'.toNat < 10 := by omega
  refine ⟨hlt, ?_⟩
  apply Char.toNat_inj.mp
  rw [Nat.toNat_digitChar_of_lt_ten hlt, hzero]
  omega

theorem toDigits_ofDigitChars {c : Char} {cs : List Char} (hc : c ≠ '0')
    (hdigits : ∀ d ∈ c :: cs, d.isDigit) :
    Nat.toDigits 10 (Nat.ofDigitChars 10 (c :: cs) 0) = c :: cs ∧
      0 < Nat.ofDigitChars 10 (c :: cs) 0 := by
  induction cs using List.reverseRecOn with
  | nil =>
    obtain ⟨hlt, hchar⟩ := digitChar_of_isDigit (hdigits c List.mem_cons_self)
    rw [Nat.ofDigitChars_cons, Nat.ofDigitChars_nil, Nat.mul_zero, Nat.zero_add,
      Nat.toDigits_of_lt_base hlt, hchar]
    refine ⟨rfl, Nat.pos_of_ne_zero ?_⟩
    intro hzero
    rw [hzero] at hchar
    exact hc hchar.symm
  | append_singleton cs d ih =>
    obtain ⟨htext, hpos⟩ := ih fun d hd => hdigits d (by simp at hd ⊢; tauto)
    obtain ⟨hlt, hchar⟩ := digitChar_of_isDigit (hdigits d (by simp))
    rw [← List.cons_append, Nat.ofDigitChars_append, Nat.ofDigitChars_cons, Nat.ofDigitChars_nil,
      ← Nat.toDigits_append_toDigits (by decide) hpos hlt, htext, Nat.toDigits_of_lt_base hlt, hchar]
    exact ⟨rfl, by omega⟩

theorem head?_toDigits {n : ℕ} (hn : 0 < n) : (Nat.toDigits 10 n).head? ≠ some '0' := by
  induction n using Nat.strong_induction_on with
  | _ n ih =>
    by_cases hlt : n < 10
    · rw [Nat.toDigits_of_lt_base hlt]
      intro hzero
      have hchar : n.digitChar = '0' := by simpa using hzero
      have hnat := Nat.toNat_digitChar_of_lt_ten hlt
      rw [hchar] at hnat
      have hcode : '0'.toNat = 48 := rfl
      omega
    · have hge : 10 ≤ n := Nat.le_of_not_lt hlt
      rw [Nat.toDigits_of_base_le (by decide) hge, List.head?_append_of_ne_nil _ Nat.toDigits_ne_nil]
      exact ih (n / 10) (Nat.div_lt_self hn (by decide)) (Nat.div_pos hge (by decide))

theorem exists_toDigits (s : ℕ) : ∃ c cs, Nat.toDigits 10 s = c :: cs ∧ c ≠ '.' := by
  cases h : Nat.toDigits 10 s with
  | nil => exact absurd h Nat.toDigits_ne_nil
  | cons c cs =>
    refine ⟨c, cs, rfl, ?_⟩
    rintro rfl
    have hdigit := Nat.isDigit_of_mem_toDigits (b := 10) (by decide) (by decide)
      (h ▸ List.mem_cons_self)
    exact absurd hdigit (by decide)

theorem head?_format (k s : ℕ) (n : ℤ) : (format k s n).head? ≠ some '.' := by
  obtain ⟨c, cs, hdigits, hc⟩ := exists_toDigits s
  unfold format
  simp only [hdigits]
  split
  · simpa using hc
  · split
    · next hn =>
      obtain ⟨m, hm⟩ := Nat.exists_eq_succ_of_ne_zero (n := n.toNat) (by omega)
      rw [hm]
      simpa using hc
    · split
      · simp
      · simpa using hc

theorem Double.head?_toString (x : Double) : x.toString.head? ≠ some '.' := by
  cases x with
  | infinity =>
    unfold toString
    decide
  | finite q h =>
    rw [toString_finite]
    by_cases hzero : q = 0
    · rw [if_pos hzero]
      decide
    · rw [if_neg hzero]
      exact head?_format _ _ _

end Decimal
