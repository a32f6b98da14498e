import Mathlib.Algebra.Ring.Nat
import Mathlib.Data.List.Induction

/-!
# Decimal digits accumulated in a machine word

The digits of a number are accumulated in a word, and a wrap is looked for by comparing each value with the
one before. The test sees some of the wraps only: the value is the residue of the number as long as
the residues of its prefixes do not fall.

## Main definitions

* `WrappedDigits.accumulate` — the value, unless a wrap is seen.
* `WrappedDigits.Falls` — the residue of a prefix is smaller than that of the prefix before.

## Main results

* `WrappedDigits.accumulate_eq` — the value in terms of residues.
-/

namespace WrappedDigits

/-- One digit more. -/
def push (bits value : ℕ) (c : Char) : Option ℕ :=
  let newValue := (value * 10 + (c.toNat - '0'.toNat)) % 2 ^ bits
  if newValue < value then none else some newValue

def accumulate (bits value : ℕ) (ds : List Char) : Option ℕ := ds.foldlM (push bits) value

/-- The number of a text of digits. -/
def number (ds : List Char) : ℕ := Nat.ofDigitChars 10 ds 0

def residue (bits : ℕ) (ds : List Char) : ℕ := number ds % 2 ^ bits

/-- Some prefix has a smaller residue than the prefix one digit shorter. -/
def Falls (bits : ℕ) (ds : List Char) : Prop :=
  ∃ k < ds.length, residue bits (ds.take (k + 1)) < residue bits (ds.take k)

instance (bits : ℕ) (ds : List Char) : Decidable (Falls bits ds) :=
  inferInstanceAs (Decidable (∃ k < ds.length, residue bits (ds.take (k + 1)) < residue bits (ds.take k)))

variable {bits : ℕ}

theorem number_concat (ds : List Char) (c : Char) :
    number (ds ++ [c]) = number ds * 10 + (c.toNat - '0'.toNat) := by
  rw [number, Nat.ofDigitChars_append, Nat.ofDigitChars_cons, Nat.ofDigitChars_nil, Nat.mul_comm]
  rfl

theorem residue_concat (ds : List Char) (c : Char) :
    residue bits (ds ++ [c]) = (residue bits ds * 10 + (c.toNat - '0'.toNat)) % 2 ^ bits := by
  simp [residue, number_concat, Nat.add_mod, Nat.mul_mod]

theorem falls_concat {ds : List Char} {c : Char} :
    Falls bits (ds ++ [c]) ↔ Falls bits ds ∨ residue bits (ds ++ [c]) < residue bits ds := by
  have htake {k : ℕ} (hk : k ≤ ds.length) : (ds ++ [c]).take k = ds.take k := List.take_append_of_le_length hk
  have hall : (ds ++ [c]).take (ds.length + 1) = ds ++ [c] := List.take_of_length_le (by simp)
  constructor
  · rintro ⟨k, hk, hlt⟩
    rw [List.length_append, List.length_singleton] at hk
    rcases Nat.lt_or_ge k ds.length with hshort | hge
    · rw [htake hshort, htake (Nat.le_of_lt hshort)] at hlt
      exact .inl ⟨k, hshort, hlt⟩
    · obtain rfl : k = ds.length := by omega
      rw [hall, htake (Nat.le_refl _), List.take_length] at hlt
      exact .inr hlt
  · rintro (⟨k, hk, hlt⟩ | hlt)
    · refine ⟨k, by simp; omega, ?_⟩
      rwa [htake hk, htake (Nat.le_of_lt hk)]
    · refine ⟨ds.length, by simp, ?_⟩
      rwa [hall, htake (Nat.le_refl _), List.take_length]

theorem accumulate_eq (ds : List Char) :
    accumulate bits 0 ds = if Falls bits ds then none else some (residue bits ds) := by
  induction ds using List.reverseRecOn with
  | nil =>
    have hnot : ¬ Falls bits [] := by simp [Falls]
    simp [accumulate, hnot, residue, number]
  | append_singleton ds c ih =>
    rw [accumulate] at ih
    rw [accumulate, List.foldlM_append, ih]
    by_cases hds : Falls bits ds
    · have hall := falls_concat (c := c).mpr (.inl hds)
      rw [if_pos hds, if_pos hall]
      rfl
    · have hpush : push bits (residue bits ds) c =
          if residue bits (ds ++ [c]) < residue bits ds then none else some (residue bits (ds ++ [c])) := by
        rw [push, residue_concat]
      have hiff : Falls bits (ds ++ [c]) ↔ _ := falls_concat
      simp only [hds, if_false, Option.bind_eq_bind, Option.bind_some, List.foldlM_cons, List.foldlM_nil,
        hpush, hiff, false_or]
      split <;> rfl

end WrappedDigits
