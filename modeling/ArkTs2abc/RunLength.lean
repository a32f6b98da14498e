import Mathlib.Data.List.Basic
import Mathlib.Data.List.Chain
import Mathlib.Algebra.Ring.Nat

/-!
# Run lengths

A list as its runs of equal values, built from the front to the back.

## Main definitions

* `RunLength.push`, `RunLength.expand` — one more value, and the values of some runs.
* `RunLength.Canonical` — no run is empty, and neighbours have different values.

## Main results

* `RunLength.expand_push`, `RunLength.Canonical.push` — what a further value does.
-/

namespace RunLength

/-- A value, and how often it stands in a row. -/
structure Run (α : Type) where
  value : α
  count : ℕ
  deriving DecidableEq, Repr

variable {α : Type}

/-- The values of some runs. -/
def expand : List (Run α) → List α
  | [] => []
  | r :: rs => List.replicate r.count r.value ++ expand rs

@[simp] theorem expand_nil : expand ([] : List (Run α)) = [] := rfl

@[simp] theorem expand_cons (r : Run α) (rs : List (Run α)) :
    expand (r :: rs) = List.replicate r.count r.value ++ expand rs := rfl

/-- No run is empty, and neighbours have different values. -/
structure Canonical (rs : List (Run α)) : Prop where
  pos : ∀ r ∈ rs, 0 < r.count
  ne : rs.IsChain fun r s => r.value ≠ s.value

theorem Canonical.nil : Canonical ([] : List (Run α)) := ⟨by simp, List.isChain_nil⟩

section

variable {r : Run α} {rs : List (Run α)} (h : Canonical (r :: rs))
include h

theorem Canonical.tail : Canonical rs :=
  ⟨fun s hs => h.pos s (List.mem_cons_of_mem _ hs), h.ne.tail⟩

theorem Canonical.head_pos : 0 < r.count :=
  h.pos r List.mem_cons_self

theorem Canonical.head_expand_ne :
    (expand rs).head? ≠ some r.value := by
  cases rs with
  | nil => simp
  | cons s rs =>
    have hpos := h.tail.head_pos
    have hne := (List.isChain_cons_cons.mp h.ne).1
    obtain ⟨n, hn⟩ := Nat.exists_eq_succ_of_ne_zero (Nat.ne_of_gt hpos)
    rw [expand_cons, hn, List.replicate_succ, List.cons_append, List.head?_cons]
    intro heq
    exact hne (Option.some.inj heq).symm

end

variable [DecidableEq α]

/-- One more value behind the last run. -/
def push (x : α) : List (Run α) → List (Run α)
  | [] => [⟨x, 1⟩]
  | [r] => if x = r.value then [⟨r.value, r.count + 1⟩] else [r, ⟨x, 1⟩]
  | r :: s :: rs => r :: push x (s :: rs)

theorem expand_push (x : α) (rs : List (Run α)) : expand (push x rs) = expand rs ++ [x] := by
  fun_induction push x rs <;> grind [expand, List.replicate_succ']

theorem push_pos {x : α} {rs : List (Run α)} (h : ∀ r ∈ rs, 0 < r.count) : ∀ r ∈ push x rs, 0 < r.count := by
  fun_induction push x rs <;> grind

theorem push_cons (x : α) (r : Run α) (rs : List (Run α)) :
    ∃ r' rs', push x (r :: rs) = r' :: rs' ∧ r'.value = r.value := by
  cases rs with
  | nil =>
    rw [push]
    split
    · exact ⟨_, _, rfl, rfl⟩
    · exact ⟨_, _, rfl, rfl⟩
  | cons s rs => exact ⟨_, _, rfl, rfl⟩

theorem Canonical.push {rs : List (Run α)} (h : Canonical rs) (x : α) : Canonical (push x rs) := by
  refine ⟨push_pos h.pos, ?_⟩
  have hne := h.ne
  clear h
  induction rs with
  | nil => exact List.isChain_singleton _
  | cons r rs ih =>
    cases rs with
    | nil =>
      rw [RunLength.push]
      split
      next => exact List.isChain_singleton _
      next hx => exact List.isChain_cons_cons.mpr ⟨fun heq => hx heq.symm, List.isChain_singleton _⟩
    | cons s rs =>
      obtain ⟨hrs, hchain⟩ := List.isChain_cons_cons.mp hne
      obtain ⟨s', rs', heq, hvalue⟩ := push_cons x s rs
      have hpush := ih hchain
      rw [RunLength.push, heq]
      rw [heq] at hpush
      exact List.isChain_cons_cons.mpr ⟨by rw [hvalue]; exact hrs, hpush⟩

end RunLength
