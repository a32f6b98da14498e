import ArkTs2abc.Es2panda.Checker.Assignable
import Mathlib.Algebra.Order.Ring.Nat

/-!
# Assignment of signatures

What it takes for one signature to be assignable to another. A run of the comparison is judged by what
the relation was asked and what it said, so nothing is assumed of the relation.

## Main definitions

* `Signature.acceptsCount`, `Signature.argType` — how a call reads a signature.
* `Signature.AssignRun` — a run of `AssignmentTarget`.
* `Told` — the relation said that a type is assignable to another.

## Main results

* `Signature.assigned_signatures` — what an assignable signature has been found to satisfy, and
  that a parameter of the target may be widened.
-/

namespace Es2panda.Checker

open NestedCalls

variable {τ : Type}

/-- What the relation was asked and what it said. -/
abbrev Asked (τ : Type) : Type := List (AssignabilityQuery τ × RelationResult)

/-- The relation said that `s` is assignable to `t`. -/
def Told (asked : Asked τ) (s t : τ) : Prop := ∃ r, (⟨r, s, t⟩, RelationResult.true) ∈ asked

theorem Told.mono {asked asked' : Asked τ} {s t : τ} (h : Told asked s t)
    (hsub : ∀ p ∈ asked, p ∈ asked') : Told asked' s t := by
  obtain ⟨r, hr⟩ := h
  exact ⟨r, hsub _ hr⟩

namespace SignatureRelating

/-- The register behind a comparison. -/
def register {α : Type} (m : SignatureRelating τ α) (result : RelationResult) :
    Tree (AssignabilityQuery τ) RelationResult RelationResult := do
  return (← m result).2

theorem run_isAssignableTo_bind {α : Type} {s t : τ} {f : Bool → SignatureRelating τ α}
    {result : RelationResult} {asked : Asked τ} {r : α × RelationResult}
    (h : ((isAssignableTo s t >>= f) result).Run asked r) :
    ∃ a rest, asked = (⟨result, s, t⟩, a) :: rest ∧ (f (a = .true) a).Run rest r := by
  cases h with
  | call a rest => exact ⟨a, _, rfl, rest⟩

theorem run_bind {α β : Type} {m : SignatureRelating τ α} {f : α → SignatureRelating τ β}
    {result : RelationResult} {asked : Asked τ} {r : β × RelationResult}
    (h : ((m >>= f) result).Run asked r) :
    ∃ l₁ l₂ a result', asked = l₁ ++ l₂ ∧ (m result).Run l₁ (a, result') ∧ (f a result').Run l₂ r := by
  obtain ⟨l₁, l₂, ⟨a, result'⟩, hl, hm, hf⟩ := Tree.run_bind_iff.1 h
  exact ⟨l₁, l₂, a, result', hl, hm, hf⟩

end SignatureRelating

namespace Signature

/-- How many arguments a call may have. -/
def acceptsCount (s : Signature τ) (n : ℕ) : Prop :=
  s.minArgCount ≤ n ∧ (n ≤ s.funcParams.length ∨ s.restVar.isSome)

/-- The type of the parameter that takes an argument. -/
def argType (s : Signature τ) (i : ℕ) : Option τ :=
  if i < s.funcParams.length then s.funcParams[i]? else s.restVar

/-- The signature with the type of one parameter replaced. -/
def replaceParam (s : Signature τ) (k : ℕ) (wider : τ) : Signature τ :=
  { s with
    funcParams := s.funcParams.set k wider
    minArgCount_le := by simpa using s.minArgCount_le }

/-- A run of `AssignmentTarget`: what is asked, and the answer. -/
def AssignRun (this source : Signature τ) (result : RelationResult) (asked : Asked τ)
    (answer : RelationResult) : Prop :=
  ((this.assignmentTarget source).register result).Run asked answer

variable {asked : Asked τ} {result : RelationResult}

/-- What the loop over the parameters has found out when it comes to its end. -/
theorem told_of_assignParams {targetRest : Option τ} {ps ts : List τ} {r : RelationResult}
    (h : ((assignParams targetRest ps ts) result).Run asked (true, r)) :
    (targetRest = none → ∀ (i : ℕ) p t, ps[i]? = some p → ts[i]? = some t → Told asked p t) ∧
    (∀ rest, targetRest = some rest → ∀ p ∈ ps, Told asked p rest) := by
  induction ps generalizing ts result asked with
  | nil => simp
  | cons p ps ih =>
    cases targetRest with
    | some rest =>
      rw [assignParams] at h
      obtain ⟨a, asked', rfl, hrun⟩ := SignatureRelating.run_isAssignableTo_bind h
      by_cases ha : a = .true
      · subst ha
        have hrest := (ih hrun).2 rest rfl
        refine ⟨by simp, ?_⟩
        rintro _ ⟨⟩ q hq
        rcases List.mem_cons.1 hq with rfl | hq
        · exact ⟨result, by simp⟩
        · exact (hrest q hq).mono fun _ hp => List.mem_cons_of_mem _ hp
      · rw [decide_eq_false ha] at hrun
        cases hrun
    | none =>
      cases ts with
      | nil => simp
      | cons t ts =>
        rw [assignParams] at h
        obtain ⟨a, asked', rfl, hrun⟩ := SignatureRelating.run_isAssignableTo_bind h
        by_cases ha : a = .true
        · subst ha
          have hrest := (ih hrun).1 rfl
          refine ⟨fun _ i q u hq hu => ?_, by simp⟩
          cases i with
          | zero =>
            cases hq
            cases hu
            exact ⟨result, by simp⟩
          | succ i => exact (hrest i q u hq hu).mono fun _ hp => List.mem_cons_of_mem _ hp
        · rw [decide_eq_false ha] at hrun
          cases hrun

theorem assignParams_of_told {ps ts : List τ} {r : Bool × RelationResult}
    (h : ((assignParams none ps ts) result).Run asked r)
    (hyes : ∀ q ∈ asked, (∃ i : ℕ, ps[i]? = some q.1.source ∧ ts[i]? = some q.1.target) → q.2 = .true) :
    r.1 = true := by
  induction ps generalizing ts result asked with
  | nil =>
    cases h
    rfl
  | cons p ps ih =>
    cases ts with
    | nil =>
      cases h
      rfl
    | cons t ts =>
      rw [assignParams] at h
      obtain ⟨a, asked', rfl, hrun⟩ := SignatureRelating.run_isAssignableTo_bind h
      have ha : a = .true := hyes (⟨result, p, t⟩, a) (by simp) ⟨0, rfl, rfl⟩
      subst ha
      refine ih hrun fun q hq hex => ?_
      obtain ⟨i, hi⟩ := hex
      exact hyes q (List.mem_cons_of_mem _ hq) ⟨i + 1, hi⟩

theorem assignRun_iff {this source : Signature τ} {answer : RelationResult} :
    AssignRun this source result asked answer ↔
      ((this.assignmentTarget source) result).Run asked ((), answer) := by
  constructor
  · intro h
    obtain ⟨l₁, l₂, ⟨⟨⟩, r⟩, rfl, hrun, hret⟩ := Tree.run_bind_iff.1 h
    cases hret
    simpa using hrun
  · intro h
    exact Tree.run_bind_iff.2 ⟨asked, [], _, by simp, h, .ret _⟩

theorem required_eq (s : Signature τ) : s.funcParams.length - s.optionalArgCount = s.minArgCount := by
  have := s.minArgCount_le
  unfold optionalArgCount
  omega

theorem register_of_assignParams {targetRest : Option τ} {ps ts : List τ} {r : RelationResult}
    (h : ((assignParams targetRest ps ts) result).Run asked (false, r)) :
    r ≠ .true := by
  induction ps generalizing ts result asked with
  | nil => cases h
  | cons p ps ih =>
    have step : ∀ {t : τ} {us : List τ},
        ((SignatureRelating.isAssignableTo p t >>= fun b =>
          if b = true then assignParams targetRest ps us else pure false) result).Run asked (false, r) →
        r ≠ .true := by
      intro t us h
      obtain ⟨a, asked', -, hrun⟩ := SignatureRelating.run_isAssignableTo_bind h
      by_cases ha : a = .true
      · rw [decide_eq_true ha] at hrun
        exact ih hrun
      · rw [decide_eq_false ha] at hrun
        cases hrun
        exact ha
    cases targetRest with
    | some rest => exact step h
    | none =>
      cases ts with
      | nil => cases h
      | cons t ts => exact step h

/-- A run that answers yes has walked the parameters, then the return types, then the rest
parameters if both signatures have one. -/
theorem parts_of_assignRun {this source : Signature τ}
    (h : AssignRun this source result asked .true) :
    (this.restVar = none → source.minArgCount ≤ this.funcParams.length) ∧
    ∃ l₁ l₂ r₁, asked = l₁ ++ l₂ ∧
      ((assignParams this.restVar source.funcParams this.funcParams) result).Run l₁ (true, r₁) ∧
      Told l₂ source.returnType this.returnType ∧
      (∀ rest sourceRest, this.restVar = some rest → source.restVar = some sourceRest →
        Told l₂ sourceRest rest) := by
  rw [assignRun_iff, assignmentTarget, required_eq] at h
  by_cases hmany : this.restVar = none ∧ source.minArgCount > this.funcParams.length
  · rw [if_pos hmany] at h
    cases h
  · rw [if_neg hmany] at h
    refine ⟨fun hrest => not_lt.1 fun hlt => hmany ⟨hrest, hlt⟩, ?_⟩
    obtain ⟨l₁, l₂, found, r₁, rfl, hparams, htail⟩ := SignatureRelating.run_bind h
    cases found with
    | false =>
      cases htail
      exact absurd rfl (register_of_assignParams hparams)
    | true =>
      obtain ⟨a, l₃, rfl, hreturn⟩ := SignatureRelating.run_isAssignableTo_bind htail
      by_cases ha : a = .true
      · subst ha
        refine ⟨l₁, _, r₁, rfl, hparams, ⟨r₁, by simp⟩, ?_⟩
        intro rest sourceRest hrest hsource
        rw [hrest, hsource] at hreturn
        have hlast : ((SignatureRelating.isAssignableTo sourceRest rest >>= fun _ => pure ())
            .true).Run l₃ ((), .true) := hreturn
        obtain ⟨b, l₄, rfl, hend⟩ := SignatureRelating.run_isAssignableTo_bind hlast
        cases hend
        exact ⟨.true, by simp⟩
      · rw [decide_eq_false ha] at hreturn
        cases hreturn
        exact absurd rfl ha

/-- `AssignmentTarget` as it is meant. If the answer is yes, then a full list of arguments of the
target, cut to the parameters of the source, has a length the source accepts, unless the target has a
rest parameter; the relation has said that the source's parameter is assignable to the target's
wherever an argument meets two parameters that are not rest parameters, if the target has none, or the
target's rest parameter, if it has; and so for the return types. A signature without a rest parameter
is assignable to itself with a parameter widened. -/
theorem assigned_signatures (this source : Signature τ) (result : RelationResult) :
    (∀ asked, AssignRun this source result asked .true →
      (this.restVar = none →
        source.acceptsCount (min this.funcParams.length source.funcParams.length)) ∧
      (∀ i t s, this.argType i = some t → source.argType i = some s →
        (this.restVar = none ∧ i < source.funcParams.length ∨
          this.restVar.isSome ∧ this.funcParams.length ≤ i) → Told asked s t) ∧
      Told asked source.returnType this.returnType) ∧
    (∀ k wider asked answer, source.restVar = none →
      AssignRun (source.replaceParam k wider) source result asked answer →
      (∀ q ∈ asked, (q.1.source = q.1.target ∨
        source.funcParams[k]? = some q.1.source ∧ q.1.target = wider) → q.2 = .true) →
      answer = .true) := by
  constructor
  · intro asked h
    obtain ⟨hcount, l₁, l₂, r₁, rfl, hparams, hreturn, hrest⟩ := parts_of_assignRun h
    obtain ⟨hplain, hcollected⟩ := told_of_assignParams hparams
    have hleft : ∀ p ∈ l₁, p ∈ l₁ ++ l₂ := fun _ hp => List.mem_append_left _ hp
    have hright : ∀ p ∈ l₂, p ∈ l₁ ++ l₂ := fun _ hp => List.mem_append_right _ hp
    refine ⟨fun hnone => ⟨?_, .inl (Nat.min_le_right _ _)⟩, ?_, hreturn.mono hright⟩
    · exact le_min (hcount hnone) source.minArgCount_le
    · rintro i t s ht hs (⟨hnone, hi⟩ | ⟨hsome, hi⟩)
      · rw [argType, if_pos hi] at hs
        rw [argType, hnone] at ht
        by_cases hit : i < this.funcParams.length
        · rw [if_pos hit] at ht
          exact (hplain hnone i s t hs ht).mono hleft
        · rw [if_neg hit] at ht
          cases ht
      · rw [argType, if_neg (Nat.not_lt.2 hi)] at ht
        rw [argType] at hs
        by_cases his : i < source.funcParams.length
        · rw [if_pos his] at hs
          exact (hcollected t ht s (List.mem_of_getElem? hs)).mono hleft
        · rw [if_neg his] at hs
          exact (hrest t s ht hs).mono hright
  · intro k wider asked answer hnone h hyes
    rw [assignRun_iff, assignmentTarget, required_eq] at h
    have hfits : ¬ ((source.replaceParam k wider).restVar = none ∧
        source.minArgCount > (source.replaceParam k wider).funcParams.length) := by
      rintro ⟨-, hlt⟩
      have := (source.replaceParam k wider).minArgCount_le
      exact absurd hlt (not_lt.2 this)
    rw [if_neg hfits] at h
    obtain ⟨l₁, l₂, found, r₁, rfl, hparams, htail⟩ := SignatureRelating.run_bind h
    have hrest : (source.replaceParam k wider).restVar = none := hnone
    rw [hrest] at hparams
    have hfound : found = true := by
      refine assignParams_of_told hparams fun q hq ⟨i, hi, hw⟩ => ?_
      refine hyes q (List.mem_append_left _ hq) ?_
      by_cases hik : k = i
      · subst hik
        have hlt : k < source.funcParams.length := (List.getElem?_eq_some_iff.1 hi).1
        have hset : (source.funcParams.set k wider)[k]? = some wider := List.getElem?_set_self hlt
        exact .inr ⟨hi, Option.some.inj (hw.symm.trans hset)⟩
      · left
        have : source.funcParams[i]? = some q.1.target := by
          rw [← List.getElem?_set_ne hik]
          exact hw
        rw [hi] at this
        exact Option.some.inj this
    subst hfound
    obtain ⟨a, l₃, rfl, hreturn⟩ := SignatureRelating.run_isAssignableTo_bind htail
    have ha : a = .true :=
      hyes (⟨r₁, source.returnType, source.returnType⟩, a)
        (List.mem_append_right _ List.mem_cons_self) (.inl rfl)
    subst ha
    rw [hrest] at hreturn
    cases hreturn
    rfl

/-- `(a: 1) => 0` for `(a: 2) => 0`. -/
theorem assigned_signatures_one :
    Told [(⟨.true, 1, 2⟩, .true), (⟨.true, 0, 0⟩, .true)] 1 2 :=
  ((assigned_signatures ⟨0, [2], 1, none, 0, by simp⟩ ⟨1, [1], 1, none, 0, by simp⟩ .true).1
    [(⟨.true, 1, 2⟩, .true), (⟨.true, 0, 0⟩, .true)] (.call _ (.call _ (.ret _)))).2.1 0 2 1 rfl rfl (.inl ⟨rfl, by simp⟩)

/-- An optional parameter of the target may be left out where the source requires it; a parameter of
the target that has a rest parameter as well is not compared, nor is one that the source's rest
parameter takes; and then a signature may be refused for itself. -/
theorem assignment_not_sound :
    (∃ asked, AssignRun ⟨0, [0], 0, none, 0, by simp⟩ ⟨1, [0], 1, none, 0, by simp⟩ .true asked .true ∧
      acceptsCount ⟨0, [0], 0, none, 0, by simp⟩ 0 ∧ ¬ acceptsCount ⟨1, [0], 1, none, 0, by simp⟩ 0) ∧
    (∃ asked, AssignRun ⟨0, [1], 1, some 2, 0, by simp⟩ ⟨1, [0], 1, none, 0, by simp⟩ .true asked .true ∧
      argType ⟨0, [1], 1, some 2, 0, by simp⟩ 0 = some 1 ∧
      argType ⟨1, [0], 1, none, 0, by simp⟩ 0 = some 0 ∧ ¬ Told asked 0 1 ∧ ¬ Told asked 1 0) ∧
    (∃ asked, AssignRun ⟨0, [1], 1, none, 2, by simp⟩ ⟨1, [], 0, some 0, 2, by simp⟩ .true asked .true ∧
      argType ⟨0, [1], 1, none, 2, by simp⟩ 0 = some 1 ∧
      argType ⟨1, [], 0, some 0, 2, by simp⟩ 0 = some 0 ∧ ¬ Told asked 0 1 ∧ ¬ Told asked 1 0) ∧
    ∃ asked, AssignRun (replaceParam ⟨0, [1], 1, some 2, 0, by simp⟩ 0 1)
        ⟨0, [1], 1, some 2, 0, by simp⟩ .true asked .false ∧
      ∀ q ∈ asked, q.1.source = q.1.target ∨ q.1.target = 1 → q.2 = .true := by
  refine ⟨⟨[(⟨.true, 0, 0⟩, .true), (⟨.true, 0, 0⟩, .true)], ?_, ?_, ?_⟩,
    ⟨[(⟨.true, 0, 2⟩, .true), (⟨.true, 0, 0⟩, .true)], ?_, rfl, rfl, ?_, ?_⟩,
    ⟨[(⟨.true, 2, 2⟩, .true)], ?_, rfl, rfl, ?_, ?_⟩, [(⟨.true, 1, 2⟩, .false)], ?_, ?_⟩
  · exact .call _ (.call _ (.ret _))
  · simp [acceptsCount]
  · simp [acceptsCount]
  · exact .call _ (.call _ (.ret _))
  · simp [Told]
  · simp [Told]
  · exact .call _ (.ret _)
  · simp [Told]
  · simp [Told]
  · exact .call _ (.ret _)
  · simp

end Signature

end Es2panda.Checker
