import ArkTs2abc.StructuredCode

/-!
# Processes

A process changes a store and ends with a value, with an exception, or without either when its fuel
is used up. A piece of structured code follows a process when it ends as the process does.

## Main definitions

* `Process`, `Process.handle` — processes and their exception handlers.
* `Follows` — a run of code ends as a process does.

## Main results

* `Follows.seq`, `Follows.op`, `Follows.tryRange` — how code follows a process.
-/

namespace StructuredCode

/-- How a process ends. -/
inductive Ending (ε α : Type) where
  | value (a : α)
  | thrown (e : ε)
  | outOfFuel
  deriving DecidableEq, Repr

def Process (τ ε α : Type) : Type := τ → Ending ε α × τ

namespace Process

variable {τ ε α β γ : Type}

def andThen (m : Process τ ε α) (f : α → Process τ ε β) : Process τ ε β := fun t =>
  match m t with
  | (.value a, t') => f a t'
  | (.thrown e, t') => (.thrown e, t')
  | (.outOfFuel, t') => (.outOfFuel, t')

instance : Monad (Process τ ε) where
  pure a := fun t => (.value a, t)
  bind := andThen

/-- An exception goes to a handler. -/
def handle (m : Process τ ε α) (handler : ε → Process τ ε α) : Process τ ε α := fun t =>
  match m t with
  | (.thrown e, t') => handler e t'
  | r => r

def throwing (e : ε) : Process τ ε α := fun t => (.thrown e, t)

def noFuel : Process τ ε α := fun t => (.outOfFuel, t)

def modify (f : τ → τ) : Process τ ε Unit := fun t => (.value (), f t)

def get : Process τ ε τ := fun t => (.value t, t)

@[simp] theorem get_bind (f : τ → Process τ ε β) (t : τ) : (get >>= f) t = f t t := rfl

@[simp] theorem modify_bind (g : τ → τ) (f : Unit → Process τ ε β) (t : τ) :
    (modify g >>= f) t = f () (g t) := rfl

@[simp] theorem pure_bind (a : α) (f : α → Process τ ε β) (t : τ) : (pure a >>= f) t = f a t := rfl

theorem bind_value {m : Process τ ε α} {t t' : τ} {a : α} (h : m t = (.value a, t'))
    (f : α → Process τ ε β) : (m >>= f) t = f a t' := by
  change andThen m f t = _
  rw [andThen, h]

theorem bind_thrown {m : Process τ ε α} {t t' : τ} {e : ε} (h : m t = (.thrown e, t'))
    (f : α → Process τ ε β) : (m >>= f) t = (.thrown e, t') := by
  change andThen m f t = _
  rw [andThen, h]

theorem bind_outOfFuel {m : Process τ ε α} {t t' : τ} (h : m t = (.outOfFuel, t'))
    (f : α → Process τ ε β) : (m >>= f) t = (.outOfFuel, t') := by
  change andThen m f t = _
  rw [andThen, h]

theorem bind_congr_value {m : Process τ ε α} {f g : α → Process τ ε β} {t : τ}
    (h : ∀ a t', m t = (.value a, t') → f a t' = g a t') : (m >>= f) t = (m >>= g) t := by
  cases hm : m t with
  | mk r t' =>
    cases r with
    | value a => rw [bind_value hm, bind_value hm, h a t' hm]
    | thrown e => rw [bind_thrown hm, bind_thrown hm]
    | outOfFuel => rw [bind_outOfFuel hm, bind_outOfFuel hm]

theorem bind_assoc (m : Process τ ε α) (f : α → Process τ ε β) (g : β → Process τ ε γ) :
    (m >>= f) >>= g = m >>= fun a => f a >>= g := by
  funext t
  cases h : m t with
  | mk r t' =>
    cases r with
    | value a =>
      rw [bind_value h]
      change andThen (m >>= f) g t = _
      rw [andThen, bind_value h]
      rfl
    | thrown e => rw [bind_thrown h, bind_thrown (bind_thrown h f)]
    | outOfFuel => rw [bind_outOfFuel h, bind_outOfFuel (bind_outOfFuel h f)]

theorem handle_value {m : Process τ ε α} {t t' : τ} {a : α} (h : m t = (.value a, t'))
    (f : ε → Process τ ε α) : m.handle f t = (.value a, t') := by
  rw [handle, h]

theorem handle_thrown {m : Process τ ε α} {t t' : τ} {e : ε} (h : m t = (.thrown e, t'))
    (f : ε → Process τ ε α) : m.handle f t = f e t' := by
  rw [handle, h]

theorem of_bind_value {m : Process τ ε α} {f : α → Process τ ε β} {t t'' : τ} {b : β}
    (h : (m >>= f) t = (.value b, t'')) : ∃ a t', m t = (.value a, t') ∧ f a t' = (.value b, t'') := by
  cases hm : m t with
  | mk r t' =>
    cases r with
    | value a => exact ⟨a, t', rfl, (bind_value hm f).symm.trans h⟩
    | thrown e => cases (bind_thrown hm f).symm.trans h
    | outOfFuel => cases (bind_outOfFuel hm f).symm.trans h

theorem outOfFuel_of_bind {m : Process τ ε α} {t : τ} (h : (m t).1 = .outOfFuel)
    (f : α → Process τ ε β) : ((m >>= f) t).1 = .outOfFuel := by
  change (andThen m f t).1 = _
  rw [andThen]
  split <;> simp_all

theorem outOfFuel_of_handle {m : Process τ ε α} {t : τ} (h : (m t).1 = .outOfFuel)
    (f : ε → Process τ ε α) : (m.handle f t).1 = .outOfFuel := by
  rw [handle]
  split <;> simp_all

theorem bind_induction {m : Process τ ε α} {f : α → Process τ ε β} {t : τ} {P : τ → Prop}
    (h : P (m t).2) (hf : ∀ a t', P t' → P (f a t').2) : P ((m >>= f) t).2 := by
  cases hm : m t with
  | mk r t' =>
    rw [hm] at h
    cases r with
    | value a =>
      rw [bind_value hm]
      exact hf a t' h
    | thrown e =>
      rw [bind_thrown hm]
      exact h
    | outOfFuel =>
      rw [bind_outOfFuel hm]
      exact h

theorem handle_induction {m : Process τ ε α} {f : ε → Process τ ε α} {t : τ} {P : τ → Prop}
    (h : P (m t).2) (hf : ∀ e t', P t' → P (f e t').2) : P (handle m f t).2 := by
  unfold handle
  cases hm : m t with
  | mk r t' =>
    rw [hm] at h
    cases r with
    | value a => exact h
    | thrown e => exact hf e t' h
    | outOfFuel => exact h

end Process

variable {ι κ l ε σ τ α β : Type}

section Run

variable [DecidableEq l] {S : Semantics ι κ ε σ} {s s' : σ} {i : ι}

theorem run_op_ok (h : S.exec i s = some (.ok (), s')) (fuel : ℕ) :
    (run S fuel (.op i) s : Outcome ε l σ) = some (.normal, s') := by
  change perform (S.exec i s) = _
  rw [h]
  rfl

theorem run_op_error {e : ε} (h : S.exec i s = some (.error e, s')) (fuel : ℕ) :
    (run S fuel (.op i) s : Outcome ε l σ) = some (.thrown e 0, s') := by
  change perform (S.exec i s) = _
  rw [h]
  rfl

theorem run_seq_error {e : ε} (h : S.exec i s = some (.error e, s')) (fuel : ℕ) (c : Code ι κ l) :
    (run S fuel (.seq (.op i) c) s : Outcome ε l σ) = some (.thrown e 0, s') := by
  change andThen (run S fuel (.op i) s) (run S fuel c) = _
  rw [run_op_error h]
  rfl

theorem run_seq_normal {c : Code ι κ l} {fuel : ℕ} (h : run S fuel c s = some (.normal, s'))
    (c' : Code ι κ l) : run S fuel (.seq c c') s = run S fuel c' s' := by
  change andThen (run S fuel c s) (run S fuel c') = _
  rw [h]
  rfl

theorem run_test {q : κ} {b : Bool} (h : S.test q s = some (.ok b, s')) (fuel : ℕ)
    (ifTrue ifFalse : Code ι κ l) :
    run S fuel (.test q ifTrue ifFalse) s = run S fuel (if b then ifTrue else ifFalse) s' := by
  change choose (S.test q s) (run S fuel ifTrue) (run S fuel ifFalse) = _
  rw [h]
  cases b <;> rfl

end Run

/-- The code ends as the process does: normally, or as `ends` says, behind a value. -/
def Follows (ends : α → Result ε l) (Q : α → σ → τ → Prop) (E : ε → σ → τ → Prop)
    (o : Outcome ε l σ) : Ending ε α × τ → Prop
  | (.value a, t) => ∃ s, o = some (ends a, s) ∧ Q a s t
  | (.thrown e, t) => ∃ s, o = some (.thrown e 0, s) ∧ E e s t
  | (.outOfFuel, _) => o = none

namespace Follows

variable {ends : α → Result ε l} {ends' : β → Result ε l} {Q R : α → σ → τ → Prop}
  {Q' : β → σ → τ → Prop} {E E' : ε → σ → τ → Prop} {o : Outcome ε l σ} {r : Ending ε α × τ}

theorem mono (h : Follows ends Q E o r) (hQ : ∀ a s t, Q a s t → R a s t)
    (hE : ∀ e s t, E e s t → E' e s t) : Follows ends R E' o r := by
  match r, h with
  | (.value a, t), ⟨s, ho, hs⟩ => exact ⟨s, ho, hQ a s t hs⟩
  | (.thrown e, t), ⟨s, ho, hs⟩ => exact ⟨s, ho, hE e s t hs⟩
  | (.outOfFuel, t), ho => exact ho

theorem and_store {P : τ → Prop} (h : Follows ends Q E o r) (hr : P r.2) :
    Follows ends (fun a s t => Q a s t ∧ P t) (fun e s t => E e s t ∧ P t) o r := by
  match r, h with
  | (.value a, t), ⟨s, ho, hs⟩ => exact ⟨s, ho, hs, hr⟩
  | (.thrown e, t), ⟨s, ho, hs⟩ => exact ⟨s, ho, hs, hr⟩
  | (.outOfFuel, t), ho => exact ho

theorem discard {m : Process τ ε α} {t : τ} {R : σ → τ → Prop}
    (h : Follows (l := l) (fun _ => .normal) Q E o (m t)) (hQ : ∀ a s t, Q a s t → R s t) :
    Follows (fun _ => .normal) (fun _ => R) E o ((m >>= fun _ => (pure () : Process τ ε Unit)) t) := by
  cases hm : m t with
  | mk r t' =>
    rw [hm] at h
    match r, h with
    | .value a, ⟨s, ho, hs⟩ =>
      rw [Process.bind_value hm]
      exact ⟨s, ho, hQ a s t' hs⟩
    | .thrown e, ⟨s, ho, hs⟩ =>
      rw [Process.bind_thrown hm]
      exact ⟨s, ho, hs⟩
    | .outOfFuel, ho =>
      rw [Process.bind_outOfFuel hm]
      exact ho

theorem landing [DecidableEq l] {name : l} (h : Follows (fun _ => .branched name) Q E o r) :
    Follows (fun _ => .normal) Q E (StructuredCode.landing name o) r := by
  match r, h with
  | (.value a, t), ⟨s, ho, hs⟩ =>
    refine ⟨s, ?_, hs⟩
    rw [ho]
    exact if_pos rfl
  | (.thrown e, t), ⟨s, ho, hs⟩ =>
    refine ⟨s, ?_, hs⟩
    rw [ho]
    rfl
  | (.outOfFuel, t), ho =>
    rw [ho]
    rfl

theorem andThen {m : Process τ ε α} {f : α → Process τ ε β} {t : τ} {rest : σ → Outcome ε l σ}
    (h : Follows (fun _ => .normal) Q E o (m t))
    (hrest : ∀ a s t, Q a s t → Follows ends' Q' E (rest s) (f a t)) :
    Follows ends' Q' E (StructuredCode.andThen o rest) ((m >>= f) t) := by
  cases hm : m t with
  | mk r t' =>
    rw [hm] at h
    match r, h with
    | .value a, ⟨s, ho, hs⟩ =>
      rw [Process.bind_value hm, ho]
      exact hrest a s t' hs
    | .thrown e, ⟨s, ho, hs⟩ =>
      rw [Process.bind_thrown hm, ho]
      exact ⟨s, rfl, hs⟩
    | .outOfFuel, ho =>
      rw [Process.bind_outOfFuel hm, ho]
      rfl

section Run

variable [DecidableEq l] {S : Semantics ι κ ε σ} {fuel : ℕ} {c c' : Code ι κ l} {s s' : σ} {t : τ}

theorem seq {m : Process τ ε α} {f : α → Process τ ε β}
    (h : Follows (fun _ => .normal) Q E (run S fuel c s) (m t))
    (hrest : ∀ a s t, Q a s t → Follows ends' Q' E (run S fuel c' s) (f a t)) :
    Follows ends' Q' E (run S fuel (.seq c c') s) ((m >>= f) t) :=
  h.andThen hrest

theorem seq_skip (h : Follows ends Q E (run S fuel c s) r) :
    Follows ends Q E (run S fuel (.seq c .skip) s) r := by
  have hrun : run S fuel (.seq c .skip) s = run S fuel c s := by
    change StructuredCode.andThen (run S fuel c s) _ = _
    rcases run S fuel c s with _ | ⟨x, s'⟩
    · rfl
    · cases x <;> rfl
  rw [hrun]
  exact h

theorem seq_op {i : ι} (h : Follows (fun _ => .normal) Q E (run S fuel c s) r)
    (hi : ∀ a s t, Q a s t → ∃ s', S.exec i s = some (.ok (), s') ∧ R a s' t) :
    Follows (fun _ => .normal) R E (run S fuel (.seq c (.op i)) s) r := by
  match r, h with
  | (.value a, t), ⟨s₁, ho, hs⟩ =>
    obtain ⟨s₂, hexec, hs₂⟩ := hi a s₁ t hs
    refine ⟨s₂, ?_, hs₂⟩
    rw [run_seq_normal ho]
    exact run_op_ok hexec fuel
  | (.thrown e, t), ⟨s₁, ho, hs⟩ =>
    refine ⟨s₁, ?_, hs⟩
    change StructuredCode.andThen (run S fuel c s) _ = _
    rw [ho]
    rfl
  | (.outOfFuel, t), ho =>
    change StructuredCode.andThen (run S fuel c s) _ = _
    rw [show run S fuel c s = none from ho]
    rfl

theorem op {i : ι} (h : S.exec i s = some (.ok (), s'))
    (hrest : Follows ends Q E (run S fuel c s') r) :
    Follows ends Q E (run S fuel (.seq (.op i) c) s) r := by
  change Follows ends Q E (StructuredCode.andThen (perform (S.exec i s)) (run S fuel c)) r
  rw [h]
  exact hrest

theorem tryRange {m : Process τ ε α} {handler : ε → Process τ ε α}
    (h : Follows ends Q E' (run S fuel c s) (m t))
    (hhandler : ∀ e s t, E' e s t → Follows ends Q E (run S fuel c' (S.catching e s)) (handler e t))
    (hends : ∀ a e n, ends a ≠ .thrown e n) :
    Follows ends Q E (run S fuel (.tryRange c c') s) (m.handle handler t) := by
  unfold run Process.handle
  cases hm : m t with
  | mk r t' =>
    rw [hm] at h
    cases r with
    | value a =>
      obtain ⟨s', ho, hs⟩ := h
      refine ⟨s', ?_, hs⟩
      rw [ho]
      cases ha : ends a with
      | thrown e n => exact absurd ha (hends a e n)
      | _ => rfl
    | thrown e =>
      obtain ⟨s', ho, hs⟩ := h
      rw [ho]
      exact hhandler e s' t' hs
    | outOfFuel =>
      rw [show _ = _ from h]
      rfl

end Run

end Follows

end StructuredCode
