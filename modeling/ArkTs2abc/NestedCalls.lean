import Mathlib.Data.Finite.Prod
import Mathlib.Data.Fintype.Pigeonhole
import Mathlib.Logic.Relation
import Mathlib.Order.OrderIsoNat

/-!
# Nested calls

A body says how a query is answered: it reads and writes a state, calls for the answers to further
queries and ends with the answer to its own. Nothing bounds how deep the calls are nested, so a run
has fuel for the depth.

## Main definitions

* `Computation` — what the body of a query may do.
* `answer` — the answer to a query with fuel for the depth of the calls.
* `Nested` — one call is made while another one is going on.
* `Recurs` — a call is made again inside itself, with the state as it was.

## Main results

* `answered_iff_acc` — a call is answered if and only if the nesting of calls below it is well founded.
* `answered_iff_not_recurs` — with finitely many queries and states a call is answered if and only if
  no call below it is made again inside itself with the state as it was.
-/

namespace NestedCalls

inductive Computation (Q A σ α : Type) : Type where
  | ret (a : α)
  | call (q : Q) (k : A → Computation Q A σ α)
  | read (k : σ → Computation Q A σ α)
  | write (s : σ) (k : Computation Q A σ α)

namespace Computation

variable {Q A σ α β γ : Type}

def andThen (f : α → Computation Q A σ β) : Computation Q A σ α → Computation Q A σ β
  | ret a => f a
  | call q k => call q fun a => (k a).andThen f
  | read k => read fun s => (k s).andThen f
  | write s k => write s (k.andThen f)

instance : Monad (Computation Q A σ) where
  pure := ret
  bind c f := c.andThen f

@[simp] theorem call_bind (q : Q) (k : A → Computation Q A σ α) (f : α → Computation Q A σ β) :
    (call q k >>= f) = call q fun a => k a >>= f := rfl

/-- Runs a computation with the answers of `f`. -/
def exec (f : Q → σ → Option (A × σ)) : Computation Q A σ α → σ → Option (α × σ)
  | ret a, s => some (a, s)
  | call q k, s =>
    match f q s with
    | some (a, s') => (k a).exec f s'
    | none => none
  | read k, s => (k s).exec f s
  | write s' k, _ => k.exec f s'

variable {f : Q → σ → Option (A × σ)} {c : Computation Q A σ α}

attribute [local simp] exec in
theorem exec_call_some {q : Q} {s s' : σ} {a : A} (h : f q s = some (a, s'))
    (k : A → Computation Q A σ α) :
    (call q k).exec f s = (k a).exec f s' := by
  rw [exec, h]

theorem exec_bind (f : Q → σ → Option (A × σ)) (c : Computation Q A σ α)
    (g : α → Computation Q A σ β) (s : σ) :
    (c >>= g).exec f s = (c.exec f s).bind fun r => (g r.1).exec f r.2 := by
  induction c generalizing s with
  | ret a => rfl
  | call q k ih =>
    rw [call_bind, exec, exec]
    cases f q s with
    | none => rfl
    | some r => exact ih r.1 r.2
  | read k ih => exact ih s s
  | write t k ih => exact ih t

theorem exec_mono {g : Q → σ → Option (A × σ)} (hfg : ∀ q s r, f q s = some r → g q s = some r)
    {s : σ} {r : α × σ} (h : c.exec f s = some r) : c.exec g s = some r := by
  induction c generalizing s with
  | ret a => exact h
  | call q k ih =>
    cases hq : f q s with
    | none =>
      rw [exec, hq] at h
      cases h
    | some p =>
      obtain ⟨a, t⟩ := p
      rw [exec_call_some hq] at h
      rw [exec_call_some (hfg q s _ hq)]
      exact ih a h
  | read k ih => exact ih s h
  | write t k ih => exact ih h

/-- Whatever a computation writes has a property, if what it reads has it. -/
def Keeps (I : σ → Prop) : Computation Q A σ α → Prop
  | ret _ => True
  | call _ k => ∀ a, (k a).Keeps I
  | read k => ∀ s, I s → (k s).Keeps I
  | write s k => I s ∧ k.Keeps I

variable {I : σ → Prop}

theorem Keeps.bind {f : α → Computation Q A σ β} (hc : c.Keeps I) (hf : ∀ a, (f a).Keeps I) :
    (c >>= f).Keeps I := by
  induction c with
  | ret a => exact hf a
  | call q k ih => exact fun a => ih a (hc a)
  | read k ih => exact fun s hs => ih s (hc s hs)
  | write s k ih => exact ⟨hc.1, ih hc.2⟩

theorem Keeps.exec (hf : ∀ {q s r}, I s → f q s = some r → I r.2) (hc : c.Keeps I) {s : σ}
    {r : α × σ} (hs : I s) (h : c.exec f s = some r) : I r.2 := by
  induction c generalizing s with
  | ret a =>
    cases h
    exact hs
  | call q k ih =>
    cases hq : f q s with
    | none =>
      rw [Computation.exec, hq] at h
      cases h
    | some p =>
      obtain ⟨a, t⟩ := p
      rw [exec_call_some hq] at h
      exact ih a (hc a) (hf hs hq) h
  | read k ih => exact ih s (hc s hs) hs h
  | write t k ih => exact ih hc.2 hc.1 h

end Computation

open Computation

variable {Q A σ α : Type} {body : Q → Computation Q A σ A}

/-- The answer to a query, with fuel for the depth of the calls. -/
def answer (body : Q → Computation Q A σ A) : ℕ → Q → σ → Option (A × σ)
  | 0, _, _ => none
  | n + 1, q, s => (body q).exec (answer body n) s

variable {s : σ}

theorem answer_succ_of {n : ℕ} {q : Q} {r : A × σ} (h : answer body n q s = some r) :
    answer body (n + 1) q s = some r := by
  induction n generalizing q s r with
  | zero => cases h
  | succ n ih => exact exec_mono (fun q s r => ih) h

theorem answer_mono {m n : ℕ} (hmn : m ≤ n) {q : Q} {r : A × σ} (h : answer body m q s = some r) :
    answer body n q s = some r := by
  induction hmn with
  | refl => exact h
  | step _ ih => exact answer_succ_of ih

/-- The answer to a query and the state behind it, with fuel enough. -/
def Answers (body : Q → Computation Q A σ A) (q : Q) (s : σ) (r : A × σ) : Prop :=
  ∃ n, answer body n q s = some r

def Answered (body : Q → Computation Q A σ A) (q : Q) (s : σ) : Prop := ∃ r, Answers body q s r

theorem Answers.unique {q : Q} {r r' : A × σ} (h : Answers body q s r) (h' : Answers body q s r') :
    r = r' := by
  obtain ⟨n, hn⟩ := h
  obtain ⟨m, hm⟩ := h'
  have hr := answer_mono (Nat.le_max_left n m) hn
  rw [answer_mono (Nat.le_max_right n m) hm] at hr
  exact (Option.some.inj hr).symm

/-- What a computation comes to, with fuel enough for the calls. -/
def Computation.Results (body : Q → Computation Q A σ A) (c : Computation Q A σ α) (s : σ)
    (r : α × σ) : Prop :=
  ∃ n, c.exec (answer body n) s = some r

/-- A computation comes to call for an answer. -/
inductive Calls (body : Q → Computation Q A σ A) : Computation Q A σ α → σ → Q → σ → Prop where
  | here (q : Q) (k : A → Computation Q A σ α) (s : σ) : Calls body (.call q k) s q s
  | later {q q' : Q} {k : A → Computation Q A σ α} {s s' t : σ} {a : A}
      (answered : Answers body q s (a, s')) (rest : Calls body (k a) s' q' t) :
      Calls body (.call q k) s q' t
  | read {k : σ → Computation Q A σ α} {s t : σ} {q : Q} (rest : Calls body (k s) s q t) :
      Calls body (.read k) s q t
  | write {k : Computation Q A σ α} {s s' t : σ} {q : Q} (rest : Calls body k s' q t) :
      Calls body (.write s' k) s q t

/-- The first call is made while the second one is going on. -/
def Nested (body : Q → Computation Q A σ A) (p c : Q × σ) : Prop :=
  Calls body (body c.1) c.2 p.1 p.2

theorem answered_of_calls {n : ℕ} {c : Computation Q A σ α} {t : σ} {q : Q} {r : α × σ}
    (h : Calls body c s q t) (he : c.exec (answer body n) s = some r) :
    ∃ r', answer body n q t = some r' := by
  induction h with
  | here q k s =>
    cases hq : answer body n q s with
    | none =>
      rw [exec, hq] at he
      cases he
    | some r' => exact ⟨r', rfl⟩
  | @later q q' k s s' t a answered _ ih =>
    cases hq : answer body n q s with
    | none =>
      rw [exec, hq] at he
      cases he
    | some p =>
      have hp : p = (a, s') := Answers.unique ⟨n, hq⟩ answered
      subst hp
      rw [exec_call_some hq] at he
      exact ih he
  | read _ ih => exact ih he
  | write _ ih => exact ih he

theorem exists_exec {c : Computation Q A σ α} (h : ∀ q t, Calls body c s q t → Answered body q t) :
    ∃ r, c.Results body s r := by
  induction c generalizing s with
  | ret a => exact ⟨(a, s), 0, rfl⟩
  | call q k ih =>
    obtain ⟨⟨a, s'⟩, m, hm⟩ := h q s (.here q k s)
    obtain ⟨r, n, hn⟩ := ih a fun q' t hc => h q' t (.later ⟨m, hm⟩ hc)
    refine ⟨r, max m n, ?_⟩
    rw [exec_call_some (answer_mono (Nat.le_max_left m n) hm)]
    exact exec_mono (fun _ _ _ => answer_mono (Nat.le_max_right m n)) hn
  | read k ih => exact ih s fun q t hc => h q t (.read hc)
  | write s' k ih => exact ih fun q t hc => h q t (.write hc)

theorem answered_iff_acc {q : Q} : Answered body q s ↔ Acc (Nested body) (q, s) := by
  constructor
  · rintro ⟨r, n, h⟩
    induction n generalizing q s r with
    | zero => cases h
    | succ n ih =>
      refine ⟨_, fun p hp => ?_⟩
      obtain ⟨r', hr'⟩ := answered_of_calls hp h
      exact ih r' hr'
  · intro hacc
    generalize hc : (q, s) = c at hacc
    induction hacc generalizing q s with
    | intro c _ ih =>
      subst hc
      obtain ⟨r, n, hn⟩ := exists_exec fun q t hcalls => ih (q, t) hcalls rfl
      exact ⟨r, n + 1, hn⟩

/-- A call below `c`, or `c`, is made again inside itself, with the state as it was. -/
def Recurs (body : Q → Computation Q A σ A) (c : Q × σ) : Prop :=
  ∃ d, Relation.ReflTransGen (fun a b => Nested body b a) c d ∧ Relation.TransGen (Nested body) d d

theorem not_rel_self_of_acc {γ : Type} {r : γ → γ → Prop} {c : γ} (h : Acc r c) : ¬ r c c := by
  induction h with
  | intro c _ ih => exact fun hc => ih c hc hc

theorem not_recurs_of_acc {c : Q × σ} (hacc : Acc (Nested body) c) : ¬ Recurs body c := by
  rintro ⟨d, hreach, hloop⟩
  have hd : Acc (Nested body) d := by
    clear hloop
    induction hreach with
    | refl => exact hacc
    | tail _ hstep ih => exact ih.inv hstep
  exact not_rel_self_of_acc hd.transGen hloop

/-- With finitely many queries and states a call is answered if and only if no call below it is made
again inside itself with the state as it was. -/
theorem answered_iff_not_recurs [Finite Q] [Finite σ] {q : Q} :
    Answered body q s ↔ ¬ Recurs body (q, s) := by
  rw [answered_iff_acc]
  constructor
  · exact not_recurs_of_acc
  · intro hrec
    by_contra hacc
    obtain ⟨f, hf0, hstep⟩ := not_acc_iff_exists_descending_chain.1 hacc
    have hchain : ∀ m n, m < n → Relation.TransGen (Nested body) (f n) (f m) := by
      intro m n hmn
      induction hmn with
      | refl => exact .single (hstep m)
      | step _ ih => exact .head (hstep _) ih
    have hreach : ∀ n, Relation.ReflTransGen (fun a b => Nested body b a) (q, s) (f n) := by
      intro n
      induction n with
      | zero => rw [hf0]
      | succ n ih => exact ih.tail (hstep n)
    obtain ⟨m, n, hne, hmn⟩ := Finite.exists_ne_map_eq_of_infinite f
    rcases Nat.lt_or_gt_of_ne hne with hlt | hlt
    · exact hrec ⟨f m, hreach m, by simpa [hmn] using hchain m n hlt⟩
    · exact hrec ⟨f n, hreach n, by simpa [hmn] using hchain n m hlt⟩

end NestedCalls
