import ArkTs2abc.NestedCalls

/-!
# Memoized calls

A query answered by a tree of further queries, and a body that answers it with a memory of earlier
answers in its state. As long as the memory holds right answers only, the memory changes no answer.

## Main definitions

* `Tree` — how a query is answered from the answers to others, without a state.
* `TreeAnswers` — the answer the trees give.
* `Memoizes` — a body answers the queries from memory or by their trees.

## Main results

* `Memoizes.results_iff` — computations that only put queries end as the trees say.
-/

namespace NestedCalls

inductive Tree (Q A α : Type) : Type where
  | ret (a : α)
  | call (q : Q) (k : A → Tree Q A α)

namespace Tree

variable {Q Q' A σ α β : Type}

def andThen (f : α → Tree Q A β) : Tree Q A α → Tree Q A β
  | ret a => f a
  | call q k => call q fun a => (k a).andThen f

instance : Monad (Tree Q A) where
  pure := ret
  bind c f := c.andThen f

def exec (f : Q → Option A) : Tree Q A α → Option α
  | ret a => some a
  | call q k =>
    match f q with
    | some a => (k a).exec f
    | none => none

theorem exec_call_some {f : Q → Option A} {q : Q} {a : A} (h : f q = some a) (k : A → Tree Q A α) :
    (call q k).exec f = (k a).exec f := by
  rw [exec, h]

theorem exec_mono {f g : Q → Option A} (hfg : ∀ q a, f q = some a → g q = some a) {c : Tree Q A α}
    {r : α} (h : c.exec f = some r) : c.exec g = some r := by
  induction c with
  | ret a => exact h
  | call q k ih =>
    cases hq : f q with
    | none =>
      rw [exec, hq] at h
      cases h
    | some a =>
      rw [exec_call_some hq] at h
      rw [exec_call_some (hfg q a hq)]
      exact ih a h

/-- A way from the root to a leaf, whatever the answers are: the queries put and their answers. -/
inductive Run : Tree Q A α → List (Q × A) → α → Prop where
  | ret (a : α) : Run (.ret a) [] a
  | call {q : Q} {k : A → Tree Q A α} {l : List (Q × A)} {r : α} (a : A) (rest : Run (k a) l r) :
      Run (.call q k) ((q, a) :: l) r

theorem run_bind_iff {c : Tree Q A α} {g : α → Tree Q A β} {l : List (Q × A)} {r : β} :
    (c >>= g).Run l r ↔ ∃ l₁ l₂ a, l = l₁ ++ l₂ ∧ c.Run l₁ a ∧ (g a).Run l₂ r := by
  constructor
  · intro h
    induction c generalizing l with
    | ret a => exact ⟨[], l, a, rfl, .ret a, h⟩
    | call q k ih =>
      cases h with
      | call b rest =>
        obtain ⟨l₁, l₂, a, rfl, ha, hr⟩ := ih b rest
        exact ⟨(q, b) :: l₁, l₂, a, rfl, .call b ha, hr⟩
  · rintro ⟨l₁, l₂, a, rfl, ha, hr⟩
    induction ha with
    | ret a => exact hr
    | call b _ ih => exact .call b (ih hr)

/-- A tree as a computation that leaves the state alone between its calls. -/
def lift (e : Q → Q') : Tree Q A α → Computation Q' A σ α
  | ret a => .ret a
  | call q k => .call (e q) fun a => (k a).lift e

theorem keeps_lift {I : σ → Prop} {e : Q → Q'} (c : Tree Q A α) :
    (c.lift e : Computation Q' A σ α).Keeps I := by
  induction c with
  | ret a => trivial
  | call q k ih => exact ih

end Tree

variable {Q Q' A σ α β : Type}

/-- The answer of the trees, with fuel for the depth of the calls. -/
def treeAnswer (tree : Q → Tree Q A A) : ℕ → Q → Option A
  | 0, _ => none
  | n + 1, q => (tree q).exec (treeAnswer tree n)

theorem treeAnswer_succ_of {tree : Q → Tree Q A A} {n : ℕ} {q : Q} {a : A}
    (h : treeAnswer tree n q = some a) : treeAnswer tree (n + 1) q = some a := by
  induction n generalizing q a with
  | zero => cases h
  | succ n ih => exact Tree.exec_mono (fun q a => ih) h

theorem treeAnswer_mono {tree : Q → Tree Q A A} {m n : ℕ} (hmn : m ≤ n) {q : Q} {a : A}
    (h : treeAnswer tree m q = some a) : treeAnswer tree n q = some a := by
  induction hmn with
  | refl => exact h
  | step _ ih => exact treeAnswer_succ_of ih

def TreeAnswers (tree : Q → Tree Q A A) (q : Q) (a : A) : Prop :=
  ∃ n, treeAnswer tree n q = some a

/-- What a tree comes to when its queries are answered by trees. -/
inductive TreeResults (tree : Q → Tree Q A A) : Tree Q A α → α → Prop where
  | ret (a : α) : TreeResults tree (.ret a) a
  | call {q : Q} {k : A → Tree Q A α} {a : A} {r : α} (answered : TreeAnswers tree q a)
      (rest : TreeResults tree (k a) r) : TreeResults tree (.call q k) r

variable {tree : Q → Tree Q A A}

theorem treeResults_iff {c : Tree Q A α} {r : α} :
    TreeResults tree c r ↔ ∃ n, c.exec (treeAnswer tree n) = some r := by
  constructor
  · intro h
    induction h with
    | ret a => exact ⟨0, rfl⟩
    | call answered _ ih =>
      obtain ⟨m, hm⟩ := answered
      obtain ⟨n, hn⟩ := ih
      refine ⟨max m n, ?_⟩
      rw [Tree.exec_call_some (treeAnswer_mono (Nat.le_max_left m n) hm)]
      exact Tree.exec_mono (fun _ _ => treeAnswer_mono (Nat.le_max_right m n)) hn
  · rintro ⟨n, h⟩
    induction c with
    | ret a =>
      cases h
      exact .ret _
    | call q k ih =>
      cases hq : treeAnswer tree n q with
      | none =>
        rw [Tree.exec, hq] at h
        cases h
      | some a =>
        rw [Tree.exec_call_some hq] at h
        exact .call ⟨n, hq⟩ (ih a h)

theorem treeAnswers_iff {q : Q} {a : A} : TreeAnswers tree q a ↔ TreeResults tree (tree q) a := by
  rw [treeResults_iff]
  constructor
  · rintro ⟨_ | n, h⟩
    · cases h
    · exact ⟨n, h⟩
  · rintro ⟨n, h⟩
    exact ⟨n + 1, h⟩

theorem TreeAnswers.unique {q : Q} {a b : A} (h : TreeAnswers tree q a) (h' : TreeAnswers tree q b) :
    a = b := by
  obtain ⟨n, hn⟩ := h
  obtain ⟨m, hm⟩ := h'
  have ha := treeAnswer_mono (Nat.le_max_left n m) hn
  rw [treeAnswer_mono (Nat.le_max_right n m) hm] at ha
  exact (Option.some.inj ha).symm

theorem treeResults_call_iff {q : Q} {k : A → Tree Q A α} {r : α} :
    TreeResults tree (.call q k) r ↔ ∃ a, TreeAnswers tree q a ∧ TreeResults tree (k a) r := by
  constructor
  · rintro (_ | ⟨answered, rest⟩)
    exact ⟨_, answered, rest⟩
  · rintro ⟨a, answered, rest⟩
    exact .call answered rest

theorem treeResults_ret_iff {a r : α} : TreeResults tree (.ret a) r ↔ r = a := by
  constructor
  · intro h
    cases h
    rfl
  · rintro rfl
    exact .ret _

theorem treeResults_bind_iff {c : Tree Q A α} {g : α → Tree Q A β} {r : β} :
    TreeResults tree (c >>= g) r ↔ ∃ a, TreeResults tree c a ∧ TreeResults tree (g a) r := by
  constructor
  · intro h
    induction c with
    | ret a => exact ⟨a, .ret a, h⟩
    | call q k ih =>
      cases h with
      | call answered rest =>
        obtain ⟨a, ha, hr⟩ := ih _ rest
        exact ⟨a, .call answered ha, hr⟩
  · rintro ⟨a, ha, hr⟩
    induction ha with
    | ret a => exact hr
    | call answered _ ih => exact .call answered (ih hr)

/-- A body answers the queries of trees, `e` being their name for it: in a sound state either at once,
rightly, or as the tree does, with a change to the state that keeps it sound if the answer is right. -/
structure Memoizes (tree : Q → Tree Q A A) (body : Q' → Computation Q' A σ A) (e : Q → Q')
    (Sound : σ → Prop) : Prop where
  step : ∀ q s, Sound s →
    (∃ a, TreeAnswers tree q a ∧ ∀ f, (body (e q)).exec f s = some (a, s)) ∨
    ∃ post : A → σ → σ,
      (∀ f, (body (e q)).exec f s =
        (((tree q).lift e).exec f s).map fun r => (r.1, post r.1 r.2)) ∧
      ∀ a s', TreeAnswers tree q a → Sound s' → Sound (post a s')

namespace Memoizes

variable {body : Q' → Computation Q' A σ A} {e : Q → Q'} {Sound : σ → Prop}

theorem exec_lift_sound {n : ℕ}
    (ih : ∀ {q s r}, Sound s → answer body n (e q) s = some r → TreeAnswers tree q r.1 ∧ Sound r.2)
    {c : Tree Q A α} {s : σ} {r : α × σ} (hs : Sound s)
    (h : (c.lift e).exec (answer body n) s = some r) : TreeResults tree c r.1 ∧ Sound r.2 := by
  induction c generalizing s with
  | ret a =>
    cases h
    exact ⟨.ret a, hs⟩
  | call q k ihc =>
    rw [Tree.lift] at h
    cases hq : answer body n (e q) s with
    | none =>
      rw [Computation.exec, hq] at h
      cases h
    | some p =>
      obtain ⟨a, t⟩ := p
      rw [Computation.exec_call_some hq] at h
      obtain ⟨ha, ht⟩ := ih hs hq
      obtain ⟨hr, hr'⟩ := ihc a ht h
      exact ⟨.call ha hr, hr'⟩

theorem answer_sound (m : Memoizes tree body e Sound) {n : ℕ} {q : Q} {s : σ} {r : A × σ}
    (hs : Sound s) (h : answer body n (e q) s = some r) : TreeAnswers tree q r.1 ∧ Sound r.2 := by
  induction n generalizing q s r with
  | zero => cases h
  | succ n ih =>
    rw [answer] at h
    rcases m.step q s hs with ⟨a, ha, hexec⟩ | ⟨post, hexec, hpost⟩
    · rw [hexec] at h
      cases h
      exact ⟨ha, hs⟩
    · rw [hexec, Option.map_eq_some_iff] at h
      obtain ⟨⟨a, t⟩, hc, rfl⟩ := h
      obtain ⟨hr, ht⟩ := exec_lift_sound ih hs hc
      have ha : TreeAnswers tree q a := treeAnswers_iff.2 hr
      exact ⟨ha, hpost a t ha ht⟩

theorem exec_lift_complete {n : ℕ}
    (ih : ∀ {q a} s, Sound s → treeAnswer tree n q = some a →
      ∃ m s', answer body m (e q) s = some (a, s') ∧ Sound s')
    {c : Tree Q A α} {s : σ} {r : α} (hs : Sound s) (h : c.exec (treeAnswer tree n) = some r) :
    ∃ m s', (c.lift e).exec (answer body m) s = some (r, s') ∧ Sound s' := by
  induction c generalizing s with
  | ret a =>
    cases h
    exact ⟨0, s, rfl, hs⟩
  | call q k ihc =>
    cases hq : treeAnswer tree n q with
    | none =>
      rw [Tree.exec, hq] at h
      cases h
    | some a =>
      rw [Tree.exec_call_some hq] at h
      obtain ⟨m, t, hm, ht⟩ := ih s hs hq
      obtain ⟨m', t', hm', ht'⟩ := ihc a ht h
      refine ⟨max m m', t', ?_, ht'⟩
      rw [Tree.lift, Computation.exec_call_some (answer_mono (Nat.le_max_left m m') hm)]
      exact Computation.exec_mono (fun _ _ _ => answer_mono (Nat.le_max_right m m')) hm'

theorem answer_complete (m : Memoizes tree body e Sound) {n : ℕ} {q : Q} {a : A} (s : σ)
    (hs : Sound s) (h : treeAnswer tree n q = some a) :
    ∃ m s', answer body m (e q) s = some (a, s') ∧ Sound s' := by
  induction n generalizing q s a with
  | zero => cases h
  | succ n ih =>
    have ha : TreeAnswers tree q a := ⟨n + 1, h⟩
    rcases m.step q s hs with ⟨b, hb, hexec⟩ | ⟨post, hexec, hpost⟩
    · obtain rfl := ha.unique hb
      exact ⟨1, s, hexec _, hs⟩
    · obtain ⟨k, t, hk, ht⟩ := exec_lift_complete (fun {q a} s hs h => ih s hs h) hs h
      refine ⟨k + 1, post a t, ?_, hpost a t ha ht⟩
      rw [answer, hexec, hk]
      rfl

theorem results_iff (m : Memoizes tree body e Sound) {c : Tree Q A α} {r : α} {s : σ}
    (hs : Sound s) :
    (∃ s', (c.lift e).Results body s (r, s')) ↔ TreeResults tree c r := by
  constructor
  · rintro ⟨s', n, h⟩
    exact (exec_lift_sound (fun hs h => m.answer_sound hs h) hs h).1
  · intro h
    obtain ⟨n, hn⟩ := treeResults_iff.1 h
    obtain ⟨k, s', hk, -⟩ := exec_lift_complete (fun s hs h => m.answer_complete s hs h) hs hn
    exact ⟨s', k, hk⟩

end Memoizes

end NestedCalls
