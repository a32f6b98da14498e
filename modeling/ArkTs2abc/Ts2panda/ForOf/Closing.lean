import ArkTs2abc.Ts2panda.ForOf.Statement

/-!
# Which iterators code closes

However the code of a statement ends, it has called `return` of the iterators of those for-of loops
that it leaves, once each. What it leaves is read off how it ends: the handlers that an exception
passes, the try statements between a jump and its target, all of them for a return.

## Main definitions

* `leftBy`, `closings` — what code leaves by its end, and how many loops of a name are among it.
* `Proper` — contexts whose finalizers do so as well.

## Main results

* `triple_compileFinallyBeforeCFC` — the finalizers in front of a jump.
* `triple_compileStatement` — the code of any statement.
* `Nest.proper` — the contexts that statements are compiled in are proper.
-/

namespace ArkTs2abc.Ts2panda.ForOf

open StructuredCode

variable {V : Type}

/-- The finalizer of the try statement closes the iterators of this loop. -/
def TryStatement.closes (a : ℕ) (cfc : ControlFlowChange) : TryStatement → Bool
  | .forOf name t => name = a ∧ cfc ≠ .continue t
  | _ => false

/-- How many of these try statements are for-of loops that are to be closed. -/
def countClosing (a : ℕ) (cfc : ControlFlowChange) (tries : List TryStatement) : ℕ :=
  tries.countP (·.closes a cfc)

@[simp] theorem countClosing_nil (a : ℕ) (cfc : ControlFlowChange) : countClosing a cfc [] = 0 :=
  rfl

@[simp] theorem countClosing_append (a : ℕ) (cfc : ControlFlowChange) (x y : List TryStatement) :
    countClosing a cfc (x ++ y) = countClosing a cfc x + countClosing a cfc y :=
  List.countP_append

theorem countClosing_cons (a : ℕ) (cfc : ControlFlowChange) (u : TryStatement)
    (y : List TryStatement) :
    countClosing a cfc (u :: y) = (u.closes a cfc).toNat + countClosing a cfc y := by
  rw [countClosing, List.countP_cons, countClosing]
  cases u.closes a cfc <;> simp [Nat.add_comm]

namespace Label

def target : Label → ℕ
  | breakTarget t | continueTarget t => t

def cfc : Label → ControlFlowChange
  | breakTarget _ => .break
  | continueTarget t => .continue t

/-- The label is one of these targets. -/
def In (ts : List Bool) : Label → Prop
  | breakTarget t => t < ts.length
  | continueTarget t => ts[t]? = some true

theorem In.lt {ts : List Bool} {l : Label} (h : l.In ts) : l.target < ts.length := by
  cases l with
  | breakTarget t => exact h
  | continueTarget t =>
    obtain ⟨ht, -⟩ := List.getElem?_eq_some_iff.1 h
    exact ht

theorem In.mono {ts ts' : List Bool} {l : Label} (h : l.In ts) (hp : ts <+: ts') : l.In ts' := by
  obtain ⟨us, rfl⟩ := hp
  cases l with
  | breakTarget t =>
    have : t < ts.length := h
    simp only [In, List.length_append]
    omega
  | continueTarget t =>
    have ht : t < ts.length := h.lt
    change (ts ++ us)[t]? = some true
    rw [List.getElem?_append_left ht]
    exact h

end Label

/-- The try statements that code in the context leaves when it ends like this. -/
def leftBy (c : Context) : Result V Label → List TryStatement
  | .normal => []
  | .thrown _ left => c.tries.take left
  | .branched l => c.leaving l.target
  | .returned => c.tries

def cfcOf : Result V Label → ControlFlowChange
  | .branched l => l.cfc
  | _ => .break

/-- How many of the loops left have the name. -/
def closings (a : ℕ) (c : Context) (r : Result V Label) : ℕ :=
  countClosing a (cfcOf r) (leftBy c r)

/-- The result is no branch to other labels than those of the targets. -/
def Within (ts : List Bool) : Result V Label → Prop
  | .branched l => l.In ts
  | _ => True

/-- A for-of loop, with what was counted for it before, and what its register says. -/
structure Account where
  loop : ℕ
  lookups : ℕ
  methods : ℕ
  calls : ℕ
  done : Bool

/-- So many of the methods found since are still to be called, and no lookup has found more than
one. -/
def Account.Owes (a : Account) (pending : ℕ) (s : State V) : Prop :=
  s.calls a.loop + pending + a.methods = s.methods a.loop + a.calls ∧
    a.methods ≤ s.methods a.loop ∧ s.methods a.loop + a.lookups ≤ a.methods + s.lookups a.loop

/-- `return` of the loop's iterators was looked up so often, each method found was called, and the
register of the loop is as before. -/
def Closed (a : Account) (n : ℕ) (s : State V) : Prop :=
  s.lookups a.loop = n ∧ a.Owes 0 s ∧ s.doneReg a.loop = a.done

/-- What the code of a statement is to do: it closes the iterators of the loops it leaves. -/
def Closes (a : Account) (ts : List Bool) (c : Context) (n : ℕ) : Post V Label (State V) :=
  fun r s => Closed a (n + closings a.loop c r) s ∧ Within ts r

/-- A context whose try statements lie as they should, and whose finalizers close what they leave. -/
structure Proper (V : Type) (a : Account) (ts : List Bool) (c : Context) : Prop where
  target_le : ∀ t < ts.length, c.targets t ≤ c.tries.length
  forOf : ∀ x name t y, c.tries = x ++ .forOf name t :: y →
    t < ts.length ∧ c.targets t = y.length
  finalizer : ∀ x f y, c.tries = x ++ .tryFinally f :: y → ∃ us, us <+: ts ∧
    (∀ t < us.length, c.targets t ≤ y.length) ∧
    ∀ n, Triple (semantics V) (Closed a n) f (Closes a us ⟨c.targets, y⟩ n)

section Operations

variable {a : Account} {n : ℕ} {ts : List Bool} {c : Context}

/-- An operation that has nothing to do with closing the iterator. -/
def Operation.Unrelated (a : Account) : Operation → Prop
  | .loadReturn loop | .callReturn loop | .storeDone loop _ => loop ≠ a.loop
  | _ => True

theorem Closed.log {i : Operation} {s s' : State V} (hs : Closed a n s)
    (htrace : s'.trace = s.trace ++ [.operation i]) (hdone : s'.doneReg = s.doneReg)
    (hload : i ≠ .loadReturn a.loop) (hcall : i ≠ .callReturn a.loop) : Closed a n s' := by
  simpa [Closed, Account.Owes, State.lookups, State.calls, State.methods, htrace, hdone,
    List.count_singleton, hload, hcall] using hs

theorem closed_perform {i : Operation} {s s' : State V} {o : Except V Unit}
    (hs : Closed a n s) (hload : i ≠ .loadReturn a.loop) (hcall : i ≠ .callReturn a.loop)
    (h : s.perform i = some (o, s')) : Closed a n s' := by
  unfold State.perform at h
  split at h <;> cases h <;> exact hs.log rfl rfl hload hcall

theorem closed_exec {i : Operation} {s s' : State V} {o : Except V Unit} (hs : Closed a n s)
    (hi : i.Unrelated a) (h : exec i s = some (o, s')) : Closed a n s' := by
  cases i with
  | loadReturn loop =>
    have hne : loop ≠ a.loop := hi
    have hlog : Closed a n (s.log (.loadReturn loop)) := hs.log rfl rfl (by simpa) (by simp)
    simp only [exec] at h
    split at h <;> cases h
    · rename_i b _ _
      cases b <;>
        simpa [Closed, Account.Owes, State.lookups, State.calls, State.methods, State.lookedUp,
          hne, List.count_singleton] using hlog
    · exact hlog
  | callReturn loop =>
    have hne : loop ≠ a.loop := hi
    exact closed_perform hs (by simp) (by simpa) h
  | storeDone loop done =>
    have hne : loop ≠ a.loop := hi
    cases h
    simpa [Closed, Account.Owes, State.lookups, State.calls, State.methods,
      Function.update_of_ne (Ne.symm hne)] using hs
  | throw e =>
    simp only [exec] at h
    split at h <;> cases h
    exact hs.log rfl rfl (by simp) (by simp)
  | storeException statement =>
    cases h
    exact hs
  | throwException statement =>
    cases h
    exact hs
  | _ => exact closed_perform hs (by simp) (by simp) h

theorem closed_test {q : Test} {s s' : State V} {o : Except V Bool} (hs : Closed a n s)
    (h : test q s = some (o, s')) : Closed a n s' := by
  cases q with
  | doneReg loop =>
    cases h
    exact hs
  | hasReturn loop =>
    cases h
    exact hs
  | _ =>
    simp only [test, State.ask] at h
    split at h <;> cases h <;> exact hs

@[simp] theorem closings_thrown_zero (k : ℕ) (c : Context) (e : V) :
    closings k c (.thrown e 0) = 0 := by
  simp [closings, leftBy]

@[simp] theorem closings_normal (k : ℕ) (c : Context) :
    closings k c (.normal : Result V Label) = 0 := by
  simp [closings, leftBy]

theorem triple_op {i : Operation} (hi : i.Unrelated a) :
    Triple (semantics V) (Closed a n) (.op i) (Closes a ts c n) := by
  refine .op (fun s s' hs h => ?_) fun s e s' hs h => ?_
  · exact ⟨by simpa using closed_exec hs hi h, trivial⟩
  · exact ⟨by simpa using closed_exec hs hi h, trivial⟩

theorem triple_test {q : Test} {code code' : Code}
    (h : Triple (semantics V) (Closed a n) code (Closes a ts c n))
    (h' : Triple (semantics V) (Closed a n) code' (Closes a ts c n)) :
    Triple (semantics V) (Closed a n) (.test q code code') (Closes a ts c n) := by
  refine .test (fun s s' hs h => closed_test hs h) (fun s s' hs h => closed_test hs h)
    (fun s e s' hs h => ?_) h h'
  exact ⟨by simpa using closed_test hs h, trivial⟩

theorem triple_seq {code code' : Code}
    (h : Triple (semantics V) (Closed a n) code (Closes a ts c n))
    (h' : Triple (semantics V) (Closed a n) code' (Closes a ts c n)) :
    Triple (semantics V) (Closed a n) (.seq code code') (Closes a ts c n) := by
  refine .seq (R := Closed a n) (h.post fun r s hr => ?_) h'
  cases r with
  | normal =>
    change Closed a n s
    simpa using hr.1
  | _ => exact hr

theorem triple_skip : Triple (semantics V) (Closed a n) .skip (Closes a ts c n) :=
  .skip fun _ hs => ⟨by simpa using hs, trivial⟩

end Operations

/-! ## Finalizers in front of a jump -/

section Walk

variable {a : Account} {ts : List Bool} {c : Context}

/-- Try statements inside of a loop are no part of what a jump to its next iteration leaves
open. -/
theorem countClosing_inside (hc : Proper V a ts c) {x z : List TryStatement} (h : c.tries = x ++ z)
    {cfc : ControlFlowChange} (hlt : ∀ t, cfc = .continue t → c.targets t < z.length) :
    countClosing a.loop cfc x = countClosing a.loop .break x := by
  refine List.countP_congr fun u hu => ?_
  cases u with
  | forOf name t =>
    obtain ⟨x₁, x₂, rfl⟩ := List.append_of_mem hu
    have htarget := (hc.forOf x₁ name t (x₂ ++ z) (by simp [h])).2
    have hne : cfc ≠ .continue t := by
      intro heq
      have := hlt t heq
      simp only [List.length_append] at htarget
      omega
    simp [TryStatement.closes, hne]
  | _ => simp [TryStatement.closes]

theorem closings_outer (hc : Proper V a ts c) {x y : List TryStatement} {u : TryStatement}
    (h : c.tries = x ++ u :: y) (hu : ∀ cfc, u.closes a.loop cfc = false) {us : List Bool}
    (hle : ∀ t < us.length, c.targets t ≤ y.length) {l : Label} (hl : l.In us) :
    closings a.loop c (.branched l : Result V Label) =
      countClosing a.loop .break x + closings a.loop ⟨c.targets, y⟩ (.branched l : Result V Label) := by
  have ht := hle _ hl.lt
  have hlen : c.tries.length = x.length + (y.length + 1) := by simp [h]
  have hleaving : c.leaving l.target = x ++ u :: y.take (y.length - c.targets l.target) := by
    have hsub : c.tries.length - c.targets l.target =
        x.length + ((y.length - c.targets l.target) + 1) := by omega
    rw [Context.leaving, hsub, h, List.take_length_add_append, List.take_succ_cons]
  have hinside : countClosing a.loop l.cfc x = countClosing a.loop .break x := by
    refine countClosing_inside hc h fun t heq => ?_
    have hlt : l.target = t := by cases l <;> simp_all [Label.cfc, Label.target]
    rw [← hlt, List.length_cons]
    omega
  simp only [closings, leftBy, cfcOf, hleaving, countClosing_append, countClosing_cons, hu, hinside]
  simp [Context.leaving]

theorem triple_finalizer (hc : Proper V a ts c) {n : ℕ} {x y : List TryStatement} {f : Code}
    (h : c.tries = x ++ .tryFinally f :: y) :
    Triple (semantics V) (Closed a (n + countClosing a.loop .break x)) (.outside (x.length + 1) f)
      ((Closes a ts c n).before (Closed a (n + countClosing a.loop .break x))) := by
  obtain ⟨us, hus, hle, hf⟩ := hc.finalizer x f y h
  refine .outside ((hf _).post fun r s hr => ?_)
  obtain ⟨hclosed, hwithin⟩ := hr
  cases r with
  | normal =>
    change Closed a (n + countClosing a.loop .break x) s
    simpa using hclosed
  | thrown e left =>
    refine ⟨?_, trivial⟩
    have hleft : left + (x.length + 1) = x.length + (left + 1) := by omega
    rw [Nat.add_assoc] at hclosed
    simpa [closings, leftBy, cfcOf, h, hleft, List.take_length_add_append, countClosing_cons,
      TryStatement.closes] using hclosed
  | branched l =>
    refine ⟨?_, Label.In.mono hwithin hus⟩
    rw [closings_outer hc h (by simp [TryStatement.closes]) hle hwithin, ← Nat.add_assoc]
    exact hclosed
  | returned =>
    refine ⟨?_, trivial⟩
    rw [Nat.add_assoc] at hclosed
    simpa [closings, leftBy, cfcOf, h, countClosing_cons, TryStatement.closes] using hclosed

/-- The code ends normally or by an exception of its own, and the count is this one. -/
def Ends (a : Account) (n : ℕ) : Post V Label (State V) :=
  fun r s => Closed a n s ∧ (r = .normal ∨ ∃ e, r = .thrown e 0)

theorem ends_op {i : Operation} (hi : i.Unrelated a) (n : ℕ) :
    Triple (semantics V) (Closed a n) (.op i) (Ends a n) :=
  .op (fun _ _ hs h => ⟨closed_exec hs hi h, .inl rfl⟩)
    fun _ e _ hs h => ⟨closed_exec hs hi h, .inr ⟨e, rfl⟩⟩

theorem ends_seq {m n : ℕ} {k : ℕ} {code code' : Code}
    (h : Triple (semantics V) (Closed a m) code (Ends a n))
    (h' : Triple (semantics V) (Closed a n) code' (Ends a k))
    (hk : n = k) : Triple (semantics V) (Closed a m) (.seq code code') (Ends a k) := by
  subst hk
  refine .seq (R := Closed a n) (h.post fun r s hr => ?_) h'
  obtain ⟨hclosed, rfl | ⟨e, rfl⟩⟩ := hr
  · exact hclosed
  · exact ⟨hclosed, .inr ⟨e, rfl⟩⟩

theorem ends_test {n : ℕ} {q : Test} {code code' : Code}
    (h : Triple (semantics V) (Closed a n) code (Ends a n))
    (h' : Triple (semantics V) (Closed a n) code' (Ends a n)) :
    Triple (semantics V) (Closed a n) (.test q code code') (Ends a n) :=
  .test (fun _ _ hs h => closed_test hs h) (fun _ _ hs h => closed_test hs h)
    (fun _ e _ hs h => ⟨closed_test hs h, .inr ⟨e, rfl⟩⟩) h h'

theorem ends_skip (n : ℕ) : Triple (semantics V) (Closed a n) .skip (Ends a n) :=
  .skip fun _ hs => ⟨hs, .inl rfl⟩

theorem ends_closeIterator_of_ne {name : ℕ} (hname : name ≠ a.loop) (n : ℕ) {result : Code}
    (h : Triple (semantics V) (Closed a n) result (Ends a n)) :
    Triple (semantics V) (Closed a n) (closeIterator name result) (Ends a n) :=
  ends_seq (ends_op (i := .loadReturn name) hname n)
    (ends_test (ends_seq (ends_op (i := .callReturn name) hname n) h rfl) (ends_skip n)) rfl

/-- `return` was looked up, and if there is a method it is still to be called. -/
def Pending (a : Account) (n : ℕ) (s : State V) : Prop :=
  s.lookups a.loop = n ∧ a.Owes (if s.hasReturn a.loop then 1 else 0) s ∧
    s.doneReg a.loop = a.done

theorem pending_loadReturn (n : ℕ) :
    Triple (semantics V) (Closed a n) (.op (.loadReturn a.loop))
      ((Ends a (n + 1)).before (Pending a (n + 1))) := by
  refine .op (fun s s' hs h => ?_) fun s e s' hs h => ?_
  all_goals
    obtain ⟨hn, ⟨hcalls, hge, hle⟩, hdone⟩ := hs
    change exec (.loadReturn a.loop) s = _ at h
    simp only [exec] at h
    split at h <;> cases h
  · rename_i b _ _
    cases b <;>
      simp_all [Pending, Account.Owes, Post.before, State.lookups, State.calls, State.methods,
        State.lookedUp, State.log] <;>
      omega
  · refine ⟨⟨?_, ?_, hdone⟩, .inr ⟨e, rfl⟩⟩ <;>
      simp_all [Account.Owes, State.lookups, State.calls, State.methods, State.log]
    omega

theorem ends_callReturn (n : ℕ) :
    Triple (semantics V) (fun s : State V => Pending a n s ∧ s.hasReturn a.loop = true)
      (.op (.callReturn a.loop)) (Ends a n) := by
  have hcall {s s' : State V} {o : Except V Unit} (hs : Pending a n s)
      (hmethod : s.hasReturn a.loop = true) (h : s.perform (.callReturn a.loop) = some (o, s')) :
      Closed a n s' := by
    obtain ⟨hn, howes, hdone⟩ := hs
    unfold State.perform at h
    split at h <;> cases h <;>
      refine ⟨?_, ?_, hdone⟩ <;>
      simp_all [Account.Owes, State.lookups, State.calls, State.methods, State.log]
  exact .op (fun _ _ hs h => ⟨hcall hs.1 hs.2 h, .inl rfl⟩)
    fun _ e _ hs h => ⟨hcall hs.1 hs.2 h, .inr ⟨e, rfl⟩⟩

theorem ends_closeIterator_self (n : ℕ) {result : Code}
    (h : Triple (semantics V) (Closed a (n + 1)) result (Ends a (n + 1))) :
    Triple (semantics V) (Closed a n) (closeIterator a.loop result) (Ends a (n + 1)) := by
  refine .seq (pending_loadReturn n) ?_
  refine .test (T := fun s => Pending a (n + 1) s ∧ s.hasReturn a.loop = true)
    (F := Closed a (n + 1)) ?_ ?_ ?_ ?_ (ends_skip _)
  · intro s s' hs h
    obtain ⟨hmethod, rfl⟩ : s.hasReturn a.loop = true ∧ s = s' := by
      simpa [semantics, test] using h
    exact ⟨hs, hmethod⟩
  · intro s s' hs h
    obtain ⟨hmethod, rfl⟩ : s.hasReturn a.loop = false ∧ s = s' := by
      simpa [semantics, test] using h
    obtain ⟨hn, hcalls, hdone⟩ := hs
    exact ⟨hn, by simpa [hmethod] using hcalls, hdone⟩
  · intro s e s' hs h
    simp [semantics, test] at h
  · refine .seq (R := Closed a (n + 1)) ((ends_callReturn _).post fun r s hr => ?_) h
    obtain ⟨hclosed, rfl | ⟨e, rfl⟩⟩ := hr
    · exact hclosed
    · exact ⟨hclosed, .inr ⟨e, rfl⟩⟩

theorem ends_closeIterator (name n : ℕ) {result : Code}
    (h : ∀ m, Triple (semantics V) (Closed a m) result (Ends a m)) :
    Triple (semantics V) (Closed a n) (closeIterator name result)
      (Ends a (n + if name = a.loop then 1 else 0)) := by
  by_cases hname : name = a.loop
  · subst hname
    simpa using ends_closeIterator_self n (h _)
  · simpa [hname] using ends_closeIterator_of_ne hname n (h n)

/-- Calling `return` of an iterator in place of a jump. -/
theorem triple_closeIterator (ts : List Bool) (n : ℕ) {x y : List TryStatement} {name t : ℕ}
    (h : c.tries = x ++ .forOf name t :: y) :
    Triple (semantics V) (Closed a (n + countClosing a.loop .break x))
      (.outside (x.length + 1) (closeIterator name (.op (.throwIfNotObject name))))
      ((Closes a ts c n).before
        (Closed a (n + (countClosing a.loop .break x + if name = a.loop then 1 else 0)))) := by
  have hclose := ends_closeIterator (V := V) (a := a) name (n + countClosing a.loop .break x)
    fun m => ends_op (i := .throwIfNotObject name) trivial m
  refine .outside (hclose.post fun r s hr => ?_)
  rw [Nat.add_assoc] at hr
  obtain ⟨hclosed, rfl | ⟨e, rfl⟩⟩ := hr
  · exact hclosed
  · refine ⟨?_, trivial⟩
    have hleft : 0 + (x.length + 1) = x.length + 1 := by omega
    by_cases hname : name = a.loop <;>
      simpa [closings, leftBy, cfcOf, h, hleft, List.take_length_add_append, countClosing_cons,
        TryStatement.closes, hname] using hclosed

/-- The finalizers in front of a jump close the iterators of the loops that are left. -/
theorem triple_compileFinallyBeforeCFC (hc : Proper V a ts c) (cfc : ControlFlowChange) (n : ℕ)
    {x l z : List TryStatement} (h : c.tries = x ++ (l ++ z))
    (hown : ∀ t, cfc = .continue t → c.targets t ≤ z.length) :
    Triple (semantics V) (Closed a (n + countClosing a.loop .break x))
      (compileFinallyBeforeCFC cfc l x.length)
      ((Closes a ts c n).before (Closed a
        (n + (countClosing a.loop .break x + countClosing a.loop cfc l)))) := by
  induction l generalizing x with
  | nil =>
    refine .skip fun s hs => ?_
    simpa [Post.before] using hs
  | cons u l ih =>
    have h' : c.tries = (x ++ [u]) ++ (l ++ z) := by simp [h]
    have hlen : (x ++ [u]).length = x.length + 1 := by simp
    have ih := ih h'
    rw [hlen, countClosing_append, countClosing_cons, countClosing_nil, Nat.add_zero] at ih
    rw [countClosing_cons]
    cases u with
    | tryCatch => simpa [compileFinallyBeforeCFC, TryStatement.compileFinalizer,
        TryStatement.closes] using ih
    | tryFinally f =>
      have hf := triple_finalizer hc (n := n) (h : c.tries = x ++ .tryFinally f :: (l ++ z))
      refine .seq (R := Closed a (n + countClosing a.loop .break x)) ?_ ?_
      · rw [Post.before_before]
        exact hf
      · simpa [TryStatement.closes] using ih
    | forOf name t =>
      by_cases hcfc : cfc = .continue t
      · -- The walk to the next iteration ends at the loop, whose finalizer is empty then.
        have htarget := (hc.forOf x name t (l ++ z) (by simp [h])).2
        have hle := hown t hcfc
        have hl : l = [] := List.length_eq_zero_iff.1 (by simp at htarget; omega)
        subst hl
        simp only [compileFinallyBeforeCFC, TryStatement.compileFinalizer, hcfc, ↓reduceIte,
          TryStatement.closes, countClosing_nil]
        refine .seq (R := Closed a (n + countClosing a.loop .break x)) ?_ ?_
        · exact .outside (.skip fun s hs => hs)
        · exact .skip fun s hs => by simpa using hs
      · have hclose := triple_closeIterator (V := V) (a := a) ts n
          (h : c.tries = x ++ .forOf name t :: (l ++ z))
        simp only [compileFinallyBeforeCFC, TryStatement.compileFinalizer, hcfc, ↓reduceIte]
        refine .seq (R := Closed a (n + (countClosing a.loop .break x + if name = a.loop then 1 else 0)))
          ?_ ?_
        · rw [Post.before_before]
          exact hclose
        · by_cases hname : name = a.loop <;>
            simpa [TryStatement.closes, hcfc, hname, Nat.add_assoc] using ih

end Walk

/-! ## Contexts -/

section Contexts

variable {a : Account} {ts : List Bool} {c : Context}

theorem closings_pushLabelTarget {n : ℕ} {y : List TryStatement} {r : Result V Label}
    (hr : ∀ l, r = .branched l → l.target ≠ n) (depth : ℕ) :
    closings a.loop ⟨Function.update c.targets n depth, y⟩ r = closings a.loop ⟨c.targets, y⟩ r := by
  cases r with
  | branched l =>
    have hne := hr l rfl
    simp [closings, leftBy, Context.leaving, Function.update_of_ne hne]
  | _ => rfl

theorem targets_pushLabelTarget_of_ne {n t : ℕ} (h : t ≠ n) :
    (c.pushLabelTarget n).targets t = c.targets t :=
  Function.update_of_ne h _ _

theorem Proper.pushLabelTarget (hc : Proper V a ts c) (b : Bool) :
    Proper V a (ts ++ [b]) (c.pushLabelTarget ts.length) where
  target_le t ht := by
    simp only [List.length_append, List.length_singleton] at ht
    by_cases heq : t = ts.length
    · simp [Context.pushLabelTarget, heq]
    · rw [targets_pushLabelTarget_of_ne heq]
      exact hc.target_le t (by omega)
  forOf x name t y h := by
    obtain ⟨ht, htarget⟩ := hc.forOf x name t y h
    refine ⟨by simp; omega, ?_⟩
    rwa [targets_pushLabelTarget_of_ne (by omega)]
  finalizer x f y h := by
    obtain ⟨us, hus, hle, hf⟩ := hc.finalizer x f y h
    have hlen := hus.length_le
    refine ⟨us, hus.trans (List.prefix_append _ _), fun t ht => ?_, fun n => (hf n).post ?_⟩
    · rw [targets_pushLabelTarget_of_ne (by omega)]
      exact hle t ht
    · rintro r s ⟨hclosed, hwithin⟩
      refine ⟨?_, hwithin⟩
      rw [Context.pushLabelTarget, closings_pushLabelTarget]
      · exact hclosed
      · rintro l rfl
        have := Label.In.lt hwithin
        omega

theorem Proper.pushTry (hc : Proper V a ts c) {u : TryStatement}
    (hforOf : ∀ name t, u = .forOf name t → t < ts.length ∧ c.targets t = c.tries.length)
    (hfinally : ∀ f, u = .tryFinally f →
      ∀ n, Triple (semantics V) (Closed a n) f (Closes a ts c n)) :
    Proper V a ts (c.pushTry u) where
  target_le t ht := Nat.le_succ_of_le (hc.target_le t ht)
  forOf x name t y h := by
    cases x with
    | nil =>
      cases h
      exact hforOf name t rfl
    | cons v x => exact hc.forOf x name t y (List.cons.inj h).2
  finalizer x f y h := by
    cases x with
    | nil =>
      cases h
      exact ⟨ts, List.prefix_rfl, hc.target_le, hfinally f rfl⟩
    | cons v x => exact hc.finalizer x f y (List.cons.inj h).2

section

variable (hc : Proper V a ts c) {u : TryStatement} (hu : ∀ cfc, u.closes a.loop cfc = false)
include hc hu

theorem closings_pushTry {r : Result V Label} (hr : Within ts r) :
    closings a.loop (c.pushTry u) r =
      closings a.loop c (match r with | .thrown e (left + 1) => .thrown e left | r => r) := by
  cases r with
  | normal => rfl
  | thrown e left =>
    cases left with
    | zero => simp
    | succ left => simp [closings, leftBy, cfcOf, Context.pushTry, countClosing_cons, hu]
  | branched l =>
    have hle := hc.target_le _ (Label.In.lt hr)
    have hsub : c.tries.length + 1 - c.targets l.target =
        c.tries.length - c.targets l.target + 1 := by omega
    simp [closings, leftBy, Context.leaving, Context.pushTry, hsub, countClosing_cons, hu]
  | returned => simp [closings, leftBy, cfcOf, Context.pushTry, countClosing_cons, hu]

theorem Closes.covered {n : ℕ} {r : Result V Label} {s : State V}
    (h : Closes a ts (c.pushTry u) n r s) :
    (Closes a ts c n).covered (semantics V).catching (Closed a n) r s := by
  obtain ⟨hclosed, hwithin⟩ := h
  rw [closings_pushTry hc hu hwithin] at hclosed
  cases r with
  | thrown e left =>
    cases left with
    | zero =>
      change Closed a n s
      simpa using hclosed
    | succ left => exact ⟨hclosed, trivial⟩
  | _ => exact ⟨hclosed, hwithin⟩

end

theorem Label.In.outer {b : Bool} {l : Label} (h : l.In (ts ++ [b]))
    (hbreak : l ≠ .breakTarget ts.length) (hcontinue : b = true → l ≠ .continueTarget ts.length) :
    l.In ts ∧ l.target ≠ ts.length := by
  cases l with
  | breakTarget t =>
    have ht : t < (ts ++ [b]).length := h
    have hne : t ≠ ts.length := fun heq => hbreak (by rw [heq])
    simp only [List.length_append, List.length_singleton] at ht
    exact ⟨show t < ts.length by omega, hne⟩
  | continueTarget t =>
    have ht : t < (ts ++ [b]).length := h.lt
    have h : (ts ++ [b])[t]? = some true := h
    have hne : t ≠ ts.length := by
      rintro rfl
      exact hcontinue (by simpa using h) rfl
    simp only [List.length_append, List.length_singleton] at ht
    rw [List.getElem?_append_left (by omega)] at h
    exact ⟨h, hne⟩

theorem Closes.outer {n : ℕ} {b : Bool} {r : Result V Label} {s : State V}
    (h : Closes a (ts ++ [b]) (c.pushLabelTarget ts.length) n r s)
    (hbreak : r ≠ .branched (.breakTarget ts.length))
    (hcontinue : b = true → r ≠ .branched (.continueTarget ts.length)) :
    Closes a ts c n r s := by
  obtain ⟨hclosed, hwithin⟩ := h
  cases r with
  | branched l =>
    obtain ⟨hin, hne⟩ := Label.In.outer hwithin (fun h => hbreak (by rw [h]))
      fun hb h => hcontinue hb (by rw [h])
    rw [Context.pushLabelTarget, closings_pushLabelTarget (by simpa using hne)] at hclosed
    exact ⟨hclosed, hin⟩
  | _ => exact ⟨hclosed, trivial⟩

theorem Closes.own {n : ℕ} {us : List Bool} {l : Label} {s : State V}
    (hl : l.target = ts.length)
    (h : Closes a us (c.pushLabelTarget ts.length) n (.branched l : Result V Label) s) :
    Closed a n s := by
  simpa [closings, leftBy, Context.leaving, Context.pushLabelTarget, hl] using h.1

end Contexts

theorem Proper.forOfContext {a : Account} {ts : List Bool} {c : Context} (hc : Proper V a ts c)
    (name : ℕ) :
    Proper V a (ts ++ [true]) ((c.pushLabelTarget ts.length).pushTry (.forOf name ts.length)) := by
  refine (hc.pushLabelTarget true).pushTry ?_ (by simp)
  rintro _ _ ⟨⟩
  exact ⟨by simp, by simp [Context.pushLabelTarget]⟩

/-! ## Statements -/

section Statements

variable {a : Account} {ts : List Bool} {c : Context} {n : ℕ}

theorem triple_return (hc : Proper V a ts c) :
    Triple (semantics V) (Closed a n) (.seq (compileFinallyBeforeCFC .break c.tries 0) .return)
      (Closes a ts c n) := by
  have hwalk := triple_compileFinallyBeforeCFC hc .break n (x := []) (l := c.tries) (z := [])
    (by simp) (by simp)
  simp only [countClosing_nil, Nat.zero_add, Nat.add_zero, List.length_nil] at hwalk
  exact .seq hwalk (.returns fun s hs => ⟨hs, trivial⟩)

theorem triple_jump (hc : Proper V a ts c) {l : Label} (hl : l.In ts) :
    Triple (semantics V) (Closed a n)
      (.seq (compileFinallyBeforeCFC l.cfc (c.leaving l.target) 0) (.branch l))
      (Closes a ts c n) := by
  have hle := hc.target_le _ hl.lt
  have hwalk := triple_compileFinallyBeforeCFC hc l.cfc n (x := []) (l := c.leaving l.target)
    (z := c.tries.drop (c.tries.length - c.targets l.target))
    (by simp [Context.leaving]) (fun t ht => by
      have heq : l.target = t := by cases l <;> simp_all [Label.cfc, Label.target]
      rw [List.length_drop, ← heq]
      omega)
  simp only [countClosing_nil, Nat.zero_add, Nat.add_zero, List.length_nil] at hwalk
  exact .seq hwalk (.branch fun s hs => ⟨hs, hl⟩)

/-- A single operation, in front of a postcondition that asks for no more than `Ends`. -/
theorem triple_iteration_op {Q : Post V Label (State V)} {i : Operation} (hi : i.Unrelated a)
    (hthrown : ∀ e s, Closed a n s → Q (.thrown e 0) s) :
    Triple (semantics V) (Closed a n) (.op i) (Q.before (Closed a n)) := by
  refine (ends_op hi n).post fun r s hr => ?_
  obtain ⟨hclosed, rfl | ⟨e, rfl⟩⟩ := hr
  · exact hclosed
  · exact hthrown e s hclosed

theorem Closes.landing {r : Result V Label} {s : State V}
    (h : Closes a (ts ++ [true]) (c.pushLabelTarget ts.length) n r s) :
    (((Closes a ts c n).landing (.breakTarget ts.length)).before (Closed a n)).landing
      (.continueTarget ts.length) r s := by
  cases r with
  | normal =>
    change Closed a n s
    simpa using h.1
  | thrown e left => exact h.outer (by simp) (by simp)
  | returned => exact h.outer (by simp) (by simp)
  | branched l =>
    by_cases hcontinue : l = .continueTarget ts.length
    · rw [Post.landing, if_pos hcontinue]
      exact Closes.own (by simp [hcontinue, Label.target]) h
    · rw [Post.landing, if_neg hcontinue]
      by_cases hbreak : l = .breakTarget ts.length
      · have hown := Closes.own (by simp [hbreak, Label.target]) h
        simpa [Post.before, Post.landing, hbreak, Closes, Within] using hown
      · simpa [Post.before, Post.landing, hbreak] using h.outer (by simpa) (by simpa)

theorem ends_compileExceptionHandler {name : ℕ} (hname : name ≠ a.loop) :
    Triple (semantics V) (Closed a n) (compileExceptionHandler name) (Ends a n) := by
  have hclose := ends_closeIterator name n
    (ends_skip : ∀ m, Triple (semantics V) (Closed a m) .skip (Ends a m))
  rw [if_neg hname, Nat.add_zero] at hclose
  exact ends_seq (ends_op (i := .storeException name) trivial n)
    (ends_seq (ends_test (ends_skip n) hclose) (ends_op (i := .throwException name) trivial n) rfl)
    rfl

theorem Ends.closes (ts : List Bool) (c : Context) {r : Result V Label} {s : State V}
    (h : Ends a n r s) : Closes a ts c n r s := by
  obtain ⟨hclosed, rfl | ⟨e, rfl⟩⟩ := h
  · exact ⟨by simpa using hclosed, trivial⟩
  · exact ⟨by simpa using hclosed, trivial⟩

theorem Closes.iteration (hc : Proper V a ts c) {name : ℕ} (hname : name ≠ a.loop) {r : Result V Label}
    {s : State V}
    (h : Closes a (ts ++ [true])
      ((c.pushLabelTarget ts.length).pushTry (.forOf name ts.length)) n r s) :
    ((((Closes a ts c n).landing (.breakTarget ts.length)).covered (semantics V).catching
      (Closed a n)).before (Closed a n)).landing (.continueTarget ts.length) r s := by
  have h := h.covered (hc.pushLabelTarget true) fun _ => by simp [TryStatement.closes, hname]
  cases r with
  | normal => exact Closes.landing h
  | thrown e left =>
    cases left with
    | zero => exact h
    | succ left => exact Closes.landing h
  | branched l => exact Closes.landing h
  | returned => exact Closes.landing h

theorem triple_compileForOfStatement (hc : Proper V a ts c) {name : ℕ} (hname : name ≠ a.loop)
    {statement : Code}
    (h : Triple (semantics V) (Closed a n) statement
      (Closes a (ts ++ [true])
        ((c.pushLabelTarget ts.length).pushTry (.forOf name ts.length)) n)) :
    Triple (semantics V) (Closed a n) (compileForOfStatement name ts.length statement)
      (Closes a ts c n) := by
  refine triple_seq (triple_op trivial) (triple_seq (triple_op hname) (.label ?_))
  refine .tryRange (H := Closed a n) (.seq (R := Closed a n) ?_ (.loop ?_)) ?_
  · exact triple_iteration_op (i := .storeDone name true) hname fun _ _ hs => hs
  · refine .seq (triple_iteration_op (i := .iteratorNext name) trivial fun _ _ hs => hs) ?_
    refine .test (fun _ _ hs h => closed_test (q := .done name) hs h)
      (fun _ _ hs h => closed_test (q := .done name) hs h)
      (fun _ e _ hs h => ?_) (.branch fun s hs => ?_) ?_
    · have hclosed := closed_test (q := .done name) hs h
      exact hclosed
    · simpa [Post.before, Post.covered, Post.landing, Closes, Within] using hs
    · refine .seq (triple_iteration_op (i := .loadValue name) trivial fun _ _ hs => hs) ?_
      refine .seq (triple_iteration_op (i := .storeDone name false) hname fun _ _ hs => hs) ?_
      refine .seq (triple_iteration_op (i := .setValue name) trivial fun _ _ hs => hs) ?_
      exact .label (h.post fun r s hr => hr.iteration hc hname)
  · refine (ends_compileExceptionHandler hname).post fun r s hr => ?_
    have hcloses := hr.closes ts c
    obtain ⟨-, rfl | ⟨e, rfl⟩⟩ := hr <;> exact hcloses

/-- The code of any statement closes the iterators of the loops that it leaves, once each. -/
theorem triple_compileStatement (statement : Statement ts) (hc : Proper V a ts c)
    (ha : a.loop ∉ statement.loops) :
    Triple (semantics V) (Closed a n) (compileStatement statement c) (Closes a ts c n) := by
  induction statement generalizing c n with
  | expression e => exact triple_op trivial
  | throw e => exact triple_op trivial
  | empty => exact triple_skip
  | yield e =>
    exact triple_seq (triple_op trivial) (triple_test (triple_return hc) triple_skip)
  | «return» e => exact triple_seq (triple_op trivial) (triple_return hc)
  | block s s' ih ih' =>
    simp only [Statement.loops, List.mem_append, not_or] at ha
    exact triple_seq (ih hc ha.1) (ih' hc ha.2)
  | ifElse e s s' ih ih' =>
    simp only [Statement.loops, List.mem_append, not_or] at ha
    exact triple_test (ih hc ha.1) (ih' hc ha.2)
  | «while» e s ih =>
    have hbody := (ih (n := n) (hc.pushLabelTarget true) ha).post fun r s h => h.landing
    refine .label (.loop (.test (fun _ _ hs h => closed_test (q := .expression e) hs h)
      (fun _ _ hs h => closed_test (q := .expression e) hs h) (fun _ _ _ hs h => ?_)
      (.label hbody) (.branch fun s hs => ?_)))
    · exact ⟨by simpa using closed_test (q := .expression e) hs h, trivial⟩
    · simpa [Post.before, Post.landing, Closes, Within] using hs
  | @labeled ts s ih =>
    refine .label ((ih (n := n) (hc.pushLabelTarget false) ha).post fun r s h => ?_)
    by_cases hbreak : r = .branched (.breakTarget ts.length)
    · subst hbreak
      have hown := Closes.own rfl h
      simpa [Post.landing, Closes, Within] using hown
    · have hcloses := h.outer hbreak (by simp)
      cases r with
      | branched l =>
        have hne : l ≠ .breakTarget ts.length := fun heq => hbreak (by rw [heq])
        simpa [Post.landing, hne] using hcloses
      | _ => exact hcloses
  | forOf name s ih =>
    simp only [Statement.loops, List.mem_cons, not_or] at ha
    exact triple_compileForOfStatement hc (Ne.symm ha.1) (ih (hc.forOfContext name) ha.2)
  | «break» t ht => exact triple_jump hc (l := .breakTarget t) ht
  | «continue» t ht => exact triple_jump hc (l := .continueTarget t) ht
  | tryCatch s s' ih ih' =>
    simp only [Statement.loops, List.mem_append, not_or] at ha
    exact .tryRange
      ((ih (hc.pushTry (by simp) (by simp)) ha.1).post fun r s h => h.covered hc fun _ => rfl)
      (ih' hc ha.2)
  | tryFinally name s s' ih ih' =>
    simp only [Statement.loops, List.mem_append, not_or] at ha
    have hfinally (n : ℕ) := ih' (n := n) hc ha.2
    have hc' := hc.pushTry (u := .tryFinally (compileStatement s' c)) (by simp) fun f hf n => by
      cases hf
      exact hfinally n
    refine triple_seq (.tryRange ((ih hc' ha.1).post fun r s h => h.covered hc fun _ => rfl) ?_)
      (hfinally n)
    exact triple_seq (triple_op trivial) (triple_seq (hfinally n) (triple_op trivial))

end Statements

/-- Whatever is around a statement, its context is proper for loops that are not in the finally
blocks around. -/
theorem Nest.proper (V : Type) {a : Account} {ts : List Bool} (nest : Nest ts)
    (ha : a.loop ∉ nest.loops) : Proper V a ts nest.context := by
  induction nest with
  | function => exact ⟨by simp, by simp [Nest.context], by simp [Nest.context]⟩
  | «while» outer ih => exact (ih ha).pushLabelTarget true
  | labeled outer ih => exact (ih ha).pushLabelTarget false
  | forOf name outer ih =>
    simp only [Nest.loops, List.mem_cons, not_or] at ha
    exact (ih ha.2).forOfContext name
  | tryCatch outer ih => exact (ih ha).pushTry (by simp) (by simp)
  | tryFinally finallyBlock outer ih =>
    simp only [Nest.loops, List.mem_append, not_or] at ha
    refine (ih ha.2).pushTry (by simp) ?_
    rintro _ ⟨⟩ n
    exact triple_compileStatement finallyBlock (ih ha.2) ha.1

end ArkTs2abc.Ts2panda.ForOf
