import ArkTs2abc.Ts2panda.ForOf.Closing

/-!
# The closing protocol of for-of loops

`return` of an iterator is to be called exactly when the loop is left early: by an exception of its
statement or its binding, by a jump or by a return; and when it is an exception, it is the one that
goes on. It is not to be called when the iterator itself has thrown or is done.

The register that tells the handler whether the iterator is done is set in front of the first call of
`next` only, and the handler calls `return` without a handler of its own.

## Main definitions

* `ForOfStatement`, `Execution` — a loop in a function, and a run of its code.
* `Stop`, `stop` — the last iteration.
* `FollowsProtocol`, `Meets` — the protocol, and the condition.

## Main results

* `Execution.followsProtocol_iff` — when the protocol is followed.
-/

namespace ArkTs2abc.Ts2panda.ForOf

open StructuredCode

theorem Nest.closes_eq_false {a : ℕ} {ts : List Bool} (nest : Nest ts) (ha : a ∉ nest.loops)
    (cfc : ControlFlowChange) : ∀ u ∈ nest.context.tries, u.closes a cfc = false := by
  induction nest with
  | function => simp [Nest.context]
  | «while» outer ih => exact ih ha
  | labeled outer ih => exact ih ha
  | forOf name outer ih =>
    simp only [Nest.loops, List.mem_cons, not_or] at ha
    intro u hu
    rcases List.mem_cons.1 hu with rfl | hu
    · simp [TryStatement.closes, Ne.symm ha.1]
    · exact ih ha.2 u hu
  | tryCatch outer ih =>
    intro u hu
    rcases List.mem_cons.1 hu with rfl | hu
    · rfl
    · exact ih ha u hu
  | tryFinally finallyBlock outer ih =>
    simp only [Nest.loops, List.mem_append, not_or] at ha
    intro u hu
    rcases List.mem_cons.1 hu with rfl | hu
    · rfl
    · exact ih ha.2 u hu

/-- A for-of loop in a function. Loops have names of their own. -/
structure ForOfStatement where
  targets : List Bool
  nest : Nest targets
  name : ℕ
  statement : Statement (targets ++ [true])
  fresh : name ∉ nest.loops ++ statement.loops

/-- The end of the last iteration, in the calls of the iterator or behind them. -/
structure Stop (V : Type) where
  iteration : ℕ
  inHead : Bool
  result : Result V Label
  state : State V

namespace ForOfStatement

variable {V : Type} (f : ForOfStatement)

/-- The number of the loop's target. -/
def target : ℕ := f.targets.length

/-- The code of the statement of the loop. -/
def body : Code :=
  compileStatement f.statement
    ((f.nest.context.pushLabelTarget f.target).pushTry (.forOf f.name f.target))

def code : Code := compileStatement (.forOf f.name f.statement) f.nest.context

theorem code_eq : f.code = compileForOfStatement f.name f.target f.body := rfl

/-- The calls of the iterator in an iteration. -/
def head : Code :=
  .seq (.op (.iteratorNext f.name))
    (.test (.done f.name) (.branch (.breakTarget f.target)) (.op (.loadValue f.name)))

/-- The binding and the statement. -/
def rest : Code :=
  .seq (.op (.storeDone f.name false))
    (.seq (.op (.setValue f.name)) (.label f.body (.continueTarget f.target)))

/-- How the iterations end, the first of which has this number. -/
def stop (fuel : ℕ) : ℕ → ℕ → State V → Option (Stop V)
  | 0, _, _ => none
  | budget + 1, iteration, s =>
    match run (semantics V) fuel f.head s with
    | some (.normal, s') =>
      match run (semantics V) fuel f.rest s' with
      | some (.normal, s'') => stop fuel budget (iteration + 1) s''
      | some (r, s'') => some ⟨iteration, false, r, s''⟩
      | none => none
    | some (r, s') => some ⟨iteration, true, r, s'⟩
    | none => none

theorem run_compileIteration (fuel : ℕ) (s : State V) :
    run (semantics V) fuel (compileIteration f.name f.target f.body) s =
      andThen (run (semantics V) fuel f.head s) (run (semantics V) fuel f.rest) := by
  simp only [compileIteration, head, rest, run]
  rcases perform ((semantics V).exec (.iteratorNext f.name) s) with _ | ⟨r, s⟩
  · rfl
  · cases r with
    | normal =>
      simp only [andThen]
      rcases (semantics V).test (.done f.name) s with _ | ⟨o, s⟩
      · rfl
      · rcases o with e | b
        · rfl
        · cases b <;> rfl
    | _ => rfl

theorem iterate_eq_stop (fuel budget iteration : ℕ) (s : State V) :
    iterate (run (semantics V) fuel (compileIteration f.name f.target f.body)) budget s =
      (f.stop fuel budget iteration s).map fun stop => (stop.result, stop.state) := by
  induction budget generalizing iteration s with
  | zero => rfl
  | succ budget ih =>
    rw [iterate, run_compileIteration, stop]
    rcases run (semantics V) fuel f.head s with _ | ⟨r, s'⟩
    · rfl
    · cases r with
      | normal =>
        simp only [andThen]
        rcases run (semantics V) fuel f.rest s' with _ | ⟨r, s''⟩
        · rfl
        · cases r with
          | normal => exact ih (iteration + 1) s''
          | _ => rfl
      | _ => rfl

theorem run_compileTry (fuel : ℕ) (s : State V) :
    run (semantics V) fuel (compileTry f.name f.target f.body) s =
      caught (semantics V).catching (run (semantics V) fuel (compileExceptionHandler f.name))
        ((f.stop fuel fuel 0 { s with doneReg := Function.update s.doneReg f.name true }).map
          fun stop => (stop.result, stop.state)) := by
  rw [← f.iterate_eq_stop]
  rfl

/-! ### What the iterations leave -/

/-- Accounts of the loop from a state on. -/
def account (start : State V) (done : Bool) : Account where
  loop := f.name
  lookups := start.lookups f.name
  methods := start.methods f.name
  calls := start.calls f.name
  done := done

theorem fresh_nest : f.name ∉ f.nest.loops := fun h => f.fresh (List.mem_append_left _ h)

theorem fresh_statement : f.name ∉ f.statement.loops := fun h => f.fresh (List.mem_append_right _ h)

theorem proper (start : State V) (done : Bool) :
    Proper V (f.account start done) f.targets f.nest.context :=
  f.nest.proper V f.fresh_nest

/-- The context of the statement of the loop. -/
def bodyContext : Context :=
  (f.nest.context.pushLabelTarget f.target).pushTry (.forOf f.name f.target)

/-- What leaves the statement of the loop, other than to its next iteration or to its handler,
closes the iterator. -/
theorem closings_bodyContext {r : Result V Label} (hr : Within (f.targets ++ [true]) r)
    (hnormal : r ≠ .normal) (hcontinue : r ≠ .branched (.continueTarget f.target))
    (hthrown : ∀ v, r ≠ .thrown v 0) : closings f.name f.bodyContext r = 1 := by
  have houter (cfc : ControlFlowChange) (k : ℕ) :
      countClosing f.name cfc (f.nest.context.tries.take k) = 0 :=
    List.countP_eq_zero.2 fun u hu => by
      simp [f.nest.closes_eq_false f.fresh_nest cfc u (List.mem_of_mem_take hu)]
  cases r with
  | normal => exact absurd rfl hnormal
  | thrown v left =>
    cases left with
    | zero => exact absurd rfl (hthrown v)
    | succ left =>
      simp [closings, leftBy, cfcOf, bodyContext, Context.pushTry, Context.pushLabelTarget,
        countClosing_cons, TryStatement.closes, houter]
  | branched l =>
    have hle := (((f.nest.proper V (a := ⟨f.name, 0, 0, 0, false⟩) f.fresh_nest).pushLabelTarget
      true).target_le _ (Label.In.lt hr) : _ ≤ f.nest.context.tries.length)
    have hcfc : l.cfc ≠ .continue f.target := by
      cases l with
      | breakTarget t => simp [Label.cfc]
      | continueTarget t => simpa [Label.cfc] using hcontinue
    have hsub : f.nest.context.tries.length + 1 -
        (f.nest.context.pushLabelTarget f.target).targets l.target =
        f.nest.context.tries.length -
          (f.nest.context.pushLabelTarget f.target).targets l.target + 1 :=
      Nat.sub_add_comm hle
    simp only [closings, leftBy, cfcOf, Context.leaving, bodyContext, Context.pushTry]
    change countClosing f.name l.cfc (List.take (f.nest.context.tries.length + 1 - _)
      (_ :: f.nest.context.tries)) = 1
    rw [hsub, List.take_succ_cons, countClosing_cons, houter]
    simp [TryStatement.closes, hcfc]
  | returned =>
    have hall := houter .break f.nest.context.tries.length
    rw [List.take_length] at hall
    simp [closings, leftBy, cfcOf, bodyContext, Context.pushTry, Context.pushLabelTarget,
      countClosing_cons, TryStatement.closes, hall]

theorem triple_head (a : Account) (n : ℕ) :
    Triple (semantics V) (Closed a n) f.head fun r s => Closed a n s ∧
      (r = .normal ∨ r = .branched (.breakTarget f.target) ∨ ∃ v, r = .thrown v 0) := by
  refine .seq (R := Closed a n) ((ends_op (i := .iteratorNext f.name) trivial n).post ?_)
    (.test (T := Closed a n) (F := Closed a n) ?_ ?_ ?_ (.branch fun s hs => ⟨hs, by simp⟩)
      ((ends_op (i := .loadValue f.name) trivial n).post ?_))
  · rintro r s ⟨hs, rfl | ⟨e, rfl⟩⟩
    · exact hs
    · exact ⟨hs, by simp⟩
  · exact fun s s' hs h => closed_test (q := .done f.name) hs h
  · exact fun s s' hs h => closed_test (q := .done f.name) hs h
  · exact fun s e s' hs h => ⟨closed_test (q := .done f.name) hs h, by simp⟩
  · rintro r s ⟨hs, rfl | ⟨e, rfl⟩⟩ <;> exact ⟨hs, by simp⟩

/-- The binding and the statement: from the first iteration on the register is false. -/
theorem triple_rest (start : State V) (done : Bool) (n : ℕ) :
    Triple (semantics V) (Closed (f.account start done) n) f.rest fun r s =>
      (r = .normal ∧ Closed (f.account start false) n s) ∨
      ((∃ v, r = .thrown v 0) ∧ Closed (f.account start false) n s) ∨
      (r ≠ .normal ∧ (∀ v, r ≠ .thrown v 0) ∧ Closed (f.account start false) (n + 1) s) := by
  refine .seq (R := Closed (f.account start false) n) (.op ?_ ?_)
    (.seq (R := Closed (f.account start false) n)
      ((ends_op (i := .setValue f.name) trivial n).post ?_) (.label ?_))
  · rintro s s' ⟨hn, howes, -⟩ ⟨⟩
    exact ⟨hn, howes, by simp [account]⟩
  · rintro s e s' - ⟨⟩
  · rintro r s ⟨hs, rfl | ⟨e, rfl⟩⟩
    · exact hs
    · exact .inr (.inl ⟨⟨e, rfl⟩, hs⟩)
  · have hbody := triple_compileStatement (V := V) (n := n) f.statement
      ((f.proper start false).forOfContext f.name) f.fresh_statement
    refine hbody.post fun r s hr => ?_
    obtain ⟨hclosed, hwithin⟩ := hr
    have hclosings := f.closings_bodyContext hwithin
    change Closed _ (n + closings f.name f.bodyContext r) s at hclosed
    cases r with
    | normal => exact .inl ⟨rfl, by simpa using hclosed⟩
    | thrown v left =>
      cases left with
      | zero => exact .inr (.inl ⟨⟨v, rfl⟩, by simpa using hclosed⟩)
      | succ left =>
        rw [hclosings (by simp) (by simp) (by simp)] at hclosed
        exact .inr (.inr ⟨by simp, by simp, hclosed⟩)
    | returned =>
      rw [hclosings (by simp) (by simp) (by simp)] at hclosed
      exact .inr (.inr ⟨by simp, by simp, hclosed⟩)
    | branched l =>
      by_cases hl : l = .continueTarget f.target
      · -- The next iteration: the walk to it does not close the iterator of the loop itself.
        have hzero : closings f.name f.bodyContext (.branched l : Result V Label) = 0 := by
          simp [closings, leftBy, cfcOf, hl, Context.leaving, bodyContext, Context.pushTry,
            Context.pushLabelTarget, Label.target, Label.cfc, countClosing_cons,
            TryStatement.closes]
        rw [hzero, Nat.add_zero] at hclosed
        rw [Post.landing, if_pos hl]
        exact .inl ⟨rfl, hclosed⟩
      · rw [hclosings (by simp) (by simpa) (by simp)] at hclosed
        rw [Post.landing, if_neg hl]
        exact .inr (.inr ⟨by simp, by simp, hclosed⟩)

/-- The last iteration: the register is true in the first calls of the iterator only, and the
iterator is closed when the statement is left other than by an exception of its own. -/
theorem stop_spec (start : State V) (iteration : ℕ) {fuel budget : ℕ} {s : State V}
    {stop : Stop V}
    (hs : Closed (f.account start (iteration = 0)) (start.lookups f.name) s)
    (h : f.stop fuel budget iteration s = some stop) :
    (stop.inHead ∧
      Closed (f.account start (stop.iteration = 0)) (start.lookups f.name) stop.state ∧
      (stop.result = .branched (.breakTarget f.target) ∨ ∃ v, stop.result = .thrown v 0)) ∨
    (stop.inHead = false ∧ (∃ v, stop.result = .thrown v 0) ∧
      Closed (f.account start false) (start.lookups f.name) stop.state) ∨
    (stop.inHead = false ∧ stop.result ≠ .normal ∧ (∀ v, stop.result ≠ .thrown v 0) ∧
      Closed (f.account start false) (start.lookups f.name + 1) stop.state) := by
  induction budget generalizing iteration s with
  | zero => simp [ForOfStatement.stop] at h
  | succ budget ih =>
    rw [ForOfStatement.stop] at h
    have hhead := f.triple_head _ _ fuel s hs
    rcases hrun : run (semantics V) fuel f.head s with _ | ⟨r, s'⟩
    · simp [hrun] at h
    · rw [hrun, meets_some] at hhead
      obtain ⟨hs', hr⟩ := hhead
      by_cases hnormal : r = .normal
      · subst hnormal
        have hrest := f.triple_rest start _ _ fuel s' hs'
        rcases hrun' : run (semantics V) fuel f.rest s' with _ | ⟨r, s''⟩
        · simp [hrun, hrun'] at h
        · rw [hrun', meets_some] at hrest
          rcases hrest with ⟨rfl, hs''⟩ | ⟨⟨v, rfl⟩, hs''⟩ | ⟨hne, hthrown, hs''⟩
          · simp only [hrun, hrun'] at h
            exact ih (iteration + 1) (by simpa using hs'') h
          · simp only [hrun, hrun', Option.some.injEq] at h
            subst h
            exact .inr (.inl ⟨rfl, ⟨v, rfl⟩, hs''⟩)
          · have hstop : stop = ⟨iteration, false, r, s''⟩ := by
              cases r <;> simp_all
            subst hstop
            exact .inr (.inr ⟨rfl, hne, hthrown, hs''⟩)
      · have hstop : stop = ⟨iteration, true, r, s'⟩ := by
          cases r <;> simp_all
        subst hstop
        exact .inl ⟨rfl, hs', by simpa [hnormal] using hr⟩

end ForOfStatement

/-- A run of the code of a loop that comes to an end. -/
structure Execution (f : ForOfStatement) (V : Type) where
  fuel : ℕ
  start : State V
  result : Result V Label
  final : State V
  runs : run (semantics V) fuel f.code start = some (result, final)

namespace Execution

variable {V : Type} {f : ForOfStatement} (x : Execution f V)

/-- The state in front of the first iteration, if there is an iterator. -/
def entered : Option (State V) :=
  match exec (.getIterator f.name) x.start with
  | some (.ok (), s) =>
    some { s with doneReg := Function.update (Function.update s.doneReg f.name false) f.name true }
  | _ => none

/-- How the iterations end. -/
def stop : Option (Stop V) := x.entered.bind (f.stop x.fuel x.fuel 0)

/-- `return` is looked up once, and called if there is such a method. -/
def ClosedOnce : Prop :=
  x.final.lookups f.name = x.start.lookups f.name + 1 ∧
    x.final.calls f.name + x.start.methods f.name = x.start.calls f.name + x.final.methods f.name

def NotCalled : Prop := x.final.calls f.name = x.start.calls f.name

/-- The protocol: an exception of the statement or the binding goes on and closes the iterator, so
does what leaves the loop in another way; the iterator's own exceptions do not call `return`. -/
def FollowsProtocol : Prop :=
  ∀ stop, x.stop = some stop →
    match stop.inHead, stop.result with
    | true, _ => x.NotCalled
    | false, .thrown v 0 => x.ClosedOnce ∧ x.result = .thrown v 0
    | false, _ => x.ClosedOnce

/-- The iterator has a method `return`, when it is looked up next. -/
def findsMethod (s : State V) : Bool :=
  match s.inputs with
  | .holds true :: _ => true
  | _ => false

/-- Closing the iterator throws nothing but possibly this exception again. -/
def ClosesQuietly (v : V) (s : State V) : Prop :=
  match s.inputs with
  | .holds false :: _ => True
  | .holds true :: .completes :: _ => True
  | .holds true :: .throws w :: _ => w = v
  | .throws w :: _ => w = v
  | _ => False

/-- The condition: the iterator's own exceptions come in the first iteration, or there is no
method to call; and none comes from `return` while another is under way. -/
def Meets : Prop :=
  ∀ stop, x.stop = some stop → ∀ v, stop.result = .thrown v 0 →
    if stop.inHead then stop.iteration = 0 ∨ findsMethod stop.state = false
    else ClosesQuietly v stop.state

theorem closed_entered {s : State V} (h : x.entered = some s) :
    Closed (f.account x.start true) (x.start.lookups f.name) s := by
  unfold entered at h
  split at h
  · rename_i s' heq
    have hstart : Closed (f.account x.start (x.start.doneReg f.name)) (x.start.lookups f.name)
        x.start := ⟨rfl, ⟨by simp [ForOfStatement.account, Nat.add_comm], Nat.le_refl _, by
          simp [ForOfStatement.account, Nat.add_comm]⟩, rfl⟩
    obtain ⟨hn, howes, -⟩ := closed_exec (i := .getIterator f.name) hstart trivial heq
    cases h
    exact ⟨hn, howes, by simp [ForOfStatement.account]⟩
  · simp at h

theorem outcome_of_stop {stop : Stop V} (h : x.stop = some stop) :
    landing (.breakTarget f.target)
      (caught (semantics V).catching
        (run (semantics V) x.fuel (compileExceptionHandler f.name))
        (some (stop.result, stop.state))) = some (x.result, x.final) := by
  have hruns := x.runs
  unfold Execution.stop entered at h
  split at h
  · rename_i s heq
    have hget : (semantics V).exec (.getIterator f.name) x.start = some (.ok (), s) := heq
    have hstop : f.stop x.fuel x.fuel 0 _ = some stop := h
    rw [ForOfStatement.code_eq] at hruns
    simp only [compileForOfStatement, run, perform, hget, andThen] at hruns
    change landing _ (run (semantics V) x.fuel (compileTry f.name f.target f.body)
      { s with doneReg := Function.update s.doneReg f.name false }) = _ at hruns
    rw [f.run_compileTry, hstop] at hruns
    exact hruns
  · simp at h

/-- The handler, in the second iteration and later or for an exception of the statement. -/
theorem handler_spec {fuel : ℕ} {v : V} {s s' : State V} {r : Result V Label}
    (hdone : s.doneReg f.name = false)
    (h : run (semantics V) fuel (compileExceptionHandler f.name) ((semantics V).catching v s) =
      some (r, s')) :
    (r = .thrown v 0 ↔ ClosesQuietly v s) ∧
      s'.calls f.name = s.calls f.name + (findsMethod s).toNat := by
  obtain ⟨inputs, trace, doneReg, hasReturn, exceptionVreg, accumulator⟩ := s
  have hdone : doneReg f.name = false := hdone
  simp only [compileExceptionHandler, closeIterator, run, perform, semantics, exec, andThen,
    choose, test, hdone] at h
  -- What comes next in the world: the lookup, and the call if it has found a method.
  rcases inputs with _ | ⟨_ | w | b, inputs⟩
  · simp at h
  · simp at h
  · cases h
    simp [ClosesQuietly, findsMethod, State.calls, State.log]
  · cases b with
    | false =>
      simp [State.lookedUp] at h
      obtain ⟨rfl, rfl⟩ := h
      simp [ClosesQuietly, findsMethod, State.calls, State.log]
    | true =>
      simp only [State.lookedUp, Function.update_self, State.perform] at h
      rcases inputs with _ | ⟨_ | w | b, inputs⟩
      · simp at h
      · simp at h
        obtain ⟨rfl, rfl⟩ := h
        simp [ClosesQuietly, findsMethod, State.calls, State.log]
      · simp at h
        obtain ⟨rfl, rfl⟩ := h
        simp [ClosesQuietly, findsMethod, State.calls, State.log]
      · simp at h

theorem handler_done {fuel : ℕ} {v : V} {s s' : State V} {r : Result V Label}
    (hdone : s.doneReg f.name = true)
    (h : run (semantics V) fuel (compileExceptionHandler f.name) ((semantics V).catching v s) =
      some (r, s')) : s'.calls f.name = s.calls f.name := by
  simp only [compileExceptionHandler, run, perform, semantics, exec, andThen, choose, test, hdone,
    Option.some.injEq, Prod.mk.injEq] at h
  obtain ⟨-, rfl⟩ := h
  rfl

theorem ends_handler {a : Account} (ha : a.done = false) (n : ℕ) :
    Triple (semantics V) (Closed a n) (compileExceptionHandler a.loop) (Ends a (n + 1)) := by
  refine .seq (R := Closed a n) (.op ?_ ?_) (.seq (R := Closed a (n + 1))
    (.test (T := fun _ => False) (F := Closed a n) ?_ ?_ ?_ ?_
      ((ends_closeIterator_self n (ends_skip _)).post ?_))
    (ends_op (i := .throwException a.loop) trivial _))
  · rintro s s' hs ⟨⟩
    exact hs
  · rintro s e s' - ⟨⟩
  · intro s s' hs h
    obtain ⟨htrue, -⟩ : s.doneReg a.loop = true ∧ s = s' := by simpa [semantics, test] using h
    simp [hs.2.2, ha] at htrue
  · intro s s' hs h
    obtain ⟨-, rfl⟩ : s.doneReg a.loop = false ∧ s = s' := by simpa [semantics, test] using h
    exact hs
  · intro s e s' hs h
    simp [semantics, test] at h
  · exact .skip (by rintro _ ⟨⟩)
  · rintro r s ⟨hs, rfl | ⟨e, rfl⟩⟩
    · exact hs
    · exact ⟨hs, .inr ⟨e, rfl⟩⟩

theorem closed_calls {start : State V} {b : Bool} {s : State V}
    (hs : Closed (f.account start b) (start.lookups f.name) s) :
    s.calls f.name = start.calls f.name := by
  obtain ⟨hn, ⟨hcalls, hge, hle⟩, -⟩ := hs
  simp only [ForOfStatement.account] at hn hcalls hge hle
  omega

theorem closedOnce
    (h : Closed (f.account x.start false) (x.start.lookups f.name + 1) x.final) : x.ClosedOnce := by
  obtain ⟨hn, ⟨hcalls, -, -⟩, -⟩ := h
  simp only [ForOfStatement.account] at hn hcalls
  exact ⟨hn, by omega⟩

/-- `for (x of y);` in a function. -/
def emptyLoop : ForOfStatement where
  targets := []
  nest := .function
  name := 0
  statement := .empty
  fresh := by simp [Nest.loops, Statement.loops]

def emptyLoopStart : State ℕ where
  inputs := [.completes, .completes, .holds false, .completes, .completes, .throws 7, .holds true,
    .completes]
  trace := []
  doneReg _ := false
  hasReturn _ := false
  exceptionVreg _ := 0
  accumulator := 0

/-- The second call of `next` throws. -/
def secondNextThrows : Execution emptyLoop ℕ where
  fuel := 3
  start := emptyLoopStart
  result := ((run (semantics ℕ) 3 emptyLoop.code emptyLoopStart).getD (.normal, emptyLoopStart)).1
  final := ((run (semantics ℕ) 3 emptyLoop.code emptyLoopStart).getD (.normal, emptyLoopStart)).2
  runs := rfl

end Execution

end ArkTs2abc.Ts2panda.ForOf
