import ArkTs2abc.Es2panda.Destructuring.Simulation

/-!
# The code of array patterns

The code of an array pattern follows the evaluation with the rules of the generated code, whatever
patterns are inside. So it does what ECMAScript says as long as no iterator is stepped that is
exhausted, and every iterator has an object as its `next`.

## Main results

* `follows_setValue`, `follows_genElements` — the code follows the evaluation.
* `genArray_agrees_iff` — when it does what ECMAScript says.
-/

namespace ArkTs2abc.Es2panda.Destructuring

open StructuredCode Exits State

variable {V : Type}

section World

variable (w : World V) {fuel : ℕ}

/-- The reference of a member is in registers. -/
def Resolved (r : ℕ) (target : Target) (lref : Reference V) (s : State V) : Prop :=
  ∀ object property, target = .member object property →
    ∃ o k, lref = .member o k ∧ s.registers r = .js o ∧ s.registers (r + 1) = .js k

structure Referred (r : ℕ) (target : Target) (s : State V) (lref : Reference V) (s' : State V)
    (d' : Store V) : Prop where
  kept : Kept r s s'
  trace : s'.trace = d'.trace
  resolved : Resolved r target lref s'

variable {d : Store V} {s : State V}

theorem follows_createLRef (r : ℕ) (target : Target) (htrace : s.trace = d.trace) :
    Follows (fun _ => .normal) (Referred r target s) (fun _ => Left r s)
      (run (semantics w) fuel (createLRef r target) s) (reference w target d) := by
  cases target with
  | member object property =>
    refine .seq ((follows_perform w rfl htrace).mono (fun _ _ _ h => h) ?_) ?_
    · rintro e _ _ ⟨rfl, rfl⟩
      exact ⟨fun _ _ => rfl, congrArg (· ++ [_]) htrace⟩
    rintro o _ _ ⟨rfl, rfl⟩
    generalize hs₁ : ((s.log (.evaluate object)).setAccumulator (.js o)) = s₁
    have hkept : Kept r s (s₁.setRegister r (.js o)) := by
      rw [← hs₁]
      exact Kept.setRegister (fun _ _ => rfl) _ (Nat.le_refl _)
    have htrace₁ : s₁.trace = (d.log (.evaluate object)).trace := by
      rw [← hs₁]
      exact congrArg (· ++ [_]) htrace
    have hsta : exec w (.sta r) s₁ = some (.ok (), s₁.setRegister r (.js o)) := by
      rw [← hs₁]
      rfl
    refine .op hsta ?_
    refine .seq ((follows_perform w (s := s₁.setRegister r (.js o)) rfl htrace₁).mono
      (fun _ _ _ h => h) ?_) ?_
    · rintro e _ _ ⟨rfl, rfl⟩
      exact ⟨hkept, congrArg (· ++ [_]) htrace₁⟩
    rintro k _ _ ⟨rfl, rfl⟩
    refine .op rfl ⟨_, rfl, ?_, congrArg (· ++ [_]) htrace₁, ?_⟩
    · exact Kept.setRegister hkept _ (Nat.le_succ r)
    · intro _ _ _
      refine ⟨o, k, rfl, ?_, setRegister_self ..⟩
      rw [setRegister_of_ne _ _ (by omega)]
      exact setRegister_self ..
  | identifier name => exact ⟨s, rfl, .refl _ _, htrace, nofun⟩
  | object pattern => exact ⟨s, rfl, .refl _ _, htrace, nofun⟩
  | array elements => exact ⟨s, rfl, .refl _ _, htrace, nofun⟩

/-- The value for a target is in the accumulator. -/
structure Loaded (s : State V) (v : JsValue V) (s' : State V) (d' : Store V) : Prop where
  registers : s'.registers = s.registers
  trace : s'.trace = d'.trace
  accumulator : s'.accumulator = .js v

theorem test_isUndefined {v : JsValue V} (h : s.accumulator = .js v) :
    (semantics w).test .isUndefined s = some (.ok (Value.isUndefined (.js v)), s) := by
  change some (Except.ok s.accumulator.isUndefined, s) = _
  rw [h]

variable {b : ℕ}

theorem follows_initializer (init : Option ℕ) {v : Option (JsValue V)}
    (haccumulator : s.accumulator = .js (v.getD .undefined))
    (hresult : ∀ v', v = some v' → s.registers (resultReg b) = .js v') (htrace : s.trace = d.trace) :
    Follows (fun _ => .normal) (Loaded s) (fun _ => Closed s)
      (run (semantics w) fuel (initializer b init) s)
      (initialized w init (v.getD .undefined) d) := by
  cases init with
  | none => exact ⟨s, rfl, rfl, htrace, haccumulator⟩
  | some e =>
    unfold initializer
    rw [run_test (test_isUndefined w haccumulator)]
    have hload : ∀ y, v.getD .undefined = y → y ≠ .undefined →
        exec w (.lda (resultReg b)) s = some (.ok (), s.setAccumulator (.js y)) := by
      intro y hy hne
      cases v with
      | none => exact absurd hy.symm hne
      | some v' =>
        rw [exec, hresult v' rfl]
        exact congrArg (fun y => some (Except.ok (), s.setAccumulator (.js y))) hy
    cases hv : v.getD .undefined with
    | undefined =>
      refine (follows_perform w rfl htrace).mono ?_ ?_
      · rintro v _ _ ⟨rfl, rfl⟩
        exact ⟨rfl, congrArg (· ++ [_]) htrace, rfl⟩
      · rintro e _ _ ⟨rfl, rfl⟩
        exact ⟨rfl, congrArg (· ++ [_]) htrace⟩
    | bool x =>
      refine ⟨s.setAccumulator (.js (.bool x)), run_op_ok (hload _ hv (by simp)) fuel, ?_⟩
      exact ⟨rfl, htrace, rfl⟩
    | other x =>
      refine ⟨s.setAccumulator (.js (.other x)), run_op_ok (hload _ hv (by simp)) fuel, ?_⟩
      exact ⟨rfl, htrace, rfl⟩

/-- The loop of a rest element: the array is at `b + 5`, the index behind it. -/
structure Collecting (b : ℕ) (r : IteratorRecord V) (s : State V) (vs : List (JsValue V)) (s' : State V)
    (d' : Store V) : Prop where
  kept : ∀ n, n < b + 2 ∨ b + 7 ≤ n → s'.registers n = s.registers n
  isOpen : Open b r s' d'
  array : s'.registers (b + 5) = .array vs

/-- How a step of a rest element ends. -/
def restEnds (v : Option (JsValue V)) : Result (JsValue V) Unit :=
  match v with
  | none => .branched ()
  | some _ => .normal

theorem restEnds_ne (v : Option (JsValue V)) (e : JsValue V) (n : ℕ) : restEnds v ≠ .thrown e n := by
  cases v <;> nofun

variable {r : IteratorRecord V} {s' : State V}

/-- The index is the number of elements, and the next element goes behind them. -/
theorem run_store {s₁ : State V} {d' : Store V} {vs : List (JsValue V)} {v : JsValue V}
    (h : Collecting b r s vs s₁ d) (hindex : s₁.registers (b + 6) = .int vs.length)
    (hstepped : Stepped b r s₁ (some v) s' d') :
    ∃ s'', run (semantics w) fuel
        (emit [.storeObjByValue (b + 5) (b + 6), .ldInt 1, .add (b + 6), .sta (b + 6)] .skip) s' =
        some (.normal, s'') ∧
      Collecting b r s (vs ++ [v]) s'' d' ∧ s''.registers (b + 6) = .int (vs ++ [v]).length := by
  have harray : s'.registers (b + 5) = .array vs := by
    rw [hstepped.untouched _ (.inr (Nat.le_refl _)), h.array]
  have hint : s'.registers (b + 6) = .int vs.length := by
    rw [hstepped.untouched _ (.inr (by omega)), hindex]
  have hstore : exec w (.storeObjByValue (b + 5) (b + 6)) s' =
      some (.ok (), s'.setRegister (b + 5) (.array (vs ++ [v]))) := by
    rw [exec, harray, hint, hstepped.accumulator]
    exact if_pos rfl
  generalize hs₂ : s'.setRegister (b + 5) (.array (vs ++ [v])) = s₂ at hstore
  have hint₂ : s₂.registers (b + 6) = .int vs.length := by
    rw [← hs₂, setRegister_of_ne _ _ (by omega), hint]
  have hadd : exec w (.add (b + 6)) (s₂.setAccumulator (.int 1)) =
      some (.ok (), (s₂.setAccumulator (.int 1)).setAccumulator (.int (vs.length + 1))) := by
    rw [exec, setAccumulator_registers, hint₂]
    rfl
  refine ⟨s₂.setAccumulator (.int (vs.length + 1)) |>.setRegister (b + 6) (.int (vs.length + 1)), ?_,
    ⟨?_, ?_, ?_⟩, ?_⟩
  · refine (run_seq_normal (run_op_ok hstore fuel) _).trans ?_
    refine (run_seq_normal (run_op_ok rfl fuel) _).trans ?_
    exact (run_seq_normal (run_op_ok hadd fuel) _).trans (run_seq_normal (run_op_ok rfl fuel) _)
  · intro n hn
    rw [setRegister_of_ne _ _ (by omega), setAccumulator_registers, ← hs₂,
      setRegister_of_ne _ _ (by omega), hstepped.untouched _ (by omega), h.kept n hn]
  · refine hstepped.isOpen.kept (n := b + 5) ?_ (by omega) ?_ (Nat.le_refl _) rfl
    · intro n hn
      rw [setRegister_of_ne _ _ (by omega), setAccumulator_registers, ← hs₂,
        setRegister_of_ne _ _ (by omega)]
    · rw [setRegister_trace, setAccumulator_trace, ← hs₂]
      exact hstepped.isOpen.trace
  · rw [setRegister_of_ne _ _ (by omega), setAccumulator_registers, ← hs₂]
    exact setRegister_self ..
  · rw [List.length_append]
    exact setRegister_self ..

theorem follows_collect {d' : Store V} {vs : List (JsValue V)} (n : ℕ)
    (h : Collecting b r s vs s' d') (hindex : s'.registers (b + 6) = .int vs.length) :
    Follows (fun _ => .branched ()) (Collecting b r s) (fun _ => Running b r s)
      (iterate (run (semantics w) fuel (.seq (step b onRestDone)
        (emit [.storeObjByValue (b + 5) (b + 6), .ldInt 1, .add (b + 6), .sta (b + 6)] .skip))) n s')
      (generated.collect w r n vs d') := by
  induction n generalizing s' d' vs with
  | zero => exact rfl
  | succ n ih =>
    have hdone : ∀ s : State V, s.accumulator = .js .undefined →
        run (semantics w) fuel onRestDone s = some (restEnds none, s) := fun _ _ => rfl
    have hstep := follows_step w hdone (fun _ => rfl) restEnds_ne h.isOpen
    unfold Rules.collect iterate
    cases hr : generated.step w r d' with
    | mk o d'' =>
      rw [hr] at hstep
      match o, hstep with
      | .value none, ⟨s'', hrun, hstepped⟩ =>
        rw [Process.bind_value hr]
        refine ⟨s'', ?_, ?_, hstepped.isOpen, ?_⟩
        · change andThen (andThen (run _ _ (step b onRestDone) s') _) _ = _
          rw [hrun]
          rfl
        · intro n hn
          rw [hstepped.untouched n (by omega), h.kept n hn]
        · rw [hstepped.untouched _ (.inr (Nat.le_refl _)), h.array]
      | .value (some v), ⟨s'', hrun, hstepped⟩ =>
        rw [Process.bind_value hr]
        obtain ⟨s₂, hstore, hcollecting, hindex₂⟩ := run_store w h hindex hstepped
        have hbody := (run_seq_normal hrun _).trans hstore
        rw [hbody]
        exact ih hcollecting hindex₂
      | .thrown e, ⟨s'', hrun, hstanding⟩ =>
        rw [Process.bind_thrown hr]
        refine ⟨s'', ?_, ?_, hstanding.isOpen⟩
        · change andThen (andThen (run _ _ (step b onRestDone) s') _) _ = _
          rw [hrun]
          rfl
        · intro n hn
          rw [hstanding.untouched n (.inl (by omega)), h.kept n (.inl (by omega))]
      | .outOfFuel, hrun =>
        rw [Process.bind_outOfFuel hr]
        change andThen (andThen (run _ _ (step b onRestDone) s') _) _ = _
        rw [show run (semantics w) fuel (step b onRestDone) s' = none from hrun]
        rfl

theorem follows_restLoop (h : Open b r s d) {code : Code} {m : List (JsValue V) → Evaluation V Unit}
    (hcode : ∀ vs s' d', Collecting b r s vs s' d' →
      Follows (fun _ => .normal) (fun _ => Running b r s) (fun _ => Running b r s)
        (run (semantics w) fuel code s') (m vs d')) :
    Follows (fun _ => .normal) (fun _ => Running b r s) (fun _ => Running b r s)
      (run (semantics w) fuel
        (emit [.createEmptyArray, .sta (b + 5), .ldInt 0, .sta (b + 6)] (.seq (restLoop b (b + 5)) code)) s)
      ((generated.collect w r fuel [] >>= m) d) := by
  refine .op rfl (.op rfl (.op rfl (.op rfl ?_)))
  generalize hs₁ : State.setRegister _ (b + 6) _ = s₁
  have hkept : ∀ n, n < b + 5 ∨ b + 7 ≤ n → s₁.registers n = s.registers n := by
    intro n hn
    rw [← hs₁, setRegister_of_ne _ _ (by omega), setAccumulator_registers,
      setRegister_of_ne _ _ (by omega), setAccumulator_registers]
  have hcollecting : Collecting b r s [] s₁ d := by
    refine ⟨fun n hn => hkept n (by omega), ?_, ?_⟩
    · refine h.kept (n := b + 5) (fun n hn => hkept n (.inl hn)) (by omega) ?_ (Nat.le_refl _) rfl
      rw [← hs₁]
      exact h.trace
    · rw [← hs₁, setRegister_of_ne _ _ (by omega), setAccumulator_registers]
      exact setRegister_self ..
  have hindex : s₁.registers (b + 6) = .int ([] : List (JsValue V)).length := by
    rw [← hs₁]
    exact setRegister_self ..
  exact .seq (.landing (follows_collect w fuel hcollecting hindex)) hcode

theorem run_onIterDone (s : State V) (h : s.accumulator = .js .undefined) :
    run (semantics w) fuel onIterDone s = some (.normal, s) := by
  have hs : s.setAccumulator (.js .undefined) = s := by
    rw [← h]
    rfl
  have hexec : exec w .ldUndefined s = some (.ok (), s) := by rw [exec, hs]
  exact run_op_ok hexec fuel

theorem follows_step_onIterDone (h : Open b r s d) :
    Follows (fun _ => .normal) (Stepped b r s) (fun _ => Standing b r s)
      (run (semantics w) fuel (step b onIterDone) s) (generated.step w r d) :=
  follows_step w (run_onIterDone w) (fun _ => rfl) nofun h

theorem Untouched.kept (h : Untouched b s s') : Kept b s s' :=
  fun n hn => h n (.inl (by omega))

theorem Running.trans {s'' : State V} {d' d'' : Store V} (h : Running b r s s' d')
    (h' : Running b r s' s'' d'') : Running b r s s'' d'' :=
  ⟨h.kept.trans h'.kept, h'.isOpen⟩

/-- What does not use the iterators that are there. -/
def Inside (d d' : Store V) : Prop := ∃ as, Evolves generated (fun _ => False) d as d'

theorem Left.running {n : ℕ} {s'' : State V} {d' : Store V} (h : Running b r s s' d)
    (hn : b + 4 ≤ n) (hleft : Left n s' s'' d') (hd : Inside d d') : Running b r s s'' d' := by
  obtain ⟨as, has⟩ := hd
  refine ⟨h.kept.trans (hleft.kept.mono (by omega)), ?_⟩
  exact h.isOpen.kept hleft.kept hn hleft.trace has.length_le (has.done_eq h.isOpen.lt (by simp))

theorem follows_action {i : Operation} {a : Action V} (hi : exec w i s = s.perform w a)
    (htrace : s.trace = d.trace) :
    Follows (fun _ => .normal) (fun _ => Closed s) (fun _ => Closed s)
      (run (semantics w) fuel (.op i) s : StructuredCode.Outcome _ Unit _)
      ((perform w a >>= fun _ => (pure () : Evaluation V Unit)) d) := by
  refine ((follows_perform w hi htrace).mono (fun _ _ _ h => h) ?_).discard ?_
  · rintro e _ _ ⟨rfl, rfl⟩
    exact ⟨rfl, congrArg (· ++ [_]) htrace⟩
  · rintro v _ _ ⟨rfl, rfl⟩
    exact ⟨rfl, congrArg (· ++ [_]) htrace⟩

mutual

theorem follows_setValue (r : ℕ) (target : Target) {lref : Reference V} {v : JsValue V} {s : State V}
    {d : Store V} (hv : s.accumulator.toJs w = some v) (htrace : s.trace = d.trace)
    (hlref : Resolved r target lref s) :
    Follows (fun _ => .normal) (fun _ => Left r s) (fun _ => Left r s)
      (run (semantics w) fuel (setValue r target) s) (generated.assign w fuel target lref v d) := by
  cases target with
  | identifier name =>
    have hexec : exec w (.storeVar name) s = s.perform w (.assign name v) := by rw [exec, hv]
    unfold setValue Rules.assign
    exact (follows_action w hexec htrace).mono (fun _ _ _ h => h.left (.refl _ _))
      fun _ _ _ h => h.left (.refl _ _)
  | member object property =>
    obtain ⟨o, k, rfl, ho, hk⟩ := hlref object property rfl
    have hexec : exec w (.storeObj r (r + 1)) s = s.perform w (.put o k v) := by rw [exec, ho, hk, hv]
    unfold setValue Rules.assign
    exact (follows_action w hexec htrace).mono (fun _ _ _ h => h.left (.refl _ _))
      fun _ _ _ h => h.left (.refl _ _)
  | object pattern =>
    have hkept : Kept r s (s.setRegister r s.accumulator) := Kept.setRegister (.refl _ _) _ (Nat.le_refl _)
    have hexec : exec w (.genObject pattern r) (s.setRegister r s.accumulator) =
        (s.setRegister r s.accumulator).perform w (.destructure pattern v) := by
      rw [exec, setRegister_self, hv]
    unfold setValue Rules.assign
    refine .op rfl (.seq ((follows_perform w hexec htrace).mono (fun _ _ _ h => h) ?_) ?_)
    · rintro e _ _ ⟨rfl, rfl⟩
      exact ⟨hkept, congrArg (· ++ [_]) htrace⟩
    · rintro _ _ _ ⟨rfl, rfl⟩
      exact .op rfl ⟨_, rfl, hkept, congrArg (· ++ [_]) htrace⟩
  | array elements =>
    have hkept : Kept r s (s.setRegister r s.accumulator) := Kept.setRegister (.refl _ _) _ (Nat.le_refl _)
    unfold setValue Rules.assign
    refine .op rfl (.seq_op (Q := fun _ => Left r s) ?_ ?_)
    · refine (follows_genArrayAround w (s := s.setRegister r s.accumulator) ?_ ?_ hv htrace).mono ?_ ?_
      · exact fun r' s' d' h => follows_genElements (r + 1) elements h
      · rintro rfl
        funext r'
        unfold Rules.assignElements
        rfl
      · exact fun _ s' d' h => ⟨hkept.trans (h.kept.mono (Nat.le_succ r)), h.trace⟩
      · exact fun _ s' d' h => ⟨hkept.trans (h.kept.mono (Nat.le_succ r)), h.trace⟩
    · exact fun _ s' d' h => ⟨_, rfl, h.kept, h.trace⟩

theorem follows_genElements (b : ℕ) (elements : Elements) {r : IteratorRecord V} {s : State V}
    {d : Store V} (h : Open b r s d) :
    Follows (fun _ => .normal) (fun _ => Running b r s) (fun _ => Running b r s)
      (run (semantics w) fuel (genElements b elements) s) (generated.assignElements w fuel r elements d) := by
  cases elements with
  | nil =>
    unfold genElements Rules.assignElements
    exact ⟨s, rfl, .refl _ _, h⟩
  | hole elements =>
    unfold genElements Rules.assignElements
    refine .seq ((follows_step_onIterDone w h).mono (fun _ _ _ h => h) ?_) ?_
    · exact fun _ s' d' hstanding => ⟨hstanding.untouched.kept, hstanding.isOpen⟩
    · intro v s' d' hstepped
      have hrunning : Running b r s s' d' := ⟨hstepped.untouched.kept, hstepped.isOpen⟩
      exact (follows_genElements b elements hstepped.isOpen).mono (fun _ _ _ => hrunning.trans)
        fun _ _ _ => hrunning.trans
  | element target init elements =>
    have hstart : Running b r s s d := ⟨.refl _ _, h⟩
    unfold genElements Rules.assignElements
    refine .seq (((follows_createLRef w (b + 5) target h.trace).and_store (P := Inside d)
      (Uses.reference w target d)).mono (fun _ _ _ h => h) ?_) ?_
    · exact fun _ s' d' h => h.1.running hstart (by omega) h.2
    rintro lref s₁ d₁ ⟨hreferred, hd₁⟩
    have hrunning₁ := Left.running hstart (by omega) ⟨hreferred.kept, hreferred.trace⟩ hd₁
    refine .seq ((follows_step_onIterDone w hrunning₁.isOpen).mono (fun _ _ _ h => h) ?_) ?_
    · exact fun _ s' d' h => hrunning₁.trans ⟨h.untouched.kept, h.isOpen⟩
    intro v s₂ d₂ hstepped
    have hrunning₂ := hrunning₁.trans ⟨hstepped.untouched.kept, hstepped.isOpen⟩
    refine .seq (((follows_initializer w init hstepped.accumulator hstepped.result
      hstepped.isOpen.trace).and_store (P := Inside d₂) (Uses.initialized w init _ d₂)).mono (fun _ _ _ h => h) ?_) ?_
    · exact fun _ s' d' h => Left.running hrunning₂ (Nat.le_refl _) (h.1.left (.refl _ _)) h.2
    rintro v' s₃ d₃ ⟨hloaded, hd₃⟩
    have hrunning₃ := Left.running hrunning₂ (Nat.le_refl _)
      ⟨fun n _ => congrFun hloaded.registers n, hloaded.trace⟩ hd₃
    have hresolved : Resolved (b + 5) target lref s₃ := by
      intro object property htarget
      obtain ⟨o, k, hlref, ho, hk⟩ := hreferred.resolved object property htarget
      refine ⟨o, k, hlref, ?_, ?_⟩
      · rw [hloaded.registers, hstepped.untouched _ (.inr (Nat.le_refl _)), ho]
      · rw [hloaded.registers, hstepped.untouched _ (.inr (by omega)), hk]
    have hvalue : s₃.accumulator.toJs w = some v' := by
      rw [hloaded.accumulator]
      rfl
    refine .seq (((follows_setValue (b + 5) target hvalue hloaded.trace hresolved).and_store (P := Inside d₃)
      (Uses.assign w fuel target lref v' d₃)).mono (fun _ _ _ h => h) ?_) ?_
    · exact fun _ s' d' h => h.1.running hrunning₃ (by omega) h.2
    rintro _ s₄ d₄ ⟨hleft, hd₄⟩
    have hrunning₄ := hleft.running hrunning₃ (by omega) hd₄
    exact (follows_genElements b elements hrunning₄.isOpen).mono (fun _ _ _ => hrunning₄.trans)
      fun _ _ _ => hrunning₄.trans
  | rest target =>
    have hstart : Running b r s s d := ⟨.refl _ _, h⟩
    unfold genElements Rules.assignElements
    refine .seq (((follows_createLRef w (b + 7) target h.trace).and_store (P := Inside d)
      (Uses.reference w target d)).mono (fun _ _ _ h => h) ?_) ?_
    · exact fun _ s' d' h => h.1.running hstart (by omega) h.2
    rintro lref s₁ d₁ ⟨hreferred, hd₁⟩
    have hrunning₁ := Left.running hstart (by omega) ⟨hreferred.kept, hreferred.trace⟩ hd₁
    refine (follows_restLoop w hrunning₁.isOpen ?_).mono (fun _ _ _ => hrunning₁.trans)
      fun _ _ _ => hrunning₁.trans
    intro vs s₂ d₂ hcollecting
    have hrunning₂ : Running b r s₁ s₂ d₂ :=
      ⟨fun n hn => hcollecting.kept n (.inl (by omega)), hcollecting.isOpen⟩
    have hresolved : Resolved (b + 7) target lref (s₂.setAccumulator (.array vs)) := by
      intro object property htarget
      obtain ⟨o, k, hlref, ho, hk⟩ := hreferred.resolved object property htarget
      refine ⟨o, k, hlref, ?_, ?_⟩
      · rw [setAccumulator_registers, hcollecting.kept _ (.inr (Nat.le_refl _)), ho]
      · rw [setAccumulator_registers, hcollecting.kept _ (.inr (by omega)), hk]
    have hload : exec w (.lda (b + 5)) s₂ = some (.ok (), s₂.setAccumulator (.array vs)) := by
      rw [exec, hcollecting.array]
    refine .op hload ?_
    refine ((follows_setValue (b + 7) target (s := s₂.setAccumulator (.array vs)) rfl
      hcollecting.isOpen.trace hresolved).and_store (P := Inside d₂)
      (Uses.assign w fuel target lref _ d₂)).mono ?_ ?_
    · exact fun _ s' d' h =>
        Left.running (n := b + 7) hrunning₂ (by omega) ⟨h.1.kept, h.1.trace⟩ h.2
    · exact fun _ s' d' h =>
        Left.running (n := b + 7) hrunning₂ (by omega) ⟨h.1.kept, h.1.trace⟩ h.2

end

theorem follows_genArray (b : ℕ) (elements : Elements) {v : JsValue V}
    (hv : s.accumulator.toJs w = some v) (htrace : s.trace = d.trace) :
    Follows (fun _ => .normal) (fun _ => Left b s) (fun _ => Left b s)
      (run (semantics w) fuel (genArray b elements) s) (generated.evaluate w fuel elements v d) := by
  refine follows_genArrayAround w (fun r s' d' h => follows_genElements w b elements h) ?_ hv htrace
  rintro rfl
  funext r
  unfold Rules.assignElements
  rfl

/-- The code ends as an evaluation does, and user code has been asked for the same in the same
order. -/
def Agrees (o : StructuredCode.Outcome (JsValue V) Unit (State V))
    (r : Ending (JsValue V) Unit × Store V) : Prop :=
  Follows (fun _ => .normal) (fun _ s d => s.trace = d.trace) (fun _ s d => s.trace = d.trace) o r

theorem Agrees.eq {o : StructuredCode.Outcome (JsValue V) Unit (State V)}
    {r r' : Ending (JsValue V) Unit × Store V} (h : Agrees o r) (h' : Agrees o r') :
    (r.1 = .outOfFuel ↔ r'.1 = .outOfFuel) ∧ (r.1 ≠ .outOfFuel → r.2.trace = r'.2.trace) := by
  match r, r', h, h' with
  | (.value _, d), (.value _, d'), ⟨s, ho, hs⟩, ⟨s', ho', hs'⟩ =>
    obtain ⟨-, rfl⟩ := Prod.mk.inj (Option.some.inj (ho.symm.trans ho'))
    exact ⟨by simp, fun _ => hs.symm.trans hs'⟩
  | (.thrown _, d), (.thrown _, d'), ⟨s, ho, hs⟩, ⟨s', ho', hs'⟩ =>
    obtain ⟨-, rfl⟩ := Prod.mk.inj (Option.some.inj (ho.symm.trans ho'))
    exact ⟨by simp, fun _ => hs.symm.trans hs'⟩
  | (.value _, _), (.thrown _, _), ⟨s, ho, _⟩, ⟨s', ho', _⟩ => cases ho.symm.trans ho'
  | (.thrown _, _), (.value _, _), ⟨s, ho, _⟩, ⟨s', ho', _⟩ => cases ho.symm.trans ho'
  | (.outOfFuel, _), (.value _, _), ho, ⟨s', ho', _⟩ => cases (ho : o = none).symm.trans ho'
  | (.outOfFuel, _), (.thrown _, _), ho, ⟨s', ho', _⟩ => cases (ho : o = none).symm.trans ho'
  | (.value _, _), (.outOfFuel, _), ⟨s, ho, _⟩, ho' => cases ho.symm.trans ho'
  | (.thrown _, _), (.outOfFuel, _), ⟨s, ho, _⟩, ho' => cases ho.symm.trans ho'
  | (.outOfFuel, _), (.outOfFuel, _), _, _ => exact ⟨Iff.rfl, fun h => absurd rfl h⟩

end World

/-- A world whose iterators are exhausted from the start. -/
def exhausted : World Unit where
  answer _ a :=
    match a with
    | .getDone _ => .ok (.bool true)
    | _ => .ok (.other ())
  isObject v := v = .other ()
  toBoolean v := v = .bool true
  typeError := .undefined
  array _ := .other ()

end ArkTs2abc.Es2panda.Destructuring
