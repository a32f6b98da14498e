import ArkTs2abc.Es2panda.Destructuring.Code
import ArkTs2abc.Es2panda.Destructuring.Comparison

/-!
# The code of steps and of closing

The code for one step of an iterator, and the code around the elements of a pattern, follow the
evaluation with the rules of the generated code. The flag `done` of an iterator is in a register.

## Main definitions

* `Opened`, `Open` — the registers of an iterator hold what its record says.

## Main results

* `follows_step` — one step of an iterator.
* `follows_genArrayAround` — what is emitted around the elements.
-/

namespace ArkTs2abc.Es2panda.Destructuring

open StructuredCode Exits

variable {V : Type}

namespace State

@[simp] theorem setAccumulator_trace (s : State V) (v : Value V) : (s.setAccumulator v).trace = s.trace :=
  rfl

@[simp] theorem setAccumulator_registers (s : State V) (v : Value V) :
    (s.setAccumulator v).registers = s.registers := rfl

@[simp] theorem setRegister_trace (s : State V) (r : ℕ) (v : Value V) :
    (s.setRegister r v).trace = s.trace := rfl

@[simp] theorem setRegister_self (s : State V) (r : ℕ) (v : Value V) :
    (s.setRegister r v).registers r = v :=
  Function.update_self ..

theorem setRegister_of_ne (s : State V) {r r' : ℕ} (v : Value V) (h : r' ≠ r) :
    (s.setRegister r v).registers r' = s.registers r' :=
  Function.update_of_ne h ..

/-- The registers below `n` are the same. -/
def Kept (n : ℕ) (s s' : State V) : Prop := ∀ r < n, s'.registers r = s.registers r

theorem Kept.refl (n : ℕ) (s : State V) : Kept n s s := fun _ _ => rfl

theorem Kept.trans {n : ℕ} {s s' s'' : State V} (h : Kept n s s') (h' : Kept n s' s'') : Kept n s s'' :=
  fun r hr => (h' r hr).trans (h r hr)

theorem Kept.mono {n n' : ℕ} {s s' : State V} (h : Kept n s s') (hn : n' ≤ n) : Kept n' s s' :=
  fun r hr => h r (Nat.lt_of_lt_of_le hr hn)

theorem Kept.setRegister {n r : ℕ} {s s' : State V} (h : Kept n s s') (v : Value V) (hr : n ≤ r) :
    Kept n s (s'.setRegister r v) := by
  intro r' hr'
  rw [setRegister_of_ne _ _ (by omega)]
  exact h r' hr'

end State

open State

/-- The registers of an iterator, but for the flag `done`. -/
structure Opened (b : ℕ) (r : IteratorRecord V) (s : State V) (d : Store V) : Prop where
  trace : s.trace = d.trace
  method : s.registers (methodReg b) = .js r.next
  iterator : s.registers (iteratorReg b) = .iterator r.iterator
  lt : r.iterator < d.trace.length

/-- The registers of an iterator. -/
structure Open (b : ℕ) (r : IteratorRecord V) (s : State V) (d : Store V) : Prop
    extends Opened b r s d where
  done : s.registers (doneReg b) = .js (.bool (d.done r.iterator))

theorem Opened.kept {b n : ℕ} {r : IteratorRecord V} {s s' : State V} {d d' : Store V}
    (h : Opened b r s d) (hkept : Kept n s s') (hn : b + 2 ≤ n) (htrace : s'.trace = d'.trace)
    (hle : d.trace.length ≤ d'.trace.length) : Opened b r s' d' where
  trace := htrace
  method := (hkept _ (by unfold methodReg; omega)).trans h.method
  iterator := (hkept _ (by unfold iteratorReg; omega)).trans h.iterator
  lt := Nat.lt_of_lt_of_le h.lt hle

theorem Open.kept {b n : ℕ} {r : IteratorRecord V} {s s' : State V} {d d' : Store V}
    (h : Open b r s d) (hkept : Kept n s s') (hn : b + 4 ≤ n) (htrace : s'.trace = d'.trace)
    (hle : d.trace.length ≤ d'.trace.length) (hdone : d'.done r.iterator = d.done r.iterator) :
    Open b r s' d' where
  toOpened := h.toOpened.kept hkept (by omega) htrace hle
  done := by
    rw [hkept _ (by unfold doneReg; omega), h.done, hdone]

section World

variable (w : World V) {fuel : ℕ} {s : State V} {v : JsValue V} {d : Store V}

attribute [local simp] exec in
theorem exec_ldNext {r i : ℕ} (h : s.registers r = .iterator i) :
    exec w (.ldNext r) s = s.perform w (.getNext i) := by
  rw [exec, h]

theorem exec_ldDone {r : ℕ} (h : s.registers r = .js v) :
    exec w (.ldDone r) s = s.perform w (.getDone v) := by
  rw [exec, h]

theorem exec_ldValue {r : ℕ} (h : s.registers r = .js v) :
    exec w (.ldValue r) s = s.perform w (.getValue v) := by
  rw [exec, h]

theorem exec_callThis {r i : ℕ} (h : s.registers r = .js v) (h' : s.registers (r + 1) = .iterator i) :
    exec w (.callThis r) s = s.perform w (.next v i) := by
  rw [exec, h, h']

theorem test_isTrue {x : Bool} (h : s.accumulator = .js (.bool x)) :
    (semantics w).test .isTrue s = some (.ok x, s) := by
  change some (Except.ok s.accumulator.isTrue, s) = _
  rw [h]
  rfl

theorem follows_perform {i : Operation} {a : Action V} (hi : exec w i s = s.perform w a)
    (htrace : s.trace = d.trace) :
    Follows (fun _ => .normal) (fun v s' d' => s' = (s.log a).setAccumulator (.js v) ∧ d' = d.log a)
      (fun _ s' d' => s' = s.log a ∧ d' = d.log a)
      (run (semantics w) fuel (.op i) s : StructuredCode.Outcome _ Unit _) (perform w a d) := by
  unfold Destructuring.perform
  rw [State.perform, htrace] at hi
  cases hanswer : w.answer d.trace a with
  | ok v =>
    rw [hanswer] at hi
    exact ⟨_, run_op_ok hi fuel, rfl, rfl⟩
  | error e =>
    rw [hanswer] at hi
    exact ⟨_, run_op_error hi fuel, rfl, rfl⟩

theorem follows_requireObject (hv : s.accumulator = .js v) :
    Follows (fun _ => .normal) (fun _ s' d' => s' = s ∧ d' = d) (fun _ s' d' => s' = s ∧ d' = d)
      (run (semantics w) fuel (.op .throwIfNotObject) s : StructuredCode.Outcome _ Unit _)
      (requireObject w v d) := by
  have hexec : exec w .throwIfNotObject s =
      if w.isObject v then some (.ok (), s) else some (.error w.typeError, s) := by
    change s.requireObject w = _
    rw [State.requireObject, hv]
  unfold Destructuring.requireObject
  split at hexec
  · next h =>
    rw [if_pos h]
    exact ⟨_, run_op_ok hexec fuel, rfl, rfl⟩
  · next h =>
    rw [if_neg h]
    exact ⟨_, run_op_error hexec fuel, rfl, rfl⟩

/-- The registers that a step leaves alone. -/
def Untouched (b : ℕ) (s s' : State V) : Prop :=
  ∀ n, n < b + 2 ∨ b + 5 ≤ n → s'.registers n = s.registers n

variable {b : ℕ} {s' : State V}

theorem Untouched.setRegister {n : ℕ} (h : Untouched b s s') (v : Value V)
    (hn : b + 2 ≤ n ∧ n < b + 5) : Untouched b s (s'.setRegister n v) := by
  intro n' hn'
  rw [setRegister_of_ne _ _ (by omega)]
  exact h n' hn'

/-- What a step leaves: the accumulator holds the value or `undefined`. -/
structure Stepped (b : ℕ) (r : IteratorRecord V) (s : State V) (v : Option (JsValue V)) (s' : State V)
    (d' : Store V) : Prop where
  untouched : Untouched b s s'
  isOpen : Open b r s' d'
  accumulator : s'.accumulator = .js (v.getD .undefined)
  result : ∀ v', v = some v' → s'.registers (resultReg b) = .js v'

/-- What is kept while an iterator is asked. -/
structure Asking (b : ℕ) (r : IteratorRecord V) (s s' : State V) (d' : Store V) : Prop where
  untouched : Untouched b s s'
  opened : Opened b r s' d'

variable {d' : Store V} {r : IteratorRecord V} {ends : Option (JsValue V) → Result (JsValue V) Unit}

theorem Asking.log (h : Asking b r s s' d') (a : Action V) :
    Asking b r s (s'.log a) (d'.log a) where
  untouched := h.untouched
  opened := ⟨congrArg (· ++ [a]) h.opened.trace, h.opened.method, h.opened.iterator,
    Nat.lt_of_lt_of_le h.opened.lt (by simp)⟩

theorem Asking.setAccumulator (h : Asking b r s s' d') (v : Value V) :
    Asking b r s (s'.setAccumulator v) d' :=
  ⟨h.untouched, h.opened.trace, h.opened.method, h.opened.iterator, h.opened.lt⟩

theorem Asking.setRegister {n : ℕ} (h : Asking b r s s' d') (v : Value V)
    (hn : b + 2 ≤ n ∧ n < b + 5) :
    Asking b r s (s'.setRegister n v) d' where
  untouched := h.untouched.setRegister v hn
  opened := ⟨h.opened.trace, (setRegister_of_ne _ _ (by unfold methodReg; omega)).trans h.opened.method,
    (setRegister_of_ne _ _ (by unfold iteratorReg; omega)).trans h.opened.iterator, h.opened.lt⟩

theorem Asking.setDone (h : Asking b r s s' d') (i : ℕ) (x : Bool) :
    Asking b r s s' (d'.setDone i x) :=
  ⟨h.untouched, h.opened.trace, h.opened.method, h.opened.iterator, h.opened.lt⟩

section

variable {onDone : Code} (hdone : ∀ s : State V, s.accumulator = .js .undefined → run (semantics w) fuel onDone s = some (ends none, s)) (hsome : ∀ v, ends (some v) = .normal)
include hdone hsome

/-- The code behind the flag `done`. -/
theorem follows_answer (h : Asking b r s s' d') {x : Bool} {result : JsValue V}
    (haccumulator : s'.accumulator = .js (.bool x))
    (hflag : s'.registers (doneReg b) = .js (.bool x))
    (hresult : s'.registers (nextResult b) = .js result) :
    Follows ends (Stepped b r s) (fun _ => Asking b r s)
      (run (semantics w) fuel
        (.test .isTrue
          (emit [.ldBool true, .sta (doneReg b), .ldUndefined] onDone)
          (emit (value b ++ [.sta (resultReg b)]) .skip)) s')
      ((if x then pure none else do
        let v ← perform w (.getValue result)
        pure (some v) : Evaluation V (Option (JsValue V))) (d'.setDone r.iterator x)) := by
  have hopen := h.setDone r.iterator x
  rw [run_test (test_isTrue w haccumulator)]
  cases x with
  | true =>
    refine .op rfl (.op rfl (.op rfl ⟨_, hdone _ rfl, ?_⟩))
    have hset := ((hopen.setAccumulator (.js (.bool true))).setRegister (n := doneReg b)
      (.js (.bool true)) (by unfold doneReg; omega)).setAccumulator (.js .undefined)
    refine ⟨hset.untouched, ⟨hset.opened, ?_⟩, rfl, nofun⟩
    rw [Store.setDone_done_self]
    exact setRegister_self ..
  | false =>
    refine .seq ((follows_perform w (exec_ldValue w hresult) hopen.opened.trace).mono
      (fun _ _ _ h => h) ?_) ?_
    · rintro e _ _ ⟨rfl, rfl⟩
      exact hopen.log _
    rintro v _ _ ⟨rfl, rfl⟩
    have hset := ((hopen.log (.getValue result)).setAccumulator (.js v)).setRegister (.js v)
      (n := resultReg b) (by unfold resultReg; omega)
    refine .op rfl ⟨_, congrArg (fun e => some (e, _)) (hsome v).symm, hset.untouched,
      ⟨hset.opened, ?_⟩, rfl, ?_⟩
    · rw [Store.log_done, Store.setDone_done_self, setRegister_of_ne]
      · exact hflag
      · unfold doneReg resultReg
        omega
    · rintro v' ⟨⟩
      exact setRegister_self ..

theorem follows_ask (h : Opened b r s d) :
    Follows ends (Stepped b r s) (fun _ => Asking b r s)
      (run (semantics w) fuel
        (emit (next b ++ complete b ++ [.sta (doneReg b)])
          (.test .isTrue
            (emit [.ldBool true, .sta (doneReg b), .ldUndefined] onDone)
            (emit (value b ++ [.sta (resultReg b)]) .skip))) s)
      (ask w r d) := by
  have hasking : Asking b r s s d := ⟨fun _ _ => rfl, h⟩
  unfold ask
  refine .seq ((follows_perform w (exec_callThis w h.method h.iterator) h.trace).mono (fun _ _ _ h => h) ?_) ?_
  · rintro e _ _ ⟨rfl, rfl⟩
    exact hasking.log _
  rintro result _ _ ⟨rfl, rfl⟩
  have hresult := (hasking.log (.next r.next r.iterator)).setAccumulator (.js result)
  refine .seq ((follows_requireObject w rfl).mono (fun _ _ _ h => h) ?_) ?_
  · rintro e _ _ ⟨rfl, rfl⟩
    exact hresult
  rintro _ _ _ ⟨rfl, rfl⟩
  have hnext := hresult.setRegister (.js result) (n := nextResult b) (by unfold nextResult; omega)
  refine .op rfl ?_
  refine .seq ((follows_perform w (exec_ldDone w (setRegister_self ..)) hnext.opened.trace).mono
    (fun _ _ _ h => h) ?_) ?_
  · rintro e _ _ ⟨rfl, rfl⟩
    exact hnext.log _
  rintro done _ _ ⟨rfl, rfl⟩
  have hcomplete := ((hnext.log (.getDone result)).setAccumulator
    (.js (.bool (w.toBoolean done)))).setRegister (.js (.bool (w.toBoolean done))) (n := doneReg b)
    (by unfold doneReg; omega)
  refine .op rfl (.op rfl ?_)
  rw [Process.modify_bind]
  refine follows_answer w hdone hsome hcomplete rfl (setRegister_self ..) ?_
  rw [setRegister_of_ne]
  · exact setRegister_self ..
  · unfold doneReg nextResult
    omega

end

/-- What is kept around a step. -/
structure Standing (b : ℕ) (r : IteratorRecord V) (s s' : State V) (d' : Store V) : Prop where
  untouched : Untouched b s s'
  isOpen : Open b r s' d'

theorem follows_step {onDone : Code} (hdone : ∀ s : State V, s.accumulator = .js .undefined →
      run (semantics w) fuel onDone s = some (ends none, s)) (hsome : ∀ v, ends (some v) = .normal)
    (hends : ∀ a e n, ends a ≠ .thrown e n) (h : Open b r s d) :
    Follows ends (Stepped b r s) (fun _ => Standing b r s)
      (run (semantics w) fuel (step b onDone) s) (generated.step w r d) := by
  have hnote : Opened b r s (d.note (d.done r.iterator)) := ⟨h.trace, h.method, h.iterator, h.lt⟩
  refine .tryRange (follows_ask w hdone hsome hnote) ?_ hends
  intro e s' d' hasking
  have hset := (((((hasking.setAccumulator (.js e)).setRegister (n := resultReg b) (.js e)
    (by unfold resultReg; omega)).setAccumulator (.js (.bool true))).setRegister (n := doneReg b)
    (.js (.bool true)) (by unfold doneReg; omega)).setAccumulator (.js e)).setDone r.iterator true
  have hresult : (((((s'.setAccumulator (.js e)).setRegister (resultReg b) (.js e)).setAccumulator
      (.js (.bool true))).setRegister (doneReg b) (.js (.bool true))).registers (resultReg b)) =
      .js e := by
    rw [setRegister_of_ne]
    · exact setRegister_self ..
    · unfold doneReg resultReg
      omega
  refine .op rfl (.op rfl (.op rfl (.op (congrArg (fun v => some (Except.ok (), State.setAccumulator _ v)) hresult) ?_)))
  refine ⟨_, run_seq_error rfl fuel _, hset.untouched, hset.opened, ?_⟩
  rw [Store.setDone_done_self]
  exact setRegister_self ..

/-! ### Closing -/

/-- How a process ends that does what an instruction does. -/
def ending : Except (JsValue V) Unit → Ending (JsValue V) Unit
  | .ok () => .value ()
  | .error e => .thrown e

/-- An instruction does what a process does, and leaves the registers alone. -/
def Matches (s : State V) (o : State.Outcome V) (r : Ending (JsValue V) Unit × Store V) : Prop :=
  ∃ x s', o = some (x, s') ∧ s'.registers = s.registers ∧ s'.trace = r.2.trace ∧ r.1 = ending x

theorem matches_requireObject (hv : s.accumulator = .js v) (htrace : s.trace = d.trace) :
    Matches s (s.requireObject w) (requireObject w v d) := by
  unfold State.requireObject requireObject
  rw [hv]
  dsimp only
  cases h : w.isObject v with
  | true => exact ⟨.ok (), s, rfl, rfl, htrace, rfl⟩
  | false => exact ⟨.error w.typeError, s, rfl, rfl, htrace, rfl⟩

theorem matches_andThen {a : Action V} (htrace : s.trace = d.trace) {f : State V → State.Outcome V}
    {g : JsValue V → Evaluation V Unit}
    (h : ∀ v, Matches s (f ((s.log a).setAccumulator (.js v))) (g v (d.log a))) :
    Matches s (State.andThen (s.perform w a) f) ((perform w a >>= g) d) := by
  unfold State.perform
  rw [htrace]
  rcases perform_cases w a d with ⟨v, hperform⟩ | ⟨e, hperform⟩
  · rw [Process.bind_value hperform]
    have hanswer : w.answer d.trace a = .ok v := by
      unfold perform at hperform
      split at hperform <;> cases hperform
      assumption
    rw [hanswer]
    exact h v
  · rw [Process.bind_thrown hperform]
    have hanswer : w.answer d.trace a = .error e := by
      unfold perform at hperform
      split at hperform <;> cases hperform
      assumption
    rw [hanswer]
    exact ⟨.error e, s.log a, rfl, rfl, congrArg (· ++ [a]) htrace, rfl⟩

theorem matches_callReturn (r : IteratorRecord V) (htrace : s.trace = d.trace) :
    Matches s (s.callReturn w r.iterator) (close w r d) := by
  refine matches_andThen w htrace fun method => ?_
  have htrace' : ((s.log (.getReturn r.iterator)).setAccumulator (.js method)).trace =
      (d.log (.getReturn r.iterator)).trace := congrArg (· ++ [_]) htrace
  have hcall : Matches ((s.log (.getReturn r.iterator)).setAccumulator (.js method)) (State.andThen
      (State.perform w ((s.log (.getReturn r.iterator)).setAccumulator (.js method))
        (.callReturn method r.iterator)) (State.requireObject w))
      ((do
        let result ← perform w (.callReturn method r.iterator)
        requireObject w result : Evaluation V Unit) (d.log (.getReturn r.iterator))) :=
    matches_andThen w htrace' fun result => matches_requireObject w rfl (congrArg (· ++ [_]) htrace')
  cases method with
  | undefined => exact ⟨.ok (), _, rfl, rfl, htrace', rfl⟩
  | bool x => exact hcall
  | other v => exact hcall

/-- The registers and the trace behind an iterator that is closed. -/
def Closed (s s' : State V) (d' : Store V) : Prop := s'.registers = s.registers ∧ s'.trace = d'.trace

theorem follows_close {n : ℕ} (hreg : s.registers n = .iterator r.iterator)
    (haccumulator : s.accumulator = .hole) (htrace : s.trace = d.trace) :
    Follows (fun _ => .normal) (fun _ => Closed s) (fun _ => Closed s)
      (run (semantics w) fuel (.op (.closeIterator n)) s : StructuredCode.Outcome _ Unit _)
      (close w r d) := by
  obtain ⟨x, s', hcall, hregisters, htrace', hending⟩ := matches_callReturn w r htrace
  have hexec : (semantics w).exec (.closeIterator n) s = some (x, s') := by
    change exec w (.closeIterator n) s = _
    rw [exec, hreg]
    change s.closeIterator w r.iterator = _
    rw [State.closeIterator, haccumulator]
    exact hcall
  cases hclose : close w r d with
  | mk o d' =>
    rw [hclose] at htrace' hending
    cases x with
    | ok _ =>
      cases hending
      exact ⟨s', run_op_ok hexec fuel, hregisters, htrace'⟩
    | error e =>
      cases hending
      exact ⟨s', run_op_error hexec fuel, hregisters, htrace'⟩

theorem follows_closeAbrupt {n : ℕ} {e : JsValue V} (hreg : s.registers n = .iterator r.iterator)
    (haccumulator : s.accumulator = .js e) (htrace : s.trace = d.trace) :
    Follows (fun _ => .normal) (fun _ _ _ => False) (fun _ => Closed s)
      (run (semantics w) fuel (.op (.closeIterator n)) s : StructuredCode.Outcome _ Unit _)
      (closeAbrupt w r e d) := by
  obtain ⟨x, s', hcall, hregisters, htrace', hending⟩ := matches_callReturn w r htrace
  have hexec : (semantics w).exec (.closeIterator n) s = some (.error e, s') := by
    change exec w (.closeIterator n) s = _
    rw [exec, hreg]
    change s.closeIterator w r.iterator = _
    rw [State.closeIterator, haccumulator]
    change (s.callReturn w r.iterator).map _ = _
    rw [hcall]
    rfl
  have habrupt : closeAbrupt w r e d = (.thrown e, (close w r d).2) := by
    unfold closeAbrupt
    cases hclose : close w r d with
    | mk o d' =>
      rw [hclose] at hending
      cases x with
      | ok _ =>
        cases hending
        rw [Process.bind_value (Process.handle_value hclose _)]
        rfl
      | error e' =>
        cases hending
        have hhandle : (close w r).handle (fun _ => pure ()) d = (.value (), d') :=
          Process.handle_thrown hclose _
        rw [Process.bind_value hhandle]
        rfl
  rw [habrupt]
  exact ⟨s', run_op_error hexec fuel, hregisters, htrace'⟩

/-! ### Patterns -/

theorem follows_getIterator (hv : s.accumulator.toJs w = some v) (htrace : s.trace = d.trace) :
    Follows (fun _ => .normal)
      (fun _ s' d' => s' = (s.log (.getIterator v)).setAccumulator (.iterator d.trace.length) ∧
        d' = d.log (.getIterator v))
      (fun _ s' d' => s' = s.log (.getIterator v) ∧ d' = d.log (.getIterator v))
      (run (semantics w) fuel (.op .getIterator) s : StructuredCode.Outcome _ Unit _)
      (perform w (.getIterator v) d) := by
  have hexec : (semantics w).exec .getIterator s = State.andThen (s.perform w (.getIterator v))
      fun s' => some (.ok (), s'.setAccumulator (.iterator s.trace.length)) := by
    change exec w .getIterator s = _
    rw [exec, hv]
  unfold Destructuring.perform
  rw [State.perform, htrace] at hexec
  cases hanswer : w.answer d.trace (.getIterator v) with
  | ok v =>
    rw [hanswer] at hexec
    exact ⟨_, run_op_ok hexec fuel, rfl, rfl⟩
  | error e =>
    rw [hanswer] at hexec
    exact ⟨_, run_op_error hexec fuel, rfl, rfl⟩

/-- What is kept while the elements of a pattern are gone through. -/
structure Running (b : ℕ) (r : IteratorRecord V) (s s' : State V) (d' : Store V) : Prop where
  kept : Kept b s s'
  isOpen : Open b r s' d'

/-- What a pattern leaves. -/
structure Left (b : ℕ) (s s' : State V) (d' : Store V) : Prop where
  kept : Kept b s s'
  trace : s'.trace = d'.trace

theorem Closed.left {s'' : State V} (h : Closed s' s'' d') (hkept : Kept b s s') :
    Left b s s'' d' :=
  ⟨fun n hn => (congrFun h.1 n).trans (hkept n hn), h.2⟩

theorem follows_closeNormal (h : Running b r s s' d) :
    Follows (fun _ => .normal) (fun _ => Left b s) (fun _ => Left b s)
      (run (semantics w) fuel
        (emit [.lda (doneReg b)] (.test .isTrue .skip (emit (closeCode b false) .skip))) s')
      (closeNormal w r d) := by
  have hload : exec w (.lda (doneReg b)) s' =
      some (.ok (), s'.setAccumulator (.js (.bool (d.done r.iterator)))) := by
    rw [exec, h.isOpen.done]
  refine .op hload ?_
  change Follows _ _ _ (run _ _ (.test .isTrue .skip (emit (closeCode b false) .skip)) _) _
  rw [run_test (test_isTrue w rfl), closeNormal, Process.get_bind]
  cases d.done r.iterator with
  | true => exact ⟨_, rfl, h.kept, h.isOpen.trace⟩
  | false =>
    refine .op rfl (.seq_skip ?_)
    refine (follows_close w (s := s'.setAccumulator .hole) h.isOpen.iterator rfl
      h.isOpen.trace).mono ?_ ?_
    · exact fun _ s'' d' hclosed => Closed.left hclosed h.kept
    · exact fun _ s'' d' hclosed => Closed.left hclosed h.kept

/-- The handler. -/
theorem follows_closeThrown {e : JsValue V} (h : Running b r s s' d) :
    Follows (fun _ => .normal) (fun _ _ _ => False) (fun _ => Left b s)
      (run (semantics w) fuel (catchCode b) (s'.setAccumulator (.js e))) (closeThrown w r e d) := by
  have hload : exec w (.lda (doneReg b)) ((s'.setAccumulator (.js e)).setRegister (resultReg b) (.js e)) =
      some (.ok (), ((s'.setAccumulator (.js e)).setRegister (resultReg b) (.js e)).setAccumulator
        (.js (.bool (d.done r.iterator)))) := by
    rw [exec, setRegister_of_ne _ _ (by unfold doneReg resultReg; omega), setAccumulator_registers,
      h.isOpen.done]
  have hresult : ∀ s'' : State V, s''.registers =
      ((s'.setAccumulator (.js e)).setRegister (resultReg b) (.js e)).registers →
      exec w (.lda (resultReg b)) s'' = some (.ok (), s''.setAccumulator (.js e)) := by
    intro s'' hs''
    rw [exec, hs'', setRegister_self]
  have hkept : Kept b s ((s'.setAccumulator (.js e)).setRegister (resultReg b) (.js e)) :=
    Kept.setRegister h.kept _ (by unfold resultReg; omega)
  refine .op rfl (.op hload ?_)
  change Follows _ _ _ (run _ _ (.seq
    (.test Test.isTrue .skip (emit (.lda (resultReg b) :: closeCode b true) .skip))
    (emit [.lda (resultReg b), .throw] .skip)) _) _
  rw [closeThrown, Process.get_bind]
  generalize hs₁ : ((s'.setAccumulator (.js e)).setRegister (resultReg b) (.js e)).setAccumulator
    (.js (.bool (d.done r.iterator))) = s₁
  have htest : (semantics w).test .isTrue s₁ = some (.ok (d.done r.iterator), s₁) :=
    test_isTrue w (by rw [← hs₁]; rfl)
  have hload₁ := hresult s₁ (by rw [← hs₁]; rfl)
  have hleft : Left b s s₁ d := by
    rw [← hs₁]
    exact ⟨hkept, h.isOpen.trace⟩
  cases hdone : d.done r.iterator with
  | true =>
    rw [hdone] at htest
    have hskip : run (semantics w) fuel
        (.test .isTrue .skip (emit (.lda (resultReg b) :: closeCode b true) .skip)) s₁ =
        some (.normal, s₁) := run_test htest fuel _ _
    rw [run_seq_normal hskip]
    refine .op hload₁ ⟨s₁.setAccumulator (.js e), run_seq_error rfl fuel _, ?_⟩
    exact ⟨hleft.kept, hleft.trace⟩
  | false =>
    rw [hdone] at htest
    have habrupt : closeAbrupt w r e = closeAbrupt w r e >>= fun _ => .throwing e := by
      unfold closeAbrupt
      rw [Process.bind_assoc]
      rfl
    change Follows _ _ _ _ (closeAbrupt w r e d)
    rw [habrupt]
    refine .seq (Q := fun _ _ _ => False) ?_ ?_
    · rw [run_test htest]
      refine .op hload₁ (.seq_skip ?_)
      have hiterator : (s₁.setAccumulator (.js e)).registers (iteratorReg b) = .iterator r.iterator := by
        rw [← hs₁]
        exact (setRegister_of_ne _ _ (by unfold iteratorReg resultReg; omega)).trans
          h.isOpen.iterator
      refine (follows_closeAbrupt w (s := s₁.setAccumulator (.js e)) hiterator rfl
        hleft.trace).mono (fun _ _ _ h => h) ?_
      exact fun _ s'' d' hclosed => Closed.left hclosed hleft.kept
    · exact fun _ _ _ h => h.elim

theorem follows_closing {code : Code} {m : Evaluation V Unit} (h : Running b r s s' d)
    (hcode : Follows (fun _ => .normal) (fun _ => Running b r s') (fun _ => Running b r s')
      (run (semantics w) fuel code s') (m d)) :
    Follows (fun _ => .normal) (fun _ => Left b s) (fun _ => Left b s)
      (run (semantics w) fuel (.seq (.tryRange code (catchCode b))
        (emit [.lda (doneReg b)] (.test .isTrue .skip (emit (closeCode b false) .skip)))) s')
      (closing w r m d) := by
  have hrunning : ∀ s'' d', Running b r s' s'' d' → Running b r s s'' d' :=
    fun s'' d' h' => ⟨h.kept.trans h'.kept, h'.isOpen⟩
  unfold closing
  refine .seq (Q := fun _ => Running b r s) ?_ ?_
  · refine .tryRange (hcode.mono (fun _ => hrunning) fun _ => hrunning) ?_ nofun
    intro e s'' d' h'
    exact (follows_closeThrown w h').mono (fun _ _ _ h => h.elim) fun _ _ _ h => h
  · exact fun _ s'' d' h' => follows_closeNormal w h'

theorem follows_genArrayAround {elements : Elements} {code : Code}
    {m : IteratorRecord V → Evaluation V Unit}
    (hcode : ∀ (r : IteratorRecord V) (s' : State V) (d' : Store V), Open b r s' d' →
      Follows (fun _ => .normal) (fun _ => Running b r s') (fun _ => Running b r s')
        (run (semantics w) fuel code s') (m r d')) (hnil : elements = .nil → m = fun _ => pure ())
    (hv : s.accumulator.toJs w = some v) (htrace : s.trace = d.trace) :
    Follows (fun _ => .normal) (fun _ => Left b s) (fun _ => Left b s)
      (run (semantics w) fuel (genArrayAround b elements code) s)
      ((generated.getIterator w v >>= fun r => closing w r (m r)) d) := by
  unfold Rules.getIterator
  simp only [Process.bind_assoc, Process.get_bind]
  refine .seq ((follows_getIterator w hv htrace).mono (fun _ _ _ h => h) ?_) ?_
  · rintro e _ _ ⟨rfl, rfl⟩
    exact ⟨fun _ _ => rfl, congrArg (· ++ [_]) htrace⟩
  rintro _ _ _ ⟨rfl, rfl⟩
  generalize hs₁ : (s.log (.getIterator v)).setAccumulator (.iterator d.trace.length) = s₁
  have hkept₁ : Kept b s (s₁.setRegister (iteratorReg b) (.iterator d.trace.length)) := by
    rw [← hs₁]
    exact Kept.setRegister (fun _ _ => rfl) _ (by unfold iteratorReg; omega)
  have htrace₁ : s₁.trace = (d.log (.getIterator v)).trace := by
    rw [← hs₁]
    exact congrArg (· ++ [_]) htrace
  have hacc₁ : s₁.accumulator = .iterator d.trace.length := by rw [← hs₁]; rfl
  have hsta : exec w (.sta (iteratorReg b)) s₁ =
      some (.ok (), s₁.setRegister (iteratorReg b) (.iterator d.trace.length)) := by
    rw [exec, hacc₁]
  refine .op hsta ?_
  refine .seq ((follows_perform w (exec_ldNext w (setRegister_self ..)) htrace₁).mono
    (fun _ _ _ h => h) ?_) ?_
  · rintro e _ _ ⟨rfl, rfl⟩
    exact ⟨hkept₁, congrArg (· ++ [_]) htrace₁⟩
  rintro next _ _ ⟨rfl, rfl⟩
  generalize hs₂ : ((s₁.setRegister (iteratorReg b) (.iterator d.trace.length)).log
    (.getNext d.trace.length)).setAccumulator (.js next) = s₂
  have hkept₂ : Kept b s (s₂.setRegister (methodReg b) (.js next)) := by
    rw [← hs₂]
    exact Kept.setRegister hkept₁ _ (by unfold methodReg; omega)
  have htrace₂ : s₂.trace = ((d.log (.getIterator v)).log (.getNext d.trace.length)).trace := by
    rw [← hs₂]
    exact congrArg (· ++ [_]) htrace₁
  have hacc₂ : s₂.accumulator = .js next := by rw [← hs₂]; rfl
  have hiterator : s₂.registers (iteratorReg b) = .iterator d.trace.length := by
    rw [← hs₂]
    exact setRegister_self ..
  have hsta : exec w (.sta (methodReg b)) s₂ =
      some (.ok (), s₂.setRegister (methodReg b) (.js next)) := by
    rw [exec, hacc₂]
  refine .op hsta ?_
  rw [Process.modify_bind]
  refine .seq ((follows_requireObject w (s := s₂.setRegister (methodReg b) (.js next)) hacc₂).mono
    (fun _ _ _ h => h) ?_) ?_
  · rintro e _ _ ⟨rfl, rfl⟩
    exact ⟨hkept₂, htrace₂⟩
  rintro _ _ _ ⟨rfl, rfl⟩
  refine .op rfl (.op rfl (.op rfl (.op rfl ?_)))
  generalize hs₃ : State.setRegister _ (resultReg b) _ = s₃
  generalize hd₃ : Store.note _ _ = d₃
  have hopen : Running b ⟨d.trace.length, next⟩ s s₃ (d₃.setDone d.trace.length false) := by
    rw [← hs₃, ← hd₃]
    refine ⟨Kept.setRegister (Kept.setRegister hkept₂ _ ?_) _ ?_, ⟨htrace₂, ?_, ?_, ?_⟩, ?_⟩
    · unfold doneReg
      omega
    · unfold resultReg
      omega
    · rw [setRegister_of_ne _ _ (by unfold methodReg resultReg; omega), setAccumulator_registers,
        setRegister_of_ne _ _ (by unfold methodReg doneReg; omega)]
      exact setRegister_self ..
    · rw [setRegister_of_ne _ _ (by unfold iteratorReg resultReg; omega), setAccumulator_registers,
        setRegister_of_ne _ _ (by unfold iteratorReg doneReg; omega), setAccumulator_registers,
        setRegister_of_ne _ _ (by unfold iteratorReg methodReg; omega)]
      exact hiterator
    · simp
    · rw [Store.setDone_done_self, setRegister_of_ne _ _ (by unfold doneReg resultReg; omega)]
      exact setRegister_self ..
  cases elements with
  | nil =>
    rw [hnil rfl]
    change Follows _ _ _ _ (closeNormal w ⟨d.trace.length, next⟩ (d₃.setDone d.trace.length false))
    rw [closeNormal, Process.get_bind, Store.setDone_done_self]
    refine .op rfl (.seq_skip ?_)
    exact (follows_close w (s := s₃.setAccumulator .hole) hopen.isOpen.iterator rfl
      hopen.isOpen.trace).mono (fun _ _ _ h => h.left hopen.kept) fun _ _ _ h => h.left hopen.kept
  | _ => exact follows_closing w hopen (hcode _ _ _ hopen.isOpen)

end World

end ArkTs2abc.Es2panda.Destructuring
