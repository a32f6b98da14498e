import ArkTs2abc.Es2panda.Exits.Statement

/-!
# Closing an asynchronous iterator

What the code of `Iterator::Close` does for an asynchronous iterator when the loop is not left by an
exception. It is as in the language, except when there is no method `return`: then the code returns
from the function.

## Main definitions

* `asyncIteratorClose` — what the language asks for.

## Main results

* `observe_closeAsync` — with a method, the code does the same.
* `run_closeAsync_missing` — without one, it returns.
-/

namespace ArkTs2abc.Es2panda.Exits

open StructuredCode

variable {V : Type}

/-- What can be seen of the end of code: how it ends, the events, the inputs that are left. -/
abbrev Observation (V : Type) :=
  Option (StructuredCode.Result (JsValue V) Label × List Event × List (Input V))

def observe (o : Outcome (JsValue V) Label (State V)) : Observation V :=
  o.map fun (r, s) => (r, s.trace, s.inputs)

@[simp] theorem observe_none : observe (none : Outcome (JsValue V) Label (State V)) = none := rfl

@[simp] theorem observe_some (r : StructuredCode.Result (JsValue V) Label) (s : State V) :
    observe (some (r, s)) = some (r, s.trace, s.inputs) := rfl

/-- Closing an asynchronous iterator, when the completion is not that of an exception: look up
`return`; if there is such a method, call it, await what it has returned, and make sure that this is
an object. -/
def asyncIteratorClose (r : ℕ) (s : State V) : Observation V :=
  match s.inputs with
  | .throws v :: inputs => some (.thrown v 0, s.trace ++ [Event.lookup r false], inputs)
  | .holds false :: inputs => some (.normal, s.trace ++ [Event.lookup r false], inputs)
  | .holds true :: .throws v :: inputs =>
    some (.thrown v 0, s.trace ++ [Event.lookup r true, .called r .return], inputs)
  | .holds true :: .returns _ :: .resume .throw v :: inputs =>
    some (.thrown v 0, s.trace ++ [Event.lookup r true, .called r .return, .awaited], inputs)
  | .holds true :: .returns _ :: .resume .next _ :: .holds true :: inputs =>
    some (.normal, s.trace ++ [Event.lookup r true, .called r .return, .awaited], inputs)
  | .holds true :: .returns _ :: .resume .next _ :: .throws v :: inputs =>
    some (.thrown v 0, s.trace ++ [Event.lookup r true, .called r .return, .awaited], inputs)
  | _ => none

/-- The next lookup of a method finds none. -/
def State.LacksMethod (s : State V) : Prop :=
  match s.inputs with
  | .holds false :: _ => True
  | _ => False

/-- The state behind an `await`, by the first of its two registers. -/
def State.awaited (s : State V) (r : ℕ) (m : ResumeMode) (v : JsValue V)
    (inputs : List (Input V)) : State V where
  inputs := inputs
  trace := s.trace ++ [.awaited]
  accumulator := .js v
  registers := Function.update (Function.update s.registers (r + 1) (.js v)) r (.mode m)
  resumed := (m, v)

section Await

variable (fuel : ℕ) (walk : PandaGen → Code) (pg : PandaGen)

theorem run_resumeGenerator (k : ℕ) (s : State V) :
    run (semantics V) fuel (resumeGenerator k (k + 1)) s =
      some (.normal, { s with
        accumulator := .mode s.resumed.1
        registers := Function.update (Function.update s.registers (k + 1) (.js s.resumed.2)) k
          (.mode s.resumed.1) }) := rfl

/-- An `await` is resumed with a value or an exception; what the code would do for a return is of no
account. -/
theorem run_awaitWith (s : State V) :
    run (semantics V) fuel (awaitWith walk pg) s =
      match s.inputs with
      | .resume .next v :: inputs => some (.normal, s.awaited pg.usedRegs .next v inputs)
      | .resume .throw v :: inputs => some (.thrown v 0, s.awaited pg.usedRegs .throw v inputs)
      | _ => none := by
  obtain ⟨inputs, trace, accumulator, registers, resumed⟩ := s
  rcases inputs with _ | ⟨i, inputs⟩
  · rfl
  · cases i with
    | resume m v =>
      cases m <;>
        simp [awaitWith, resume, handleCompletion, throwOrNext, run, perform, exec, test, State.suspend,
          State.log, andThen, run_resumeGenerator, choose, State.answer, Value.isMode, ops,
          State.setAccumulator, State.awaited]
    | _ => rfl

/-- The inner try statement of `Iterator::Close`, which takes note of an exception. -/
theorem run_callReturn {r k : ℕ} {s : State V} (hr : s.registers r = .method .return) :
    run (semantics V) fuel (callReturn (awaitWith walk) pg r (k + 1) (k + 2)) s =
      let s' := s.log [.called r .return]
      match s.inputs with
      | .throws v :: inputs =>
        some (.normal, { s' with
          inputs
          accumulator := .js v
          registers := Function.update (Function.update s.registers (k + 1) (.js v)) (k + 2)
            (.js v) })
      | .returns _ :: .resume .throw v :: inputs =>
        let s' := s'.awaited pg.usedRegs .throw v inputs
        some (.normal, { s' with
          registers := Function.update (Function.update s'.registers (k + 1) (.js v)) (k + 2)
            (.js v) })
      | .returns _ :: .resume .next v :: inputs =>
        let s' := s'.awaited pg.usedRegs .next v inputs
        some (.normal, { s' with registers := Function.update s'.registers (k + 1) (.js v) })
      | _ => none := by
  obtain ⟨inputs, trace, accumulator, registers, resumed⟩ := s
  replace hr : registers r = .method .return := hr
  rcases inputs with _ | ⟨i, inputs⟩
  · simp [callReturn, run, perform, exec, State.call, State.perform, hr, State.log, andThen, caught]
  · cases i with
    | returns v =>
      rcases inputs with _ | ⟨i, inputs⟩
      · simp [callReturn, run, perform, exec, State.call, State.perform, hr, State.log, andThen,
          caught, run_awaitWith]
      · cases i with
        | resume m v =>
          cases m <;>
            simp [callReturn, run, perform, exec, State.call, State.perform, hr, State.log, andThen,
              caught, run_awaitWith, ops, State.setAccumulator, State.awaited]
        | _ =>
          simp [callReturn, run, perform, exec, State.call, State.perform, hr, State.log, andThen,
            caught, run_awaitWith]
    | _ =>
      simp [callReturn, run, perform, exec, State.call, State.perform, hr, State.log, andThen,
        caught, ops, State.setAccumulator]

/-- When `return` is not missing, the code closes the iterator as in the language. -/
theorem observe_closeAsync {r : ℕ} (hr : r < pg.usedRegs) {s : State V} (hs : ¬ s.LacksMethod) :
    observe (run (semantics V) fuel (closeAsync (awaitWith walk) false pg r) s) =
      asyncIteratorClose r s := by
  have hne (n : ℕ) : pg.usedRegs + n ≠ r := by omega
  obtain ⟨inputs, trace, accumulator, registers, resumed⟩ := s
  rcases inputs with _ | ⟨_ | v | b | _, inputs⟩
  · rfl
  · rfl
  · simp [closeAsync, run, perform, exec, ops, andThen, State.lookup, State.log, caught,
      State.setAccumulator, asyncIteratorClose]
  · cases b with
    | false => exact absurd trivial hs
    | true =>
      simp only [closeAsync, ops, List.foldr_cons, List.foldr_nil, Bool.false_eq_true, ↓reduceIte,
        run, andThen, perform, semantics_exec, exec, State.setAccumulator, State.lookup, State.log,
        Option.map_some, choose, semantics_test, test, State.answer, Value.isUndefined,
        Function.update_self, run_callReturn, List.append_assoc, List.cons_append, List.nil_append,
        PandaGen.usedRegs_withContext, PandaGen.usedRegs_allocRegs]
      -- The call, and what the function is resumed with.
      rcases inputs with _ | ⟨_ | v | b | _, inputs⟩
      · rfl
      · rcases inputs with _ | ⟨_ | _ | _ | m, inputs⟩
        · rfl
        · rfl
        · rfl
        · rfl
        · cases m with
          | «return» => rfl
          | throw => simp [caught, asyncIteratorClose, State.awaited]
          | next =>
            rcases inputs with _ | ⟨_ | _ | b | _, inputs⟩
            · simp [caught, asyncIteratorClose, State.awaited, hne]
            · simp [caught, asyncIteratorClose, State.awaited, hne]
            · simp [caught, asyncIteratorClose, State.awaited, hne]
            · cases b <;>
                simp [caught, asyncIteratorClose, State.awaited, hne]
            · simp [caught, asyncIteratorClose, State.awaited, hne]
      · simp [caught, asyncIteratorClose]
      · rfl
      · rfl
  · rfl

/-- When it is missing, the code returns from the function, with what happened to be in the
accumulator. -/
theorem run_closeAsync_missing {r : ℕ} {s : State V} (hs : s.LacksMethod) :
    ∃ s', run (semantics V) fuel (closeAsync (awaitWith walk) false pg r) s = some (.returned, s') ∧
      s'.trace = s.trace ++ [Event.lookup r false] := by
  obtain ⟨inputs, trace, accumulator, registers, resumed⟩ := s
  rcases inputs with _ | ⟨_ | v | b | _, inputs⟩
  · exact hs.elim
  · exact hs.elim
  · exact hs.elim
  · cases b with
    | true => exact hs.elim
    | false =>
      simp [closeAsync, run, perform, exec, ops, andThen, State.lookup, State.log, caught,
        State.setAccumulator, test, State.answer, Value.isUndefined, choose, noMethod,
        directReturn]
  · exact hs.elim

end Await

theorem asyncIteratorClose_ne_returned (r : ℕ) (s : State V) {trace : List Event}
    {inputs : List (Input V)} : asyncIteratorClose r s ≠ some (.returned, trace, inputs) := by
  unfold asyncIteratorClose
  split <;> simp

theorem asyncIteratorClose_missing (r : ℕ) {s : State V} (hs : s.LacksMethod) :
    ∃ inputs, asyncIteratorClose r s = some (.normal, s.trace ++ [Event.lookup r false], inputs) := by
  unfold State.LacksMethod at hs
  split at hs
  · exact ⟨_, by simp only [asyncIteratorClose, ‹s.inputs = _›]; rfl⟩
  · exact hs.elim

end ArkTs2abc.Es2panda.Exits
