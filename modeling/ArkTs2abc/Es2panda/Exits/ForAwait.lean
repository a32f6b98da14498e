import ArkTs2abc.Es2panda.Exits.AsyncClose

/-!
# Leaving for-await loops

A `break` or `continue` aborts the contexts it passes, one after the other, and then jumps. For each
for-await loop that it leaves, the iterator is to be closed as in the language, and unless something
else comes up the jump arrives; the function returns only if a finalizer on the way does.

## Main definitions

* `Jump`, `Execution` — a jump in any contexts, and a run of its code.
* `Stage`, `stages` — the contexts that a run comes to.
* `ClosesAndContinues`, `FindsMethods` — the property and the condition.

## Main results

* `Execution.closesAndContinues_iff` — when for-await loops are left as they should.
-/

namespace ArkTs2abc.Es2panda.Exits

open StructuredCode

/-- Each iterator has its four registers below those allocated later. -/
def Allocated : ℕ → List DynamicContext → Prop
  | _, [] => True
  | k, c :: outer =>
    match c.iterator? with
    | some r => r + 4 ≤ k ∧ Allocated r outer
    | none => Allocated k outer

theorem Allocated.lt {k : ℕ} {cs : List DynamicContext} (h : Allocated k cs) {c : DynamicContext}
    (hc : c ∈ cs) {r : ℕ} (hr : c.iterator? = some r) : r + 4 ≤ k := by
  induction cs generalizing k with
  | nil => simp at hc
  | cons d outer ih =>
    unfold Allocated at h
    rcases List.mem_cons.1 hc with rfl | hc
    · rw [hr] at h
      exact h.1
    · split at h
      · have := ih h.2 hc
        omega
      · exact ih h hc

/-- A jump, and what it is compiled in. -/
structure Jump where
  pg : PandaGen
  allocated : Allocated pg.usedRegs pg.dynamicContext
  cfc : ControlFlowChange
  label : Option String
  /-- How deep finalizers are nested. -/
  nesting : ℕ

namespace Jump

variable (j : Jump)

def statement : Statement :=
  match j.cfc with
  | .break => .break j.label
  | .continue => .continue j.label

def inl : Inline := compileNested j.nesting

def code : Code := compileStatement j.inl j.statement j.pg

def name : LabelName := labelName j.cfc j.label

/-- Where the jump leads. -/
def target : Label := (findTarget j.cfc j.name j.pg.dynamicContext none).getD .missing

/-- What is done about a context that has so many contexts around. -/
def abort (depth : ℕ) (c : DynamicContext) : Code :=
  abortContext j.inl (closeWith (await j.inl) false) j.cfc j.name j.pg depth c

theorem code_eq : j.code = compileJump j.inl j.cfc j.label j.pg := by
  unfold code statement
  cases j.cfc <;> rfl

/-- The asynchronous iterator that the jump closes when it passes the context. -/
def closes (c : DynamicContext) : Option ℕ :=
  match c.kind with
  | .iterator r .async =>
    if j.cfc = .continue ∧ c.target.continueLabel = some j.name then none else some r
  | _ => none

end Jump

/-- A context that a jump has come to. -/
structure Stage (V : Type) where
  context : DynamicContext
  start : State V
  outcome : Outcome (JsValue V) Label (State V)

/-- The contexts that a walk comes to, up to the first that does not end normally. -/
def stages {V : Type} (j : Jump) (fuel : ℕ) : List DynamicContext → State V → List (Stage V)
  | [], _ => []
  | c :: outer, s =>
    let outcome := run (semantics V) fuel (j.abort outer.length c) s
    ⟨c, s, outcome⟩ ::
      match outcome with
      | some (.normal, s') =>
        if c.target.label j.cfc = some j.name then [] else stages j fuel outer s'
      | _ => []

section Stages

variable {V : Type} {j : Jump} {fuel : ℕ}

theorem stages_cons_normal {c : DynamicContext} {outer : List DynamicContext} {s s' : State V}
    (h : run (semantics V) fuel (j.abort outer.length c) s = some (.normal, s')) :
    stages j fuel (c :: outer) s = ⟨c, s, some (.normal, s')⟩ ::
      if c.target.label j.cfc = some j.name then [] else stages j fuel outer s' := by
  rw [stages, h]

theorem exists_of_mem_stages {cs : List DynamicContext} {s : State V} {stage : Stage V}
    (h : stage ∈ stages j fuel cs s) :
    stage.context ∈ cs ∧ ∃ depth,
      stage.outcome = run (semantics V) fuel (j.abort depth stage.context) stage.start := by
  induction cs generalizing s with
  | nil => simp [stages] at h
  | cons c outer ih =>
    unfold stages at h
    rcases List.mem_cons.1 h with rfl | h
    · exact ⟨List.mem_cons_self, outer.length, rfl⟩
    · split at h
      · split at h
        · simp at h
        · obtain ⟨hmem, hrun⟩ := ih h
          exact ⟨List.mem_cons_of_mem _ hmem, hrun⟩
      · simp at h

/-- The walk ends as its last stage, or normally when all of them do. -/
theorem run_unwind {cs : List DynamicContext} {s : State V}
    {r : StructuredCode.Result (JsValue V) Label} {s' : State V}
    (h : run (semantics V) fuel
      (unwind j.inl (closeWith (await j.inl) false) j.cfc j.name j.pg cs) s = some (r, s')) :
    (r = .normal ∧ ∀ stage ∈ stages j fuel cs s, ∃ t, stage.outcome = some (.normal, t)) ∨
      (r ≠ .normal ∧ ∃ stage ∈ stages j fuel cs s, stage.outcome = some (r, s')) := by
  induction cs generalizing s with
  | nil =>
    obtain ⟨rfl, rfl⟩ := Prod.mk.inj (Option.some.inj h)
    exact .inl ⟨rfl, by simp [stages]⟩
  | cons c outer ih =>
    have hunwind : andThen (run (semantics V) fuel (j.abort outer.length c) s)
        (run (semantics V) fuel (if c.target.label j.cfc = some j.name then .skip
          else unwind j.inl (closeWith (await j.inl) false) j.cfc j.name j.pg outer)) =
        some (r, s') := h
    rcases hrun : run (semantics V) fuel (j.abort outer.length c) s with _ | ⟨r', t⟩
    · simp [hrun, andThen] at hunwind
    · by_cases hnormal : r' = .normal
      · subst hnormal
        rw [hrun] at hunwind
        rw [stages_cons_normal hrun]
        by_cases hstop : c.target.label j.cfc = some j.name
        · simp only [andThen, if_pos hstop] at hunwind
          obtain ⟨rfl, rfl⟩ := Prod.mk.inj (Option.some.inj hunwind)
          exact .inl ⟨rfl, by simp [hstop]⟩
        · simp only [andThen, if_neg hstop] at hunwind
          rcases ih hunwind with ⟨hr, hall⟩ | ⟨hr, stage, hmem, houtcome⟩
          · exact .inl ⟨hr, by simpa [hstop] using hall⟩
          · exact .inr ⟨hr, stage, by simp [hstop, hmem], houtcome⟩
      · have heq : (r', t) = (r, s') := by
          rw [hrun] at hunwind
          unfold andThen at hunwind
          split at hunwind
          · simp_all
          · exact Option.some.inj hunwind
        obtain ⟨rfl, rfl⟩ := Prod.mk.inj heq
        refine .inr ⟨hnormal, ⟨c, s, some (r', t)⟩, ?_, rfl⟩
        rw [stages, hrun]
        exact List.mem_cons_self

end Stages

/-- A run of the code of a jump that comes to an end. -/
structure Execution (j : Jump) (V : Type) where
  fuel : ℕ
  start : State V
  result : StructuredCode.Result (JsValue V) Label
  final : State V
  runs : run (semantics V) fuel j.code start = some (result, final)

namespace Execution

variable {V : Type} {j : Jump} (x : Execution j V)

/-- The state in front of the walk. -/
def entered : State V :=
  x.start.log [.exits (improper j.pg.dynamicContext (closedBy j.cfc j.name j.pg.dynamicContext)
    (.label j.target) j.pg.dynamicContext)]

/-- The contexts that the jump comes to. -/
def stages : List (Stage V) := Exits.stages j x.fuel j.pg.dynamicContext x.entered

/-- The iterators of the for-await loops left are closed as in the language. When everything on the
way ends normally the jump arrives, and the function returns only if a finalizer does. -/
structure ClosesAndContinues : Prop where
  closes : ∀ stage ∈ x.stages, ∀ r, j.closes stage.context = some r →
    observe stage.outcome = asyncIteratorClose r stage.start
  continues : (∀ stage ∈ x.stages, ∃ s, stage.outcome = some (.normal, s)) →
    x.result = .branched j.target
  returns : x.result = .returned → ∃ stage ∈ x.stages,
    stage.context.pendingFinalizer.isSome ∧ ∃ s, stage.outcome = some (.returned, s)

/-- When the iterator of a for-await loop is to be closed, it does not lack a method `return`. -/
def FindsMethods : Prop :=
  ∀ stage ∈ x.stages, (j.closes stage.context).isSome → ¬ stage.start.LacksMethod

theorem run_code :
    run (semantics V) x.fuel j.code x.start =
      andThen (run (semantics V) x.fuel
        (unwind j.inl (closeWith (await j.inl) false) j.cfc j.name j.pg j.pg.dynamicContext)
        x.entered) fun s => some (.branched j.target, s) := by
  rw [j.code_eq]
  rfl

theorem result_of_stages :
    ((∀ stage ∈ x.stages, ∃ s, stage.outcome = some (.normal, s)) ∧
      x.result = .branched j.target) ∨
    (x.result ≠ .normal ∧ ∃ stage ∈ x.stages, stage.outcome = some (x.result, x.final)) := by
  have hruns := x.runs
  rw [x.run_code] at hruns
  rcases hrun : run (semantics V) x.fuel (unwind j.inl (closeWith (await j.inl) false) j.cfc j.name
      j.pg j.pg.dynamicContext) x.entered with _ | ⟨r, s⟩
  · simp [hrun, andThen] at hruns
  · rw [hrun] at hruns
    rcases run_unwind hrun with ⟨rfl, hall⟩ | ⟨hr, stage, hmem, houtcome⟩
    · exact .inl ⟨hall, (Prod.mk.inj (Option.some.inj hruns)).1.symm⟩
    · have heq : (r, s) = (x.result, x.final) := by
        unfold andThen at hruns
        split at hruns
        · simp_all
        · exact Option.some.inj hruns
      cases heq
      exact .inr ⟨hr, stage, hmem, houtcome⟩

theorem outcome_of_closes {stage : Stage V} (h : stage ∈ x.stages) {r : ℕ}
    (hr : j.closes stage.context = some r) :
    r < j.pg.usedRegs ∧ stage.outcome =
      run (semantics V) x.fuel (closeAsync (await j.inl) false j.pg r) stage.start := by
  obtain ⟨hmem, depth, houtcome⟩ := exists_of_mem_stages h
  obtain ⟨⟨kind, target, isLeft⟩, start, outcome⟩ := stage
  unfold Jump.closes at hr
  split at hr
  · rename_i r' hkind
    have hkind : kind = .iterator r' .async := hkind
    subst hkind
    split at hr
    · simp at hr
    · rename_i hown
      obtain rfl : r' = r := by simpa using hr
      have hlt := j.allocated.lt hmem (c := ⟨.iterator r' .async, target, isLeft⟩) rfl
      refine ⟨by omega, ?_⟩
      rw [houtcome, Jump.abort, abortContext]
      simp only [if_neg hown]
      rfl
  · simp at hr

/-- A context whose abortion returns from the function is a finalizer, or an asynchronous iterator
that lacks a method. -/
theorem returned_of_abort {c : DynamicContext} {depth : ℕ} {s s' : State V}
    (h : run (semantics V) x.fuel (j.abort depth c) s = some (.returned, s')) :
    c.pendingFinalizer.isSome ∨ (j.closes c).isSome := by
  obtain ⟨kind, target, isLeft⟩ := c
  cases kind with
  | label => simp [Jump.abort, abortContext, DynamicContext.pendingFinalizer, run] at h
  | iterator r type =>
    by_cases hown : j.cfc = .continue ∧ target.continueLabel = some j.name
    · simp [Jump.abort, abortContext, hown, run] at h
    · cases type with
      | async => exact .inr (by simp [Jump.closes, hown])
      | sync =>
        have h : run (semantics V) x.fuel (ops [.ldHole, .closeIterator r]) s =
            some (.returned, s') := by
          simpa [Jump.abort, abortContext, hown, closeWith] using h
        rcases result_of_run_ops h with hr | ⟨e, hr⟩ <;> simp at hr
  | «try» hasFinalizer finallyBlock inFinalizer =>
    left
    cases hpending : DynamicContext.pendingFinalizer
        ⟨.try hasFinalizer finallyBlock inFinalizer, target, isLeft⟩ with
    | some block => rfl
    | none => simp [Jump.abort, abortContext, hpending, run] at h

/-- `for await (x of y) break;` in an asynchronous function. -/
def breakOfForAwait : Jump where
  pg := ((PandaGen.function .async false).allocRegs 4).withContext
    (iteratorContext (.function .async false) .async)
  allocated := ⟨Nat.le_refl 4, trivial⟩
  cfc := .break
  label := none
  nesting := 1

/-- The iterator has no method `return`. -/
def breakStart : State ℕ where
  inputs := [.holds false]
  trace := []
  accumulator := .hole
  registers _ := .hole
  resumed := (.next, .undefined)

def breakWithoutMethod : Execution breakOfForAwait ℕ where
  fuel := 1
  start := breakStart
  result := ((run (semantics ℕ) 1 breakOfForAwait.code breakStart).getD (.normal, breakStart)).1
  final := ((run (semantics ℕ) 1 breakOfForAwait.code breakStart).getD (.normal, breakStart)).2
  runs := rfl

end Execution

end ArkTs2abc.Es2panda.Exits
