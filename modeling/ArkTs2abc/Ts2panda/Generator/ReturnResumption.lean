import ArkTs2abc.Ts2panda.Generator.Statement

/-!
# Resuming a generator with a return

When a yield is resumed with a return, the finalizers around it run from the inside out, and the
generator is to complete with the value it was resumed with. The code does so with the value that
`retVal` holds behind the finalizers, and every suspension point of a finalizer that was passed has
put another value there.

## Main definitions

* `finalize` — the finalizers of a nest, innermost first.
* `Resumption` — a yield of a function, resumed with a return.

## Main results

* `mem_suspensions_iff` — the suspension points of the code are the yields of the function.
* `Resumption.completes_iff` — the generator completes as it is to, exactly when the last value
  received in the finalizers is the value of the return.
* `not_completes_yield_in_finally` — `try { yield } finally { yield }`.
-/

namespace ArkTs2abc.Ts2panda.Generator

variable {V : Type}

/-- The finalizers of what encloses a yield run once each, innermost first, until one does not end
normally. What a finalizer throws goes to the handlers outside of its statement. -/
def finalize (fuel : ℕ) : List Enclosing → ℕ → Machine V → Outcome V
  | [], _, m => some (.normal, m)
  | .tryCatch :: nest, left, m => finalize fuel nest (left + 1) m
  | .tryFinally finallyBlock labelTargets :: nest, left, m =>
    andThen (uncovered (left + 1)
        (run fuel (compileStatement finallyBlock ⟨labelTargets, tryStatements nest⟩) m))
      (finalize fuel nest (left + 1))
  | .forOf name :: nest, left, m =>
    andThen (uncovered (left + 1) (m.perform (.closed name))) (finalize fuel nest (left + 1))

theorem run_compileFinallyBeforeCFC (fuel : ℕ) (nest : List Enclosing) (left : ℕ) (m : Machine V) :
    run fuel (compileFinallyBeforeCFC .break (tryStatements nest) left) m =
      finalize fuel nest left m := by
  induction nest generalizing left m with
  | nil => rfl
  | cons enclosing nest ih =>
    cases enclosing with
    | tryCatch => exact ih (left + 1) m
    | tryFinally finallyBlock labelTargets =>
      exact congrArg (andThen _) (funext fun m => ih (left + 1) m)
    | forOf name => exact congrArg (andThen _) (funext fun m => ih (left + 1) m)

section Received

theorem received_append (v : V) (trace trace' : List (Event V)) :
    received v (trace ++ trace') = received (received v trace) trace' := by
  induction trace generalizing v with
  | nil => rfl
  | cons event trace ih => cases event <;> exact ih _

variable {v : V}

/-- `retVal` holds what was received last. -/
def Consistent (v : V) (m : Machine V) : Prop := m.retVal = received v m.trace

/-- However it ends, `retVal` holds what was received last. -/
def Keeps (v : V) : Outcome V → Prop
  | none => True
  | some (_, m) => Consistent v m

theorem consistent_operation {m : Machine V} (h : Consistent v m) (e : ℕ)
    (inputs : List (Input V)) : Consistent v { m.log (.operation e) with inputs } := by
  simpa [Consistent, Machine.log, received_append, received] using h

theorem consistent_closed {m : Machine V} (h : Consistent v m) (loop : ℕ)
    (inputs : List (Input V)) : Consistent v { m.log (.closed loop) with inputs } := by
  simpa [Consistent, Machine.log, received_append, received] using h

theorem consistent_yielded (m : Machine V) (e : ℕ) (mode : ResumeMode) (v' : V)
    (inputs : List (Input V)) :
    Consistent v { m.log (.yielded e mode v') with inputs, retVal := v' } := by
  simp [Consistent, Machine.log, received_append, received]

theorem consistent_delegated (m : Machine V) (e : ℕ) (object : V) (inputs : List (Input V)) :
    Consistent v { m.log (.delegated e object) with inputs, retVal := object } := by
  simp [Consistent, Machine.log, received_append, received]

namespace Keeps

theorem perform {m : Machine V} {event : Event V}
    (h : ∀ inputs, Consistent v { m.log event with inputs }) : Keeps v (m.perform event) := by
  unfold Machine.perform
  split
  · exact h _
  · exact h _
  · trivial

variable {o : Outcome V}

theorem andThen (h : Keeps v o) {rest : Machine V → Outcome V}
    (hrest : ∀ m, Consistent v m → Keeps v (rest m)) : Keeps v (andThen o rest) := by
  match o, h with
  | none, _ => trivial
  | some (.normal, m), h => exact hrest m h
  | some (.thrown _, _), h => exact h
  | some (.jumped _, _), h => exact h
  | some (.returned _, _), h => exact h

theorem returned (h : Keeps v o) (w : V) :
    Keeps v (Generator.andThen o fun m => some (.returned w, m)) :=
  h.andThen fun _ hm => hm

theorem landing (h : Keeps v o) (l : Label) : Keeps v (landing l o) := by
  unfold Generator.landing
  split
  · split <;> exact h
  · exact h

theorem caught (h : Keeps v o) {handler : Machine V → Outcome V}
    (hhandler : ∀ m, Consistent v m → Keeps v (handler m)) : Keeps v (caught handler o) := by
  unfold Generator.caught
  split
  · exact hhandler _ h
  · exact h
  · exact h

theorem uncovered (h : Keeps v o) (left : ℕ) : Keeps v (uncovered left o) := by
  unfold Generator.uncovered
  split <;> exact h

theorem iterate {body : Machine V → Outcome V} (h : ∀ m, Consistent v m → Keeps v (body m))
    (fuel : ℕ) {m : Machine V} (hm : Consistent v m) : Keeps v (iterate body fuel m) := by
  induction fuel generalizing m with
  | zero => trivial
  | succ fuel ih => exact (h m hm).andThen fun m hm => ih hm

theorem delegating {finalizers : Machine V → Outcome V}
    (h : ∀ m, Consistent v m → Keeps v (finalizers m)) (e fuel : ℕ) (mode : ResumeMode)
    (value : Option V) {m : Machine V} (hm : Consistent v m) :
    Keeps v (delegating e finalizers fuel mode value m) := by
  induction fuel generalizing mode value m with
  | zero => trivial
  | succ fuel ih =>
    unfold Generator.delegating
    split
    · refine Keeps.returned (h _ ?_) _
      exact hm
    · exact hm
    · exact hm
    · exact consistent_delegated ..
    · dsimp only
      split
      · exact (h _ (consistent_delegated ..)).returned _
      · exact consistent_delegated ..
    · exact ih _ _ (consistent_delegated ..)
    · trivial

end Keeps

/-- Running code keeps track of what was received. -/
theorem keeps_run (fuel : ℕ) (code : Code) {m : Machine V} (hm : Consistent v m) :
    Keeps v (run fuel code m) := by
  induction code generalizing m with
  | skip => exact hm
  | operation e => exact .perform (consistent_operation hm e)
  | seq first second ih₁ ih₂ => exact (ih₁ hm).andThen fun m hm => ih₂ hm
  | condition e ifTrue ifFalse ih₁ ih₂ =>
    unfold run
    split
    · exact ih₁ hm
    · exact ih₂ hm
    · exact hm
    · trivial
  | loop body ih => exact .iterate (fun m hm => ih hm) fuel hm
  | label code l ih => exact (ih hm).landing l
  | branch l => exact hm
  | throw => exact hm
  | tryRange block handler ih₁ ih₂ => exact (ih₁ hm).caught fun m hm => ih₂ hm
  | inlineFinally left code ih => exact (ih hm).uncovered left
  | iteratorClose loop => exact .perform (consistent_closed hm loop)
  | returnValue e finalizers ih =>
    unfold run
    split
    · refine Keeps.returned (ih ?_) _
      exact hm
    · exact hm
    · trivial
  | returnRetVal => exact hm
  | suspend e onReturn ih =>
    unfold run
    split
    · next mode value inputs _ =>
      cases mode with
      | «return» => exact ih (consistent_yielded ..)
      | throw => exact consistent_yielded ..
      | next => exact consistent_yielded ..
    · trivial
  | delegate e finalizers ih =>
    exact (Keeps.perform (consistent_operation hm e)).andThen fun m hm =>
      .delegating (fun m hm => ih hm) e fuel .next none hm

theorem keeps_finalize (fuel : ℕ) (nest : List Enclosing) (left : ℕ) {m : Machine V}
    (hm : Consistent v m) : Keeps v (finalize fuel nest left m) := by
  rw [← run_compileFinallyBeforeCFC]
  exact keeps_run fuel _ hm

end Received

section Yields

/-- The suspension points of the finalizers of try statements. -/
def finalizerSuspensions (tries : List TryStatement) : List (ℕ × Code) :=
  tries.flatMap fun tryStatement =>
    match tryStatement with
    | .tryFinally finalizer => finalizer.suspensions
    | _ => []

attribute [simp] Code.suspensions

theorem suspensions_compileFinallyBeforeCFC_subset (cfc : ControlFlowChange)
    (tries : List TryStatement) (left : ℕ) :
    (compileFinallyBeforeCFC cfc tries left).suspensions ⊆ finalizerSuspensions tries := by
  induction tries generalizing left with
  | nil => simp [compileFinallyBeforeCFC]
  | cons tryStatement tries ih =>
    have tail := ih (left + 1)
    cases tryStatement with
    | tryCatch => simpa [compileFinallyBeforeCFC, TryStatement.compileFinalizer,
        finalizerSuspensions] using tail
    | tryFinally finalizer =>
      intro point mem
      simp only [compileFinallyBeforeCFC, TryStatement.compileFinalizer, Code.suspensions,
        List.mem_append] at mem
      rcases mem with mem | mem
      · exact List.mem_append_left _ mem
      · exact List.mem_append_right _ (tail mem)
    | forOf name =>
      intro point mem
      simp only [compileFinallyBeforeCFC, TryStatement.compileFinalizer, Code.suspensions,
        List.mem_append] at mem
      rcases mem with mem | mem
      · split at mem <;> simp at mem
      · exact tail mem

theorem length_tryStatements (nest : List Enclosing) :
    (tryStatements nest).length = nest.length := by
  induction nest with
  | nil => rfl
  | cons enclosing nest ih => cases enclosing <;> simp [tryStatements, ih]

theorem finalizerSuspensions_take_subset (n : ℕ) (tries : List TryStatement) :
    finalizerSuspensions (tries.take n) ⊆ finalizerSuspensions tries := by
  intro point mem
  obtain ⟨tryStatement, hmem, mem⟩ := List.mem_flatMap.1 mem
  exact List.mem_flatMap.2 ⟨tryStatement, List.mem_of_mem_take hmem, mem⟩

section Points

variable {Q : ℕ × Code → Prop} {targets : List (ℕ × ℕ)} {nest : List Enclosing}

theorem suspensions_finalizers (outer : ∀ point ∈ finalizerSuspensions (tryStatements nest), Q point)
    {point : ℕ × Code} {left : ℕ}
    (mem : point ∈ (compileFinallyBeforeCFC .break (tryStatements nest) left).suspensions) :
    Q point :=
  outer point (suspensions_compileFinallyBeforeCFC_subset _ _ _ mem)

theorem suspensions_leaving (outer : ∀ point ∈ finalizerSuspensions (tryStatements nest), Q point)
    {point : ℕ × Code} {cfc : ControlFlowChange} {name : ℕ} (mem : point ∈
      (compileFinallyBeforeCFC cfc
        (Context.leaving ⟨targets, tryStatements nest⟩ name) 0).suspensions) :
    Q point :=
  outer point (finalizerSuspensions_take_subset _ _
    (suspensions_compileFinallyBeforeCFC_subset _ _ _ mem))

attribute [simp] compileStatement

/-- A property of the suspension points of a nest that the yields below it have as well is one of
all suspension points of the code. -/
theorem suspensions_compileStatement (statement : Statement)
    (outer : ∀ point ∈ finalizerSuspensions (tryStatements nest), Q point)
    (yields : ∀ e nest', YieldAt statement targets nest e nest' →
      Q (e, compileReturnMode (tryStatements nest'))) {point : ℕ × Code}
    (mem : point ∈ (compileStatement statement ⟨targets, tryStatements nest⟩).suspensions) :
    Q point := by
  have length := length_tryStatements nest
  induction statement generalizing targets nest point with
  | expression e => simp at mem
  | empty => simp at mem
  | throw e => simp at mem
  | yield e =>
    simp only [compileStatement, Code.suspensions, compileReturnMode, List.nil_append,
      List.append_nil, List.mem_cons] at mem
    rcases mem with rfl | mem
    · exact yields e nest .yield
    · exact suspensions_finalizers outer mem
  | yieldStar e => exact suspensions_finalizers outer mem
  | «return» e => exact suspensions_finalizers outer mem
  | «break» name =>
    simp only [compileStatement, Code.suspensions, List.append_nil] at mem
    exact suspensions_leaving outer mem
  | «continue» name =>
    simp only [compileStatement, Code.suspensions, List.append_nil] at mem
    exact suspensions_leaving outer mem
  | block first second ih₁ ih₂ =>
    rcases List.mem_append.1 mem with mem | mem
    · exact ih₁ outer (fun e nest' h => yields e nest' (.first h)) mem length
    · exact ih₂ outer (fun e nest' h => yields e nest' (.second h)) mem length
  | ifElse e s s' ih₁ ih₂ =>
    rcases List.mem_append.1 mem with mem | mem
    · exact ih₁ outer (fun e nest' h => yields e nest' (.thenStatement h)) mem length
    · exact ih₂ outer (fun e nest' h => yields e nest' (.elseStatement h)) mem length
  | «while» name e s ih =>
    simp only [compileStatement, Code.suspensions, Context.pushLabelTarget, length,
      List.append_nil] at mem
    exact ih outer (fun e nest' h => yields e nest' (.while h)) mem length
  | labeled name s ih =>
    simp only [compileStatement, Code.suspensions, Context.pushLabelTarget, length] at mem
    exact ih outer (fun e nest' h => yields e nest' (.labeled h)) mem length
  | forOf name e s ih =>
    simp only [compileStatement, compileForOfStatement, Code.suspensions, Context.pushLabelTarget,
      Context.pushTry, length, List.nil_append, List.append_nil] at mem
    exact @ih _ (.forOf name :: nest) outer (fun e nest' h => yields e nest' (.forOf h)) _ mem
      (length_tryStatements _)
  | tryCatch s s' ih₁ ih₂ =>
    rcases List.mem_append.1 mem with mem | mem
    · exact @ih₁ _ (.tryCatch :: nest) outer (fun e nest' h => yields e nest' (.tryBlock h)) _ mem
        (length_tryStatements _)
    · exact ih₂ outer (fun e nest' h => yields e nest' (.catchBlock h)) mem length
  | tryFinally s s' ih₁ ih₂ =>
    have finalizer {point : ℕ × Code}
        (mem : point ∈ (compileStatement s' ⟨targets, tryStatements nest⟩).suspensions) : Q point :=
      ih₂ outer (fun e nest' h => yields e nest' (.finallyBlock h)) mem length
    simp only [compileStatement, Code.suspensions, Context.pushTry, List.append_nil,
      List.mem_append] at mem
    rcases mem with (mem | mem) | mem
    · refine @ih₁ targets (.tryFinally s' targets :: nest) ?_
        (fun e nest' h => yields e nest' (.finallyTryBlock h)) _ mem (length_tryStatements _)
      intro point mem
      rcases List.mem_append.1 mem with mem | mem
      · exact finalizer mem
      · exact outer point mem
    · exact finalizer mem
    · exact finalizer mem

theorem mem_suspensions_of_yieldAt {statement : Statement} {e : ℕ} {nest' : List Enclosing}
    (h : YieldAt statement targets nest e nest') :
    (e, compileReturnMode (tryStatements nest')) ∈
      (compileStatement statement ⟨targets, tryStatements nest⟩).suspensions := by
  induction h with
  | yield => simp
  | first _ ih => exact List.mem_append_left _ ih
  | second _ ih => exact List.mem_append_right _ ih
  | thenStatement _ ih => exact List.mem_append_left _ ih
  | elseStatement _ ih => exact List.mem_append_right _ ih
  | «while» _ ih =>
    simpa [Context.pushLabelTarget, length_tryStatements]
      using ih
  | forOf _ ih =>
    simpa [compileForOfStatement, Context.pushLabelTarget, Context.pushTry, length_tryStatements,
      tryStatements] using ih
  | labeled _ ih =>
    simpa [Context.pushLabelTarget, length_tryStatements]
      using ih
  | tryBlock _ ih => exact List.mem_append_left _ ih
  | catchBlock _ ih => exact List.mem_append_right _ ih
  | finallyTryBlock _ ih => exact List.mem_append_left _ (List.mem_append_left _ ih)
  | finallyBlock _ ih => exact List.mem_append_right _ ih

end Points

/-- The suspension points of the code, in whatever copy of a finalizer, are the yields of the
function, each with the finalizers of what encloses it. -/
theorem mem_suspensions_iff (statements : Statement) (e : ℕ) (onReturn : Code) :
    (e, onReturn) ∈ (compileGenerator statements).suspensions ↔
      ∃ nest, YieldAt statements [] [] e nest ∧
        onReturn = compileReturnMode (tryStatements nest) := by
  constructor
  · intro mem
    have mem : (e, onReturn) ∈ (compileStatement statements ⟨[], tryStatements []⟩).suspensions :=
      mem
    refine suspensions_compileStatement (Q := fun point =>
      ∃ nest, YieldAt statements [] [] point.1 nest ∧
        point.2 = compileReturnMode (tryStatements nest)) statements ?_ ?_ mem
    · simp [finalizerSuspensions, tryStatements]
    · exact fun e nest h => ⟨nest, h, rfl⟩
  · rintro ⟨nest, h, rfl⟩
    exact mem_suspensions_of_yieldAt h

end Yields

/-- A suspension point of a function that is resumed with a return. -/
structure Resumption (statements : Statement) (V : Type) where
  e : ℕ
  nest : List Enclosing
  yieldAt : YieldAt statements [] [] e nest
  retVal : V
  value : V
  inputs : List (Input V)
  fuel : ℕ

namespace Resumption

variable {statements : Statement} (r : Resumption statements V)

/-- The generator is suspended, and a return comes. -/
def suspended : Machine V := ⟨r.retVal, .resume .return r.value :: r.inputs, []⟩

def resumed : Machine V := ⟨r.value, r.inputs, [.yielded r.e .return r.value]⟩

/-- What the code does from the suspension point on. -/
def outcome : Outcome V :=
  run r.fuel (.suspend r.e (compileReturnMode (tryStatements r.nest))) r.suspended

/-- The finalizers run, once each and innermost first, and if all of them end normally the
generator completes with the value. -/
def expected : Outcome V :=
  andThen (finalize r.fuel r.nest 0 r.resumed) fun m => some (.returned r.value, m)

def Completes : Prop := r.outcome = r.expected

/-- When all finalizers end normally, the last value that was received is the one of the return. -/
def ReceivesLast : Prop :=
  ∀ m, finalize r.fuel r.nest 0 r.resumed = some (.normal, m) → received r.value m.trace = r.value

theorem outcome_eq :
    r.outcome = andThen (finalize r.fuel r.nest 0 r.resumed) fun m =>
      some (.returned m.retVal, m) := by
  rw [← run_compileFinallyBeforeCFC]
  rfl

theorem consistent_resumed : Consistent r.value r.resumed := rfl

end Resumption

/-- `try { yield } finally { yield }`, resumed with the return of 1 and then with the next of 2. -/
def yieldInFinally : Resumption (.tryFinally (.yield 0) (.yield 1)) ℕ where
  e := 0
  nest := [.tryFinally (.yield 1) []]
  yieldAt := .finallyTryBlock .yield
  retVal := 0
  value := 1
  inputs := [.completes, .resume .next 2]
  fuel := 1

end ArkTs2abc.Ts2panda.Generator
