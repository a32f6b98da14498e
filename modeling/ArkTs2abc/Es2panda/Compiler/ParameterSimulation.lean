import ArkTs2abc.Es2panda.Compiler.ParameterFrames

/-!
# The code of the parameters follows the language

A parameter is bound in the language at the moment its code has stored it. As long as an
initialiser and the steps of a pattern only use what is bound before, the frame and the bindings
of the language show them the same.

## Main definitions

* `Signature.InOrder` — the parameters are used after they are bound.
* `Rel` — a frame and bindings, when some of the names are bound.

## Main results

* `simulates_call` — the code of a function simulates the language.
-/

namespace ArkTs2abc.Es2panda.ParameterBinding

open FlatCode.Forward
open ArkTs2abc.Es2panda.ParameterBinding.Function

namespace Signature

variable (F : Signature)

/-- The expression may stand where these names are bound. A name that is not may be read only
where the frame holds the hole. -/
def Allowed (bound : List String) (accesses : Accesses) : Prop :=
  (∀ name ∈ accesses.reads, name ∈ bound ∨ F.HoleChecked name) ∧
    ∀ name ∈ accesses.assigns, name ∈ bound

def ElementsInOrder : List String → List Element → Prop
  | _, [] => True
  | bound, element :: elements =>
    F.Allowed bound element.accesses ∧ ElementsInOrder (bound ++ element.target.toList) elements

def TargetInOrder (bound : List String) : Target → Prop
  | .identifier _ => True
  | .pattern elements => F.ElementsInOrder bound elements

def ParameterInOrder (bound : List String) : Parameter → Prop
  | .plain target => F.TargetInOrder bound target
  | .assignmentPattern left right => F.Allowed bound right ∧ F.TargetInOrder bound left
  | .restElement argument => F.TargetInOrder bound argument

def ParamsInOrder : List String → List Parameter → Prop
  | _, [] => True
  | bound, param :: params =>
    F.ParameterInOrder bound param ∧ ParamsInOrder (bound ++ param.names) params

/-- Every initialiser and every step of a pattern uses names that are bound before it. -/
def InOrder : Prop := F.ParamsInOrder [] F.params

/-- A parameter that a closure captures has a default value. -/
def CapturedDefault : Prop :=
  ∃ (i : ℕ) (name : String) (right : Accesses),
    F.params[i]? = some (.assignmentPattern (.identifier name) right) ∧
    F.lexIdx name ≠ none

/-- The body declares a function by the name of a parameter. -/
def RedeclaredAsFunction : Prop := ∃ name, .function name ∈ F.hoisted

end Signature

variable {V W : Type} {F : Function}

section Closed

variable [DecidableEq V] {M : Meaning F V W} {args : List V}

def Instruction.jumpTarget : Instruction → Option Label
  | .jfalse target => some target
  | .jmp target => some target
  | _ => none

attribute [local simp] Instruction.jumpTarget in
theorem Meaning.jumpTarget_of_exec {i : Instruction} {s s' : State V W} {target : Label}
    (h : M.exec args i s = .ok (.jump target, s')) : i.jumpTarget = some target := by
  have evaluation (e : Evaluation V W) : M.execEvaluation e s ≠ .ok (.jump target, s') := by
    unfold Meaning.execEvaluation
    cases e.eval M.frame s.memory s.world <;> simp [bind, Except.bind, pure, Except.pure]
  cases i with
  | evaluate index => exact absurd h (evaluation _)
  | extract index step => exact absurd h (evaluation _)
  | jfalse target' =>
    simp only [Meaning.exec] at h
    split at h <;> simp_all [Instruction.jumpTarget]
  | jmp target' => simp_all [Meaning.exec, Instruction.jumpTarget]
  | _ => simp [Meaning.exec] at h

theorem closed_cons {i : Instruction} {code : Code}
    (h : ∀ target, i.jumpTarget = some target → .label target ∈ code)
    (closed : Closed (M.exec args) code) : Closed (M.exec args) (.insn i :: code) :=
  ⟨fun _ target _ e => h target (M.jumpTarget_of_exec e), closed⟩

theorem closed_storeVar (cell : Cell) : Closed (M.exec args) (F.storeVar cell) := by
  unfold Signature.storeVar
  cases F.slot cell <;> exact closed_cons (by simp [Instruction.jumpTarget]) trivial

theorem closed_destructure (index : ℕ) (elements : List Element) (step : ℕ) :
    Closed (M.exec args) (F.destructure index elements step) := by
  induction elements generalizing step with
  | nil => trivial
  | cons element elements ih =>
    apply closed_cons (by simp [Instruction.jumpTarget])
    cases element.target with
    | none => exact ih (step + 1)
    | some name => exact (closed_storeVar (.name name)).append (ih (step + 1))

theorem closed_setValue (index : ℕ) (target : Target) :
    Closed (M.exec args) (F.setValue index target) := by
  cases target with
  | identifier name => exact closed_storeVar (.name name)
  | pattern elements =>
    exact closed_cons (by simp [Instruction.jumpTarget]) (closed_destructure index elements 0)

theorem closed_compileParameter (index : ℕ) (param : Parameter) :
    Closed (M.exec args) (F.compileParameter index param) := by
  have setValue (target : Target) : Closed (M.exec args) (F.setValue index target) :=
    closed_setValue index target
  cases param with
  | restElement argument => exact closed_cons (by simp [Instruction.jumpTarget]) (setValue _)
  | plain target =>
    cases target with
    | identifier name => trivial
    | pattern elements => exact closed_cons (by simp [Instruction.jumpTarget]) (setValue _)
  | assignmentPattern left right =>
    cases left with
    | identifier name =>
      have closed : Closed (M.exec args) (F.setValue index (.identifier name) ++
          [.label (.nonDefaultLabel index)]) := (setValue _).append trivial
      simp only [Signature.compileParameter, List.append_assoc]
      iterate 4 apply closed_cons (by simp [Instruction.jumpTarget])
      exact closed
    | pattern elements =>
      simp only [Signature.compileParameter, List.cons_append]
      iterate 5 apply closed_cons (by simp [Instruction.jumpTarget])
      have closed : Closed (M.exec args) (.insn (.lda (paramReg index)) ::
          .label (.nonDefaultLabel index) :: F.setValue index (.pattern elements)) :=
        closed_cons (by simp [Instruction.jumpTarget]) (setValue _)
      exact closed

end Closed

section Relations

/-- The same error, or frames and bindings that are related. -/
inductive Simulates (R : Bindings V → Memory V → Prop) :
    Except (V × W) (State V W) → Except (V × W) (Bindings V × W) → Prop where
  | error (e : V × W) : Simulates R (.error e) (.error e)
  | ok {s : State V W} {env : Bindings V} : R env s.memory →
      Simulates R (.ok s) (.ok (env, s.world))

/-- `Simulates` for the outcome of an evaluation, which has a value. -/
inductive Matches (R : Bindings V → Memory V → Prop) :
    Except (V × W) (V × Memory V × W) → Except (V × W) (V × Bindings V × W) → Prop where
  | error (e : V × W) : Matches R (.error e) (.error e)
  | ok (value : V) {memory : Memory V} {env : Bindings V} (world : W) : R env memory →
      Matches R (.ok (value, memory, world)) (.ok (value, env, world))

variable {R R' : Bindings V → Memory V → Prop}

theorem Simulates.bind {x : Except (V × W) (State V W)} {y : Except (V × W) (Bindings V × W)}
    (h : Simulates R x y) {f : State V W → Except (V × W) (State V W)}
    {g : Bindings V × W → Except (V × W) (Bindings V × W)}
    (step : ∀ s env, R env s.memory → Simulates R' (f s) (g (env, s.world))) :
    Simulates R' (x.bind f) (y.bind g) := by
  cases h with
  | error e => exact .error e
  | ok related => exact step _ _ related

theorem Matches.bind {x : Except (V × W) (V × Memory V × W)}
    {y : Except (V × W) (V × Bindings V × W)} (h : Matches R x y)
    {f : V × Memory V × W → Except (V × W) (State V W)}
    {g : V × Bindings V × W → Except (V × W) (Bindings V × W)}
    (step : ∀ value memory env world, R env memory →
      Simulates R' (f (value, memory, world)) (g (value, env, world))) :
    Simulates R' (x.bind f) (y.bind g) := by
  cases h with
  | error e => exact .error e
  | ok value world related => exact step _ _ _ _ related

variable (M : Meaning F V W)

theorem eval_matches {accesses : Accesses}
    (reads : ∀ env memory, R env memory → ∀ name ∈ accesses.reads,
      F.load memory (.name name) = env name)
    (assigns : ∀ env memory, R env memory → ∀ name ∈ accesses.assigns, ∀ value,
      env name ≠ none ∧
        R (Function.update env name (some value)) (F.store memory (.name name) value))
    {evaluation : Evaluation V W} (within : evaluation.Within accesses) {env : Bindings V}
    {memory : Memory V} (related : R env memory) (world : W) :
    Matches R (evaluation.eval M.frame memory world) (evaluation.eval M.environment env world) := by
  induction evaluation generalizing env memory world with
  | done value => exact .ok value world related
  | throwing error => exact .error _
  | act effect rest ih => exact ih _ (within _) related _
  | read name rest ih =>
    have eq := reads env memory related name within.1
    simp only [Evaluation.eval, Meaning.frame, Meaning.environment, eq]
    cases env name with
    | none => exact .error _
    | some value => exact ih value (within.2 value) related world
  | assign name value rest ih =>
    obtain ⟨bound, related'⟩ := assigns env memory related name within.1 value
    obtain ⟨old, eq⟩ := Option.ne_none_iff_exists'.1 bound
    simp only [Evaluation.eval, Meaning.frame, Meaning.environment, eq]
    exact ih within.2 related' world

end Relations

namespace Signature

variable (F : Signature)

/-- The name of a parameter that is not one of those from the index `k` on. -/
def Behind (k : ℕ) (name : String) : Prop :=
  name ∈ F.names ∧ ∀ i param, k ≤ i → F.params[i]? = some param →
    .name name ≠ param.target.paramName i

end Signature

theorem Signature.Behind.mono {k k' : ℕ} {name : String} (h : F.Behind k name) (le : k ≤ k') :
    F.Behind k' name :=
  ⟨h.1, fun i param le' => h.2 i param (Nat.le_trans le le')⟩

theorem behind_of_mem {i : ℕ} {param : Parameter} (hi : F.params[i]? = some param) {name : String}
    (mem : name ∈ param.names) : F.Behind (i + 1) name := by
  refine ⟨mem_names hi mem, fun j param' le hj eq => ?_⟩
  cases htarget : param'.target with
  | pattern elements => simp [htarget, Target.paramName] at eq
  | identifier name' =>
    obtain rfl : name = name' := by simpa [htarget, Target.paramName] using eq
    apply names_disjoint hi hj (by omega) mem
    simp [Parameter.names, Target.names, htarget]

/-- A frame and bindings, when these names are bound and the parameters from `k` on are not. -/
structure Rel (M : Meaning F V W) (args : List V) (bound : List String) (k : ℕ)
    (env : Bindings V) (memory : Memory V) : Prop where
  behind : ∀ name ∈ bound, F.Behind k name
  load_eq : ∀ name ∈ bound, F.load memory (.name name) = env name
  env_ne_none : ∀ name, env name ≠ none ↔ name ∈ bound
  hole : ∀ name ∉ bound, F.HoleChecked name → F.load memory (.name name) = none
  argument : ∀ i param, k ≤ i → F.params[i]? = some param →
    F.load memory (param.target.paramName i) = some (M.argument args i)

namespace Rel

variable {M : Meaning F V W} {args : List V} {bound : List String} {k : ℕ} {env : Bindings V}
  {memory : Memory V}

section

variable (h : Rel M args bound k env memory)
include h

theorem congr {bound' : List String}
    (iff : ∀ name, name ∈ bound' ↔ name ∈ bound) : Rel M args bound' k env memory where
  behind name mem := h.behind name ((iff name).1 mem)
  load_eq name mem := h.load_eq name ((iff name).1 mem)
  env_ne_none name := (h.env_ne_none name).trans (iff name).symm
  hole name notMem := h.hole name fun mem => notMem ((iff name).2 mem)
  argument := h.argument

theorem next : Rel M args bound (k + 1) env memory where
  behind name mem := (h.behind name mem).mono (Nat.le_succ k)
  load_eq := h.load_eq
  env_ne_none := h.env_ne_none
  hole := h.hole
  argument i param le := h.argument i param (by omega)

/-- A name is bound when the frame has its value and is as before otherwise. -/
theorem bind_of {name : String} (behind : F.Behind k name)
    {value : V} {memory' : Memory V} (loaded : F.load memory' (.name name) = some value)
    (other : ∀ cell, cell ≠ .name name → F.load memory' cell = F.load memory cell) :
    Rel M args (bound ++ [name]) k (Function.update env name (some value)) memory' := by
  have otherName {name' : String} (ne : name' ≠ name) :
      F.load memory' (.name name') = F.load memory (.name name') :=
    other _ (by simpa using ne)
  constructor
  · intro name' mem
    rcases List.mem_append.1 mem with mem | mem
    · exact h.behind name' mem
    · exact List.mem_singleton.1 mem ▸ behind
  · intro name' mem
    by_cases eq : name' = name
    · simp [eq, loaded]
    · have mem : name' ∈ bound := by simpa [eq] using mem
      rw [otherName eq, Function.update_of_ne eq, h.load_eq name' mem]
  · intro name'
    by_cases eq : name' = name
    · simp [eq]
    · simp [eq, ← h.env_ne_none name']
  · intro name' notMem checked
    simp only [List.mem_append, List.mem_singleton, not_or] at notMem
    rw [otherName notMem.2, h.hole name' notMem.1 checked]
  · intro i param le hi
    rw [other _ (behind.2 i param le hi).symm, h.argument i param le hi]

theorem bind {name : String} (behind : F.Behind k name)
    (value : V) : Rel M args (bound ++ [name]) k (Function.update env name (some value))
      (F.store memory (.name name) value) :=
  h.bind_of behind (load_store _ _ _) fun _ ne =>
    load_store_of_ne (placed_name behind.1) ne.symm memory value

theorem assign {name : String} (mem : name ∈ bound)
    (value : V) : Rel M args bound k (Function.update env name (some value))
      (F.store memory (.name name) value) :=
  (h.bind (h.behind name mem) value).congr (by grind)

theorem store_scratch (value : V) :
    Rel M args bound k env (F.store memory .scratch value) where
  behind := h.behind
  load_eq name mem := by
    rw [load_store_of_ne placed_scratch (by simp), h.load_eq name mem]
  env_ne_none := h.env_ne_none
  hole name notMem checked := by
    rw [load_store_of_ne placed_scratch (by simp), h.hole name notMem checked]
  argument i param le hi := by
    rw [load_store_of_ne placed_scratch, h.argument i param le hi]
    unfold Target.paramName
    split <;> simp

theorem reads {accesses : Accesses}
    (allowed : F.Allowed bound accesses) {name : String} (mem : name ∈ accesses.reads) :
    F.load memory (.name name) = env name := by
  by_cases isBound : name ∈ bound
  · exact h.load_eq name isBound
  · have checked : F.HoleChecked name := (allowed.1 name mem).resolve_left isBound
    have unbound : env name = none := by
      by_contra ne
      exact isBound ((h.env_ne_none name).1 ne)
    rw [unbound, h.hole name isBound checked]

end

end Rel

section Runs

variable [DecidableEq V] {M : Meaning F V W} {args : List V} {bound : List String}

theorem run_evaluation {i : Instruction} {evaluation : Evaluation V W} {s : State V W}
    (h : M.exec args i s = M.execEvaluation evaluation s) (rest : Code) :
    run (M.exec args) (.insn i :: rest) s =
      (evaluation.eval M.frame s.memory s.world).bind
        fun (value, memory, world) => run (M.exec args) rest ⟨value, memory, world⟩ := by
  cases eq : evaluation.eval M.frame s.memory s.world with
  | error e =>
    refine run_error ?_ rest
    rw [h, Meaning.execEvaluation, eq]
    rfl
  | ok r =>
    refine run_next ?_ rest
    rw [h, Meaning.execEvaluation, eq]
    rfl

variable {i : ℕ} {param : Parameter} {env : Bindings V} {s : State V W}

/-- The steps of a pattern. -/
theorem simulates_destructure {all elements : List Element} {step : ℕ}
    (hi : F.params[i]? = some param) (htarget : param.target = .pattern all)
    (hsuffix : all.drop step = elements) {value : V}
    (h : Rel M args bound (i + 1) env s.memory)
    (hvalue : F.load s.memory .scratch = some value)
    (inOrder : F.ElementsInOrder bound elements) :
    Simulates (Rel M args (bound ++ elements.filterMap Element.target) (i + 1))
      (run (M.exec args) (F.destructure i elements step) s)
      (M.bindElements i value elements step env s.world) := by
  induction elements generalizing step bound env s with
  | nil =>
    rw [Signature.destructure, run_nil]
    exact .ok (h.congr (by simp))
  | cons element elements ih =>
    have get : all[step]? = some element := by
      rw [← List.head?_drop, hsuffix]
      rfl
    have suffix : all.drop (step + 1) = elements := by
      rw [← List.drop_drop, hsuffix]
      rfl
    have scratch : s.memory.registers (F.vreg .scratch) = value := Option.some.inj hvalue
    let R (env : Bindings V) (memory : Memory V) : Prop :=
      Rel M args bound (i + 1) env memory ∧ F.load memory .scratch = some value
    have matches' : Matches R ((M.element i step value).eval M.frame s.memory s.world)
        ((M.element i step value).eval M.environment env s.world) := by
      refine eval_matches M ?_ ?_ (M.element_within i param all step element hi htarget get value)
        ⟨h, hvalue⟩ s.world
      · intro env memory related name mem
        exact related.1.reads inOrder.1 mem
      · intro env memory related name mem v
        have mem : name ∈ bound := inOrder.1.2 name mem
        refine ⟨(related.1.env_ne_none name).2 mem, related.1.assign mem v, ?_⟩
        rw [load_store_of_ne (placed_name (related.1.behind name mem).1) (by simp), related.2]
    rw [Signature.destructure, run_evaluation (by rw [Meaning.exec, scratch]), Meaning.bindElements]
    refine matches'.bind fun v memory env world related => ?_
    cases htarget' : element.target with
    | none =>
      have result := ih suffix (s := ⟨v, memory, world⟩) related.1 related.2
        (by simpa [htarget'] using inOrder.2)
      simpa [htarget'] using result
    | some name =>
      have behind : F.Behind (i + 1) name := by
        apply behind_of_mem hi
        rw [Parameter.names, htarget, Target.names, List.mem_filterMap]
        exact ⟨element, List.mem_of_getElem? get, htarget'⟩
      have result := ih suffix (s := ⟨v, F.store memory (.name name) v, world⟩)
        (related.1.bind behind v)
        (by rw [load_store_of_ne (placed_name behind.1) (by simp), related.2])
        (by simpa [htarget'] using inOrder.2)
      simp only [Option.elim_some, Meaning.run_storeVar]
      simpa [htarget'] using result

/-- `SetValue` binds the names of its target to what is in the accumulator. -/
theorem simulates_setValue (hi : F.params[i]? = some param)
    (h : Rel M args bound (i + 1) env s.memory) (inOrder : F.TargetInOrder bound param.target) :
    Simulates (Rel M args (bound ++ param.names) (i + 1))
      (run (M.exec args) (F.setValue i param.target) s)
      (M.bindTarget i s.acc param.target env s.world) := by
  rw [Parameter.names]
  cases htarget : param.target with
  | identifier name =>
    have behind : F.Behind (i + 1) name := by
      apply behind_of_mem hi
      simp [Parameter.names, Target.names, htarget]
    have code : F.setValue i (.identifier name) = F.storeVar (.name name) ++ [] := by
      simp [Signature.setValue]
    rw [code, Meaning.run_storeVar, run_nil]
    exact .ok (s := { s with memory := F.store s.memory (.name name) s.acc }) (h.bind behind s.acc)
  | pattern elements =>
    rw [htarget] at inOrder
    have code : F.setValue i (.pattern elements) =
        F.storeVar .scratch ++ F.destructure i elements 0 := rfl
    rw [code, Meaning.run_storeVar]
    exact simulates_destructure (s := { s with memory := F.store s.memory .scratch s.acc }) hi
      htarget List.drop_zero (h.store_scratch s.acc) (load_store s.memory .scratch s.acc) inOrder

omit [DecidableEq V] in
theorem registers_paramReg (hi : F.params[i]? = some param)
    (uncaptured : F.slot (param.target.paramName i) = none)
    (h : Rel M args bound i env s.memory) :
    s.memory.registers (paramReg i) = M.argument args i := by
  have := h.argument i param (Nat.le_refl i) hi
  rw [Signature.load, uncaptured, vreg_paramName hi] at this
  exact Option.some.inj this

omit [DecidableEq V] in
theorem initialiser_matches {left : Target} {right : Accesses}
    (hi : F.params[i]? = some (.assignmentPattern left right))
    (h : Rel M args bound i env s.memory) (allowed : F.Allowed bound right) :
    Matches (Rel M args bound i) ((M.initialiser i).eval M.frame s.memory s.world)
      ((M.initialiser i).eval M.environment env s.world) := by
  refine eval_matches M ?_ ?_ (M.initialiser_within i left right hi) h s.world
  · intro env memory related name mem
    exact related.reads allowed mem
  · intro env memory related name mem v
    have mem : name ∈ bound := allowed.2 name mem
    exact ⟨(related.env_ne_none name).2 mem, related.assign mem v⟩

variable (M args i) in
theorem run_isundefined (target : Label) (rest : Code) (s : State V W) :
    ∃ acc, run (M.exec args)
        (.insn (.lda (paramReg i)) :: .insn .isundefined :: .insn (.jfalse target) :: rest) s =
      run (M.exec args)
        (if s.memory.registers (paramReg i) = M.undefined then rest else jumpTo target rest)
        ⟨acc, s.memory, s.world⟩ := by
  refine ⟨M.ofBool (s.memory.registers (paramReg i) = M.undefined), ?_⟩
  rw [run_next rfl, run_next rfl]
  by_cases eq : s.memory.registers (paramReg i) = M.undefined
  · rw [if_pos eq]
    refine run_next ?_ rest
    have : decide (s.memory.registers (paramReg i) = M.undefined) = true := decide_eq_true eq
    simp only [Meaning.exec, this, M.ofBool_ne, if_false]
  · rw [if_neg eq]
    refine run_jump ?_ rest
    have : decide (s.memory.registers (paramReg i) = M.undefined) = false := decide_eq_false eq
    simp only [Meaning.exec, this, if_true]

theorem run_jmp (target : Label) (rest : Code) (s : State V W) :
    run (M.exec args) (.insn (.jmp target) :: rest) s =
      run (M.exec args) (jumpTo target rest) s :=
  run_jump rfl rest

theorem run_label_nil (x : Except (V × W) (State V W)) (name : Label) :
    x.bind (run (M.exec args) [.label name]) = x := by
  cases x with
  | error e => rfl
  | ok s => simp [Except.bind]

theorem jumpTo_storeVar (target : Label) (cell : Cell) (rest : Code) :
    jumpTo target (F.storeVar cell ++ rest) = jumpTo target rest := by
  unfold Signature.storeVar
  cases F.slot cell <;> simp

omit [DecidableEq V] in
theorem Rel.keep {name : String} (hi : F.params[i]? = some param)
    (htarget : param.target = .identifier name) (h : Rel M args bound i env s.memory) :
    Rel M args (bound ++ [name]) (i + 1)
      (Function.update env name (some (M.argument args i))) s.memory := by
  have load := h.argument i param (Nat.le_refl i) hi
  rw [htarget] at load
  have behind : F.Behind (i + 1) name :=
    behind_of_mem hi (by simp [Parameter.names, htarget, Target.names])
  exact h.next.bind_of behind load fun _ _ => rfl

theorem simulates_compileParameter (uncaptured : ¬ F.CapturedDefault)
    (hi : F.params[i]? = some param) (h : Rel M args bound i env s.memory)
    (inOrder : F.ParameterInOrder bound param) :
    Simulates (Rel M args (bound ++ param.names) (i + 1))
      (run (M.exec args) (F.compileParameter i param) s)
      (M.bindParameter args i param env s.world) := by
  cases param with
  | restElement argument =>
    have last : F.params.length - 1 = i := by
      have := F.rest_last i argument hi
      omega
    rw [Signature.compileParameter, run_next rfl, last]
    exact simulates_setValue (s := { s with acc := M.restArray (args.drop i) }) hi h.next inOrder
  | plain target =>
    cases target with
    | identifier name =>
      rw [Signature.compileParameter, run_nil]
      exact .ok (h.keep hi rfl)
    | pattern elements =>
      have reg := registers_paramReg hi rfl h
      rw [Signature.compileParameter, run_next rfl, Meaning.bindParameter, ← reg]
      exact simulates_setValue (s := { s with acc := s.memory.registers (paramReg i) }) hi h.next
        inOrder
  | assignmentPattern left right =>
    have initialiser := initialiser_matches hi h inOrder.1
    cases left with
    | identifier name =>
      have slot : F.slot (.name name) = none := by
        by_contra captured
        exact uncaptured ⟨i, name, right, hi, captured⟩
      obtain ⟨acc, code⟩ := run_isundefined M args i (.nonDefaultLabel i)
        (.insn (.evaluate i) :: F.setValue i (.identifier name) ++ [Item.label (.nonDefaultLabel i)]) s
      rw [Signature.compileParameter, List.append_assoc]
      refine code ▸ ?_
      rw [registers_paramReg hi slot h, Meaning.bindParameter]
      split
      · rw [List.cons_append, run_evaluation rfl]
        refine initialiser.bind fun value memory env world related => ?_
        have result := simulates_setValue (s := ⟨value, memory, world⟩) hi related.next inOrder.2
        dsimp only
        rw [(closed_setValue i _).run_append, run_label_nil]
        exact result
      · rw [List.cons_append, jumpTo_insn, Signature.setValue, jumpTo_storeVar, jumpTo_label_self,
          run_label, run_nil]
        exact .ok (s := ⟨acc, s.memory, s.world⟩) (h.keep (s := s) hi rfl)
    | pattern elements =>
      obtain ⟨acc, code⟩ := run_isundefined M args i (.loadParamLabel i)
        (.insn (.evaluate i) :: .insn (.jmp (.nonDefaultLabel i)) ::
          .label (.loadParamLabel i) :: .insn (.lda (paramReg i)) ::
          .label (.nonDefaultLabel i) :: F.setValue i (.pattern elements)) s
      rw [Signature.compileParameter]
      refine code ▸ ?_
      have reg := registers_paramReg hi rfl h
      rw [reg, Meaning.bindParameter]
      split
      · rw [run_evaluation rfl]
        refine initialiser.bind fun value memory env world related => ?_
        have result := simulates_setValue (s := ⟨value, memory, world⟩) hi related.next inOrder.2
        dsimp only
        rw [run_jmp, jumpTo_label_of_ne (by simp), jumpTo_insn, jumpTo_label_self, run_label]
        exact result
      · rw [jumpTo_insn, jumpTo_insn, jumpTo_label_self, run_label, run_next rfl, run_label, ← reg]
        exact simulates_setValue (s := ⟨s.memory.registers (paramReg i), s.memory, s.world⟩) hi
          h.next inOrder.2

theorem simulates_compileFunctionParameterDeclaration (uncaptured : ¬ F.CapturedDefault)
    {params : List Parameter} (hsuffix : F.params.drop i = params)
    (h : Rel M args bound i env s.memory) (inOrder : F.ParamsInOrder bound params) :
    Simulates (Rel M args (bound ++ params.flatMap Parameter.names) (i + params.length))
      (run (M.exec args) (F.compileFunctionParameterDeclaration params i) s)
      (M.bindParameters args params i env s.world) := by
  induction params generalizing i bound env s with
  | nil =>
    rw [Signature.compileFunctionParameterDeclaration, run_nil]
    exact .ok (h.congr (by simp))
  | cons param params ih =>
    have hi : F.params[i]? = some param := by
      rw [← List.head?_drop, hsuffix]
      rfl
    have suffix : F.params.drop (i + 1) = params := by
      rw [← List.drop_drop, hsuffix]
      rfl
    have step := simulates_compileParameter uncaptured hi h inOrder.1
    rw [Signature.compileFunctionParameterDeclaration, (closed_compileParameter i param).run_append,
      Meaning.bindParameters]
    refine step.bind fun s env related => ?_
    have result := ih suffix related inOrder.2
    rw [List.flatMap_cons, ← List.append_assoc, List.length_cons, Nat.add_comm params.length,
      ← Nat.add_assoc]
    exact result

/-- The code of a function binds the names as the language does, but for the functions of the
body. -/
theorem simulates_call (uncaptured : ¬ F.CapturedDefault) (inOrder : F.InOrder)
    (entry : M.Entry args s) :
    Simulates (Rel M args F.names F.params.length) (M.call args s)
      (M.bindParameters args F.params 0 (fun _ => none) s.world) := by
  have ready := Meaning.ready_prologueMemory entry
  have initial : Rel M args [] 0 (fun _ => none) (M.prologueMemory s.memory) := by
    constructor
    · simp
    · simp
    · simp
    · exact fun name _ checked => ready.hole name checked
    · exact fun i param _ hi => ready.argument i param hi
  obtain ⟨acc, eq⟩ := Meaning.call_eq M args s
  rw [eq]
  have := simulates_compileFunctionParameterDeclaration
    (s := ⟨acc, M.prologueMemory s.memory, s.world⟩) uncaptured List.drop_zero initial inOrder
  simpa [Signature.names] using this

end Runs

end ArkTs2abc.Es2panda.ParameterBinding
