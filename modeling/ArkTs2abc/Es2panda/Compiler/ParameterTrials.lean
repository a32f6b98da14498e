import ArkTs2abc.Es2panda.Compiler.ParameterSimulation

/-!
# Initialisers and patterns that tell the code from the language

Where the language fails and the code goes on, parameters are not bound alike. Code goes on when
its initialisers and patterns do, which `Completing` follows through the parameters. The language
fails at the first use of what is not bound, when every initialiser and every step uses all it may.

## Main results

* `not_capturedDefault` — a captured parameter with a default value.
* `inOrder_of_bindsParameters` — a use before the parameter is bound.
* `not_redeclaredAsFunction` — a function of the body with the name of a pattern's variable.
-/

namespace ArkTs2abc.Es2panda.ParameterBinding

open FlatCode.Forward
open ArkTs2abc.Es2panda.ParameterBinding.Function

variable {V W : Type} {F : Function}

section Completing

/-- What is executed of the initialisers and patterns ends without an exception, under a condition
on the frame that no store breaks. -/
structure Completing (M : Meaning F V W) (I : Memory V → Prop) : Prop where
  store : ∀ memory cell value, F.Placed cell → I memory → I (F.store memory cell value)
  initialiser : ∀ i left right, F.params[i]? = some (.assignmentPattern left right) →
    ∀ memory world, I memory → memory.registers (paramReg i) = M.undefined →
    ∃ value memory' world', (M.initialiser i).eval M.frame memory world =
      .ok (value, memory', world') ∧ I memory'
  element : ∀ i param elements step element, F.params[i]? = some param →
    param.target = .pattern elements → elements[step]? = some element →
    ∀ value memory world, I memory →
    ∃ value' memory' world', (M.element i step value).eval M.frame memory world =
      .ok (value', memory', world') ∧ I memory'

variable [DecidableEq V] {M : Meaning F V W} {I : Memory V → Prop} {args : List V} {i : ℕ}
  {param : Parameter}

/-- The code ends without an exception. -/
def Ends (M : Meaning F V W) (args : List V) (I : Memory V → Prop) (code : Code) : Prop :=
  ∀ s : State V W, I s.memory → ∃ s', run (M.exec args) code s = .ok s' ∧ I s'.memory

theorem Ends.append {code code' : Code} (closed : Closed (M.exec args) code)
    (h : Ends M args I code) (h' : Ends M args I code') : Ends M args I (code ++ code') := by
  intro s hs
  obtain ⟨s₁, eq₁, hs₁⟩ := h s hs
  obtain ⟨s₂, eq₂, hs₂⟩ := h' s₁ hs₁
  refine ⟨s₂, ?_, hs₂⟩
  rw [closed.run_append, eq₁]
  exact eq₂

namespace Completing

variable (completing : Completing M I)

include completing

theorem ends_storeVar {cell : Cell} (placed : F.Placed cell) :
    Ends M args I (F.storeVar cell) := by
  intro s hs
  refine ⟨{ s with memory := F.store s.memory cell s.acc }, ?_,
    completing.store _ _ _ placed hs⟩
  have := Meaning.run_storeVar M args cell [] s
  rwa [List.append_nil, run_nil] at this

theorem ends_destructure (hi : F.params[i]? = some param) {all elements : List Element} {step : ℕ}
    (htarget : param.target = .pattern all) (hsuffix : all.drop step = elements) :
    Ends M args I (F.destructure i elements step) := by
  induction elements generalizing step with
  | nil => exact fun s hs => ⟨s, run_nil s, hs⟩
  | cons element elements ih =>
    have get : all[step]? = some element := by
      rw [← List.head?_drop, hsuffix]
      rfl
    have suffix : all.drop (step + 1) = elements := by
      rw [← List.drop_drop, hsuffix]
      rfl
    intro s hs
    obtain ⟨value, memory, world, eq, hs'⟩ := completing.element i param all step element hi htarget
      get (s.memory.registers (F.vreg .scratch)) s.memory s.world hs
    rw [Signature.destructure, run_evaluation rfl, eq]
    cases htarget' : element.target with
    | none => exact ih suffix ⟨value, memory, world⟩ hs'
    | some name =>
      have placed : F.Placed (.name name) := by
        apply placed_name
        apply mem_names hi
        rw [Parameter.names, htarget, Target.names, List.mem_filterMap]
        exact ⟨element, List.mem_of_getElem? get, htarget'⟩
      exact Ends.append (closed_storeVar (.name name)) (completing.ends_storeVar placed) (ih suffix)
        ⟨value, memory, world⟩ hs'

theorem ends_setValue (hi : F.params[i]? = some param) :
    Ends M args I (F.setValue i param.target) := by
  cases htarget : param.target with
  | identifier name =>
    apply completing.ends_storeVar
    apply placed_name
    apply mem_names hi
    simp [Parameter.names, Target.names, htarget]
  | pattern elements =>
    have closed : Closed (M.exec args) (F.storeVar .scratch) := closed_storeVar .scratch
    exact Ends.append closed
      (completing.ends_storeVar placed_scratch)
      (completing.ends_destructure hi htarget List.drop_zero)

theorem ends_compileParameter (hi : F.params[i]? = some param) :
    Ends M args I (F.compileParameter i param) := by
  have setValue : Ends M args I (F.setValue i param.target) := completing.ends_setValue hi
  intro s hs
  cases param with
  | restElement argument =>
    rw [Signature.compileParameter, run_next rfl]
    exact setValue _ hs
  | plain target =>
    cases target with
    | identifier name => exact ⟨s, run_nil s, hs⟩
    | pattern elements =>
      rw [Signature.compileParameter, run_next rfl]
      exact setValue _ hs
  | assignmentPattern left right =>
    have initialiser := completing.initialiser i left right hi s.memory s.world hs
    cases left with
    | identifier name =>
      obtain ⟨acc, code⟩ := run_isundefined M args i (.nonDefaultLabel i)
        (.insn (.evaluate i) :: F.setValue i (.identifier name) ++ [.label (.nonDefaultLabel i)]) s
      rw [Signature.compileParameter, List.append_assoc]
      refine code ▸ ?_
      split
      · obtain ⟨value, memory, world, eq, hs'⟩ := initialiser ‹_›
        rw [List.cons_append, run_evaluation rfl, eq]
        simp only [Except.bind]
        rw [(closed_setValue i _).run_append, run_label_nil]
        exact setValue ⟨value, memory, world⟩ hs'
      · rw [List.cons_append, jumpTo_insn, Signature.setValue, jumpTo_storeVar, jumpTo_label_self,
          run_label, run_nil]
        exact ⟨_, rfl, hs⟩
    | pattern elements =>
      obtain ⟨acc, code⟩ := run_isundefined M args i (.loadParamLabel i)
        (.insn (.evaluate i) :: .insn (.jmp (.nonDefaultLabel i)) ::
          .label (.loadParamLabel i) :: .insn (.lda (paramReg i)) ::
          .label (.nonDefaultLabel i) :: F.setValue i (.pattern elements)) s
      rw [Signature.compileParameter]
      refine code ▸ ?_
      split
      · obtain ⟨value, memory, world, eq, hs'⟩ := initialiser ‹_›
        rw [run_evaluation rfl, eq]
        simp only [Except.bind]
        rw [run_jmp, jumpTo_label_of_ne (by simp), jumpTo_insn, jumpTo_label_self, run_label]
        exact setValue ⟨value, memory, world⟩ hs'
      · rw [jumpTo_insn, jumpTo_insn, jumpTo_label_self, run_label, run_next rfl, run_label]
        exact setValue ⟨s.memory.registers (paramReg i), s.memory, s.world⟩ hs

theorem ends_compileFunctionParameterDeclaration {params : List Parameter}
    (hsuffix : F.params.drop i = params) :
    Ends M args I (F.compileFunctionParameterDeclaration params i) := by
  induction params generalizing i with
  | nil => exact fun s hs => ⟨s, run_nil s, hs⟩
  | cons param params ih =>
    have hi : F.params[i]? = some param := by
      rw [← List.head?_drop, hsuffix]
      rfl
    have suffix : F.params.drop (i + 1) = params := by
      rw [← List.drop_drop, hsuffix]
      rfl
    exact Ends.append (closed_compileParameter i param) (completing.ends_compileParameter hi)
      (ih suffix)

theorem exists_call_eq_ok {s : State V W} (h : I (M.prologueMemory s.memory)) :
    ∃ s', M.call args s = .ok s' := by
  obtain ⟨acc, eq⟩ := Meaning.call_eq M args s
  have ends : Ends M args I (F.compileFunctionParameterDeclaration F.params 0) :=
    completing.ends_compileFunctionParameterDeclaration List.drop_zero
  obtain ⟨s', eq', -⟩ := ends ⟨acc, M.prologueMemory s.memory, s.world⟩ h
  exact ⟨s', eq.trans eq'⟩

end Completing

end Completing

section Language

theorem bound_of_eval (M : Meaning F V W) {evaluation : Evaluation V W} {env env' : Bindings V}
    {world world' : W} {value : V}
    (h : evaluation.eval M.environment env world = .ok (value, env', world')) {name : String}
    (bound : env' name ≠ none) : env name ≠ none := by
  induction evaluation generalizing env world with
  | done _ =>
    obtain ⟨-, rfl, -⟩ : _ ∧ env = env' ∧ _ := by simpa [Evaluation.eval] using h
    exact bound
  | throwing error => cases h
  | act effect rest ih => exact ih _ h
  | read name' rest ih =>
    simp only [Evaluation.eval, Meaning.environment] at h
    split at h
    · exact ih _ h
    · cases h
  | assign name' value' rest ih =>
    cases eq : env name' with
    | none => simp [Evaluation.eval, Meaning.environment, eq] at h
    | some old =>
      simp only [Evaluation.eval, Meaning.environment, eq, Option.map_some] at h
      by_cases same : name = name'
      · simp [same, eq]
      · simpa [same] using ih h

variable [DecidableEq V] {M : Meaning F V W} {args : List V}

theorem exists_bindParameters_eq_error {params : List Parameter} {k : ℕ} {param : Parameter}
    (hk : params[k]? = some param) {i : ℕ}
    (h : ∀ env world, ∃ e, M.bindParameter args (i + k) param env world = .error e)
    (env : Bindings V) (world : W) :
    ∃ e, M.bindParameters args params i env world = .error e := by
  induction params generalizing k i env world with
  | nil => simp at hk
  | cons param' params ih =>
    rw [Meaning.bindParameters]
    cases eq : M.bindParameter args i param' env world with
    | error e => exact ⟨e, rfl⟩
    | ok r =>
      cases k with
      | zero =>
        obtain rfl : param' = param := by simpa using hk
        obtain ⟨e, eq'⟩ := h env world
        rw [Nat.add_zero, eq] at eq'
        cases eq'
      | succ k =>
        rw [List.getElem?_cons_succ] at hk
        refine ih hk (i := i + 1) ?_ r.1 r.2
        rwa [Nat.add_assoc, Nat.add_comm 1]

end Language

section Trials

/-- Values that are all different. -/
def trial (F : Function) (initialiser : ℕ → Evaluation ℕ Unit)
    (element : ℕ → ℕ → ℕ → Evaluation ℕ Unit)
    (initialiser_within : ∀ i left right, F.params[i]? = some (.assignmentPattern left right) →
      (initialiser i).Within right)
    (element_within : ∀ i param elements step element', F.params[i]? = some param →
      param.target = .pattern elements → elements[step]? = some element' →
      ∀ value, (element i step value).Within element'.accesses) : Meaning F ℕ Unit where
  undefined := 0
  ofBool b := if b then 1 else 2
  ofBool_ne := by decide
  referenceError _ := 3
  lexEnvironment := 4
  closure _ := 5
  restArray _ := 6
  initialiser := initialiser
  element := element
  initialiser_within := initialiser_within
  element_within := element_within

/-- The frame when the function is called without arguments. -/
def freshState (F : Function) : State ℕ Unit :=
  ⟨0, ⟨fun reg => if reg < F.totalRegs then 8 else 0, fun _ => none⟩, ()⟩

theorem entry_freshState (M : Meaning F ℕ Unit) (undefined : M.undefined = 0) :
    M.Entry [] (freshState F) := by
  intro i _
  have : ¬ F.totalRegs + MANDATORY_PARAMS_NUMBER + i < F.totalRegs := by omega
  simp [freshState, this, Meaning.argument, undefined]

/-- An initialiser that throws, and nothing else that does anything. -/
def throwingAt (F : Function) (i : ℕ) : Meaning F ℕ Unit :=
  trial F (fun j => if j = i then .throwing 9 else .done 7) (fun _ _ _ => .done 7)
    (by intro j _ _ _; split <;> trivial) (by intros; trivial)

theorem not_bindsParameters_of_error {M : Meaning F ℕ Unit} (undefined : M.undefined = 0)
    {e : ℕ × Unit} (language : M.bindParameters [] F.params 0 (fun _ => none) () = .error e)
    {I : Memory ℕ → Prop} (completing : Completing M I)
    (prologue : I (M.prologueMemory (freshState F).memory)) : ¬ F.BindsParameters := by
  intro h
  have agrees := h ℕ Unit M [] (freshState F) (entry_freshState M undefined)
  obtain ⟨s', code⟩ : ∃ s', M.call [] (freshState F) = .ok s' :=
    completing.exists_call_eq_ok prologue
  have error : M.functionDeclarationInstantiation [] (freshState F).world = .error e := by
    rw [Meaning.functionDeclarationInstantiation]
    exact congrArg (Except.bind · _) language
  rw [code, error] at agrees
  exact agrees

theorem completing_throwingAt {i : ℕ} {param : Parameter} (hi : F.params[i]? = some param)
    (captured : F.slot (param.target.paramName i) ≠ none) :
    Completing (throwingAt F i) fun memory => memory.registers (paramReg i) ≠ 0 where
  store memory cell value placed h := by
    rwa [← vreg_paramName hi, registers_store_of_captured placed captured, vreg_paramName hi]
  initialiser j left right hj memory world h undefined := by
    have ne : j ≠ i := by
      rintro rfl
      exact h undefined
    exact ⟨7, memory, world, by simp [throwingAt, trial, ne, Evaluation.eval], h⟩
  element j param elements step element _ _ _ value memory world h :=
    ⟨7, memory, world, rfl, h⟩

theorem not_capturedDefault (h : F.BindsParameters) : ¬ F.CapturedDefault := by
  rintro ⟨i, name, right, hi, captured⟩
  have captured : F.slot (.name name) ≠ none := captured
  have throws (env : Bindings ℕ) (world : Unit) : (throwingAt F i).bindParameter [] (0 + i)
      (.assignmentPattern (.identifier name) right) env world = .error (9, world) := by
    simp [Meaning.bindParameter, Meaning.argument, throwingAt, trial, Evaluation.eval, bind,
      Except.bind]
  obtain ⟨e, language⟩ := exists_bindParameters_eq_error hi (fun env world => ⟨_, throws env world⟩)
    (fun _ => none) ()
  refine not_bindsParameters_of_error rfl language (completing_throwingAt hi captured) ?_ h
  have lt : paramReg i < F.totalRegs := by
    rw [← vreg_paramName hi]
    exact vreg_lt (paramCells_subset (List.mem_of_getElem? (getElem?_paramCells hi)))
  have reg := Meaning.registers_prologueMemory (M := throwingAt F i) captured (freshState F).memory
  have vreg : F.vreg (.name name) = paramReg i := vreg_paramName hi
  rw [vreg] at reg
  rw [reg]
  simp [freshState, lt]

def assignAll : List String → Evaluation ℕ Unit
  | [] => .done 7
  | name :: names => .assign name 7 (assignAll names)

def readAll (rest : Evaluation ℕ Unit) : List String → Evaluation ℕ Unit
  | [] => rest
  | name :: names => .read name fun _ => readAll rest names

/-- An expression that reads and assigns everything it may, but for what is found out when it
runs. -/
def probe (F : Function) (accesses : Accesses) : Evaluation ℕ Unit :=
  readAll (assignAll accesses.assigns) (accesses.reads.filter fun name => !F.HoleChecked name)

variable {accesses : Accesses} {names : List String} {rest : Evaluation ℕ Unit}

theorem within_assignAll (h : names ⊆ accesses.assigns) : (assignAll names).Within accesses := by
  induction names with
  | nil => trivial
  | cons name names ih => exact ⟨h (.head _), ih fun _ mem => h (.tail _ mem)⟩

theorem within_readAll (hrest : rest.Within accesses) (h : names ⊆ accesses.reads) :
    (readAll rest names).Within accesses := by
  induction names with
  | nil => exact hrest
  | cons name names ih => exact ⟨h (.head _), fun _ => ih fun _ mem => h (.tail _ mem)⟩

theorem within_probe (accesses : Accesses) : (probe F accesses).Within accesses :=
  within_readAll (within_assignAll fun _ mem => mem) List.filter_sublist.subset

def probingInitialiser (F : Function) (i : ℕ) : Evaluation ℕ Unit :=
  match F.params[i]? with
  | some (.assignmentPattern _ right) => probe F right
  | _ => .done 7

def probingElement (F : Function) (i step : ℕ) (_ : ℕ) : Evaluation ℕ Unit :=
  match F.params[i]?.map Parameter.target with
  | some (.pattern elements) =>
    match elements[step]? with
    | some element => probe F element.accesses
    | none => .done 7
  | _ => .done 7

theorem probingInitialiser_eq {i : ℕ} {left : Target} {right : Accesses}
    (hi : F.params[i]? = some (.assignmentPattern left right)) :
    probingInitialiser F i = probe F right := by
  simp [probingInitialiser, hi]

variable {elements : List Element}

theorem probingElement_eq {i step : ℕ} {param : Parameter} {element : Element}
    (hi : F.params[i]? = some param) (htarget : param.target = .pattern elements)
    (hstep : elements[step]? = some element) (value : ℕ) :
    probingElement F i step value = probe F element.accesses := by
  simp [probingElement, hi, htarget, hstep]

/-- All initialisers and patterns probe. -/
def probing (F : Function) : Meaning F ℕ Unit :=
  trial F (probingInitialiser F) (probingElement F)
    (fun _ _ right hi => probingInitialiser_eq hi ▸ within_probe right)
    (fun _ _ _ _ element hi htarget hstep value =>
      probingElement_eq hi htarget hstep value ▸ within_probe element.accesses)

/-- The names that are read without a check hold something. -/
def Unholed (F : Function) (memory : Memory V) : Prop :=
  ∀ name ∈ F.names, ¬ F.HoleChecked name → F.load memory (.name name) ≠ none

theorem Unholed.store {memory : Memory V} (h : Unholed F memory) {cell : Cell}
    (placed : F.Placed cell) (value : V) : Unholed F (F.store memory cell value) :=
  fun name mem checked => load_store_ne_none placed (h name mem checked) value

theorem eval_assignAll (M : Meaning F ℕ Unit) (subset : names ⊆ F.names) {memory : Memory ℕ}
    (h : Unholed F memory) (world : Unit) :
    ∃ value memory' world', (assignAll names).eval M.frame memory world =
      .ok (value, memory', world') ∧ Unholed F memory' := by
  induction names generalizing memory with
  | nil => exact ⟨7, memory, world, rfl, h⟩
  | cons name names ih =>
    have placed := placed_name (subset (.head _))
    exact ih (fun _ mem => subset (.tail _ mem)) (h.store placed 7)

theorem eval_readAll (M : Meaning F ℕ Unit) {memory : Memory ℕ} {world : Unit}
    (h : ∀ name ∈ names, F.load memory (.name name) ≠ none) :
    (readAll rest names).eval M.frame memory world = rest.eval M.frame memory world := by
  induction names with
  | nil => rfl
  | cons name names ih =>
    obtain ⟨value, eq⟩ := Option.ne_none_iff_exists'.1 (h name (.head _))
    simp only [readAll, Evaluation.eval, Meaning.frame, eq]
    exact ih fun name mem => h name (.tail _ mem)

theorem eval_probe (M : Meaning F ℕ Unit) (reads : accesses.reads ⊆ F.names)
    (assigns : accesses.assigns ⊆ F.names) {memory : Memory ℕ} (h : Unholed F memory) (world : Unit) :
    ∃ value memory' world', (probe F accesses).eval M.frame memory world =
      .ok (value, memory', world') ∧ Unholed F memory' := by
  rw [probe, eval_readAll]
  · exact eval_assignAll M assigns h world
  · intro name mem
    obtain ⟨mem, checked⟩ := List.mem_filter.1 mem
    exact h name (reads mem) (by simpa using checked)

theorem accesses_element_mem {param : Parameter} {element : Element}
    (htarget : param.target = .pattern elements) (mem : element ∈ elements) :
    element.accesses ∈ param.accesses := by
  have mem : element.accesses ∈ param.target.accesses := by
    rw [htarget]
    exact List.mem_map_of_mem mem
  cases param with
  | plain target => exact mem
  | assignmentPattern left right => exact .tail _ mem
  | restElement argument => exact mem

theorem completing_probing : Completing (probing F) (Unholed F) where
  store _ _ value placed h := h.store placed value
  initialiser i left right hi memory world h _ := by
    have mem : right ∈ (Parameter.assignmentPattern left right).accesses := .head _
    obtain ⟨reads, assigns⟩ := F.accesses_subset _ (List.mem_of_getElem? hi) right mem
    rw [show (probing F).initialiser i = _ from probingInitialiser_eq hi]
    exact eval_probe _ reads assigns h world
  element i param elements step element hi htarget hstep value memory world h := by
    have mem := accesses_element_mem htarget (List.mem_of_getElem? hstep)
    obtain ⟨reads, assigns⟩ := F.accesses_subset _ (List.mem_of_getElem? hi) _ mem
    rw [show (probing F).element i step value = _ from probingElement_eq hi htarget hstep value]
    exact eval_probe _ reads assigns h world

theorem eval_assignAll_eq_error (M : Meaning F ℕ Unit) {name : String} (mem : name ∈ names)
    {env : Bindings ℕ} (unbound : env name = none) (world : Unit) :
    ∃ e, (assignAll names).eval M.environment env world = .error e := by
  induction names generalizing env with
  | nil => simp at mem
  | cons name' names ih =>
    simp only [assignAll, Evaluation.eval, Meaning.environment]
    cases eq : env name' with
    | none => exact ⟨_, rfl⟩
    | some old =>
      have ne : name ≠ name' := by
        rintro rfl
        simp [unbound] at eq
      exact ih ((List.mem_cons.1 mem).resolve_left ne) (by simpa [ne] using unbound)

theorem eval_readAll_eq_error (M : Meaning F ℕ Unit) {env : Bindings ℕ} {world : Unit}
    (h : (∃ name ∈ names, env name = none) ∨
      ∃ e, rest.eval M.environment env world = .error e) :
    ∃ e, (readAll rest names).eval M.environment env world = .error e := by
  induction names with
  | nil => simpa [readAll] using h
  | cons name names ih =>
    simp only [readAll, Evaluation.eval]
    cases eq : M.environment.load env name with
    | none => exact ⟨_, rfl⟩
    | some value =>
      apply ih
      rcases h with ⟨name', mem, unbound⟩ | h
      · have ne : name' ≠ name := by
          rintro rfl
          exact absurd (eq.symm.trans unbound) (by simp)
        exact .inl ⟨name', (List.mem_cons.1 mem).resolve_left ne, unbound⟩
      · exact .inr h

theorem eval_probe_eq_error (M : Meaning F ℕ Unit) {bound : List String} {env : Bindings ℕ}
    (subset : ∀ name, env name ≠ none → name ∈ bound) (h : ¬ F.Allowed bound accesses)
    (world : Unit) :
    ∃ e, (probe F accesses).eval M.environment env world = .error e := by
  have unbound {name : String} (notMem : name ∉ bound) : env name = none := by
    by_contra ne
    exact notMem (subset name ne)
  apply eval_readAll_eq_error
  simp only [Signature.Allowed, not_and_or, not_forall, not_or] at h
  rcases h with ⟨name, mem, notMem, checked⟩ | ⟨name, mem, notMem⟩
  · exact .inl ⟨name, List.mem_filter.2 ⟨mem, by simpa using checked⟩, unbound notMem⟩
  · exact .inr (eval_assignAll_eq_error M mem (unbound notMem) world)

section Bound

variable {M : Meaning F ℕ Unit} {i : ℕ} {param : Parameter} {env env' : Bindings ℕ}
  {world world' : Unit} {bound : List String}

theorem bound_element {element : Element} {value : ℕ}
    (subset : ∀ name, env name ≠ none → name ∈ bound) (name : String)
    (h : element.target.elim env (fun name => Function.update env name (some value)) name ≠ none) :
    name ∈ bound ++ element.target.toList := by
  cases eq : element.target with
  | none => simpa using subset name (by simpa [eq] using h)
  | some name' =>
    by_cases same : name = name'
    · simp [same]
    · have := subset name (by simpa [eq, same] using h)
      simp [this]

theorem bound_bindElements {elements : List Element} {step value : ℕ}
    (h : M.bindElements i value elements step env world = .ok (env', world'))
    (subset : ∀ name, env name ≠ none → name ∈ bound) (name : String) (hname : env' name ≠ none) :
    name ∈ bound ++ elements.filterMap Element.target := by
  induction elements generalizing step env world bound with
  | nil =>
    obtain rfl : env = env' := by
      simp only [Meaning.bindElements, Except.ok.injEq, Prod.mk.injEq] at h
      exact h.1
    simpa using subset name hname
  | cons element elements ih =>
    rw [Meaning.bindElements] at h
    cases eq : (M.element i step value).eval M.environment env world with
    | error e =>
      rw [eq] at h
      cases h
    | ok r =>
      rw [eq] at h
      have subset' (name : String) (ne : r.2.1 name ≠ none) : name ∈ bound :=
        subset name (bound_of_eval M eq ne)
      have := ih h (bound_element subset')
      cases htarget : element.target <;> simpa [htarget] using this

theorem bound_bindTarget {target : Target} {value : ℕ}
    (h : M.bindTarget i value target env world = .ok (env', world'))
    (subset : ∀ name, env name ≠ none → name ∈ bound) (name : String) (hname : env' name ≠ none) :
    name ∈ bound ++ target.names := by
  cases target with
  | pattern elements => exact bound_bindElements h subset name hname
  | identifier name' =>
    simp only [Meaning.bindTarget, Except.ok.injEq, Prod.mk.injEq] at h
    rw [← h.1] at hname
    by_cases same : name = name'
    · simp [same, Target.names]
    · have := subset name (by simpa [same] using hname)
      simp [this]

theorem bound_bindParameter
    (h : M.bindParameter [] i param env world = .ok (env', world'))
    (subset : ∀ name, env name ≠ none → name ∈ bound) (name : String) (hname : env' name ≠ none) :
    name ∈ bound ++ param.names := by
  cases param with
  | plain target => exact bound_bindTarget h subset name hname
  | restElement argument => exact bound_bindTarget h subset name hname
  | assignmentPattern left right =>
    rw [Meaning.bindParameter] at h
    split at h
    · cases eq : (M.initialiser i).eval M.environment env world with
      | error e =>
        rw [eq] at h
        cases h
      | ok r =>
        rw [eq] at h
        exact bound_bindTarget h (fun name ne => subset name (bound_of_eval M eq ne)) name hname
    · exact bound_bindTarget h subset name hname

end Bound

section Errors

variable {i : ℕ} {param : Parameter} {env : Bindings ℕ} {world : Unit} {bound : List String}

theorem bindElements_eq_error {all elements : List Element} {step value : ℕ}
    (hi : F.params[i]? = some param) (htarget : param.target = .pattern all)
    (hsuffix : all.drop step = elements) (subset : ∀ name, env name ≠ none → name ∈ bound)
    (h : ¬ F.ElementsInOrder bound elements) :
    ∃ e, (probing F).bindElements i value elements step env world = .error e := by
  induction elements generalizing step bound env world with
  | nil => exact absurd trivial h
  | cons element elements ih =>
    have get : all[step]? = some element := by
      rw [← List.head?_drop, hsuffix]
      rfl
    have suffix : all.drop (step + 1) = elements := by
      rw [← List.drop_drop, hsuffix]
      rfl
    rw [Meaning.bindElements, show (probing F).element i step value = _ from
      probingElement_eq hi htarget get value]
    cases eq : (probe F element.accesses).eval (probing F).environment env world with
    | error e => exact ⟨e, rfl⟩
    | ok r =>
      have allowed : F.Allowed bound element.accesses := by
        by_contra not
        obtain ⟨e, eq'⟩ := eval_probe_eq_error (probing F) subset not world
        rw [eq] at eq'
        cases eq'
      have subset' (name : String) (ne : r.2.1 name ≠ none) : name ∈ bound :=
        subset name (bound_of_eval _ eq ne)
      exact ih suffix (bound_element subset') fun inOrder => h ⟨allowed, inOrder⟩

theorem bindTarget_eq_error {value : ℕ} (hi : F.params[i]? = some param)
    (subset : ∀ name, env name ≠ none → name ∈ bound) (h : ¬ F.TargetInOrder bound param.target) :
    ∃ e, (probing F).bindTarget i value param.target env world = .error e := by
  cases htarget : param.target with
  | identifier name =>
    rw [htarget] at h
    exact absurd trivial h
  | pattern elements =>
    rw [htarget] at h
    exact bindElements_eq_error hi htarget List.drop_zero subset h

theorem bindParameter_eq_error (hi : F.params[i]? = some param)
    (subset : ∀ name, env name ≠ none → name ∈ bound) (h : ¬ F.ParameterInOrder bound param) :
    ∃ e, (probing F).bindParameter [] i param env world = .error e := by
  cases param with
  | plain target => exact bindTarget_eq_error hi subset h
  | restElement argument => exact bindTarget_eq_error hi subset h
  | assignmentPattern left right =>
    have undefined : (probing F).argument [] i = (probing F).undefined := rfl
    rw [Meaning.bindParameter, if_pos undefined, show (probing F).initialiser i = _ from
      probingInitialiser_eq hi]
    cases eq : (probe F right).eval (probing F).environment env world with
    | error e => exact ⟨e, rfl⟩
    | ok r =>
      have allowed : F.Allowed bound right := by
        by_contra not
        obtain ⟨e, eq'⟩ := eval_probe_eq_error (probing F) subset not world
        rw [eq] at eq'
        cases eq'
      exact bindTarget_eq_error hi (fun name ne => subset name (bound_of_eval _ eq ne))
        fun inOrder => h ⟨allowed, inOrder⟩

theorem bindParameters_eq_error {params : List Parameter} (hsuffix : F.params.drop i = params)
    (subset : ∀ name, env name ≠ none → name ∈ bound) (h : ¬ F.ParamsInOrder bound params) :
    ∃ e, (probing F).bindParameters [] params i env world = .error e := by
  induction params generalizing i bound env world with
  | nil => exact absurd trivial h
  | cons param params ih =>
    have hi : F.params[i]? = some param := by
      rw [← List.head?_drop, hsuffix]
      rfl
    have suffix : F.params.drop (i + 1) = params := by
      rw [← List.drop_drop, hsuffix]
      rfl
    rw [Meaning.bindParameters]
    cases eq : (probing F).bindParameter [] i param env world with
    | error e => exact ⟨e, rfl⟩
    | ok r =>
      have inOrder : F.ParameterInOrder bound param := by
        by_contra not
        obtain ⟨e, eq'⟩ := bindParameter_eq_error hi subset not
        rw [eq] at eq'
        cases eq'
      exact ih suffix (bound_bindParameter eq subset) fun rest => h ⟨inOrder, rest⟩

end Errors

theorem inOrder_of_bindsParameters (h : F.BindsParameters) : F.InOrder := by
  by_contra not
  obtain ⟨e, language⟩ :
      ∃ e, (probing F).bindParameters [] F.params 0 (fun _ => none) () = .error e :=
    bindParameters_eq_error List.drop_zero (by simp) not
  refine not_bindsParameters_of_error rfl language completing_probing ?_ h
  exact fun name mem checked => Meaning.load_prologueMemory_ne_none mem checked _

/-- Initialisers and patterns that do nothing. -/
def quiet (F : Function) : Meaning F ℕ Unit :=
  trial F (fun _ => .done 7) (fun _ _ _ => .done 7) (by intros; trivial) (by intros; trivial)

/-- No name holds the function object of a declaration. -/
def NoClosure (env : Bindings ℕ) : Prop := ∀ name, env name ≠ some 5

theorem NoClosure.update {env : Bindings ℕ} (h : NoClosure env) (name : String) {value : ℕ}
    (ne : value ≠ 5) : NoClosure (Function.update env name (some value)) := by
  intro name'
  by_cases same : name' = name
  · simpa [same] using ne
  · simpa [same] using h name'

theorem quiet_bindElements {i value : ℕ} {step : ℕ} {env : Bindings ℕ} (h : NoClosure env)
    (world : Unit) :
    ∃ env', (quiet F).bindElements i value elements step env world = .ok (env', world) ∧
      NoClosure env' := by
  induction elements generalizing step env with
  | nil => exact ⟨env, rfl, h⟩
  | cons element elements ih =>
    rw [Meaning.bindElements]
    apply ih
    cases element.target with
    | none => exact h
    | some name => exact h.update name (by decide)

theorem quiet_bindTarget {i value : ℕ} (target : Target) {env : Bindings ℕ} (h : NoClosure env)
    (ne : value ≠ 5) (world : Unit) :
    ∃ env', (quiet F).bindTarget i value target env world = .ok (env', world) ∧
      NoClosure env' := by
  cases target with
  | identifier name => exact ⟨_, rfl, h.update name ne⟩
  | pattern elements => exact quiet_bindElements h world

theorem quiet_bindParameter {i : ℕ} (param : Parameter) {env : Bindings ℕ} (h : NoClosure env)
    (world : Unit) :
    ∃ env', (quiet F).bindParameter [] i param env world = .ok (env', world) ∧
      NoClosure env' := by
  have argument : (quiet F).argument [] i = 0 := rfl
  cases param with
  | plain target => exact quiet_bindTarget target h (by simp [argument]) world
  | assignmentPattern left right =>
    rw [Meaning.bindParameter, if_pos (show _ = (quiet F).undefined from argument)]
    exact quiet_bindTarget left h (by decide) world
  | restElement argument => exact quiet_bindTarget argument h (show 6 ≠ 5 by decide) world

theorem quiet_bindParameters {i : ℕ} (params : List Parameter) {env : Bindings ℕ}
    (h : NoClosure env) (world : Unit) :
    ∃ env', (quiet F).bindParameters [] params i env world = .ok (env', world) ∧
      NoClosure env' := by
  induction params generalizing i env with
  | nil => exact ⟨env, rfl, h⟩
  | cons param params ih =>
    obtain ⟨env', eq, h'⟩ := quiet_bindParameter (i := i) param h world
    obtain ⟨env'', eq', h''⟩ := ih h' (i := i + 1)
    refine ⟨env'', ?_, h''⟩
    rw [Meaning.bindParameters, eq]
    exact eq'

theorem not_redeclaredAsFunction (h : F.BindsParameters) : ¬ F.RedeclaredAsFunction := by
  rintro ⟨name, hoisted⟩
  have entry : (quiet F).Entry [] (freshState F) := entry_freshState _ rfl
  have mem : name ∈ F.names :=
    patternNames_subset (F.hoisted_subset (List.mem_map_of_mem (f := Hoisted.name) hoisted))
  have none : NoClosure fun _ => none := by simp [NoClosure]
  obtain ⟨env, language, noClosure⟩ := quiet_bindParameters (F := F) (i := 0) F.params none ()
  have simulates := simulates_call (not_capturedDefault h) (inOrder_of_bindsParameters h) entry
  have agrees := h ℕ Unit (quiet F) [] (freshState F) entry
  rw [show (freshState F).world = () from rfl, language] at simulates
  rw [Meaning.functionDeclarationInstantiation, show (freshState F).world = () from rfl,
    language] at agrees
  revert agrees
  generalize (quiet F).call [] (freshState F) = code at simulates
  cases simulates with
  | ok related =>
    rintro ⟨-, loads⟩
    have load := loads name mem
    rw [related.load_eq name mem, Meaning.instantiateFunctions, if_pos hoisted] at load
    exact noClosure name load

end Trials

end ArkTs2abc.Es2panda.ParameterBinding
