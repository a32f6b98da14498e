import ArkTs2abc.Es2panda.Compiler.ParameterBinding

/-!
# The frame after the prologue

Every variable of a function has a register or a slot of its own, so that storing one of them
leaves the others as they are. The code of the prologue, of the hoisted declarations and of each
parameter is run piece by piece.

## Main results

* `Function.load_store`, `Function.load_store_of_ne` — variables do not share their places.
* `Meaning.run_prologue` — what the variables hold when the first parameter is bound.
* `Meaning.run_compileParameters_cons` — the parameters are bound one after the other.
-/

namespace ArkTs2abc.Es2panda.ParameterBinding

open FlatCode.Forward

variable {V W : Type} {F : Function}

namespace Function

/-- The variable has a place of its own. -/
def Placed (F : Function) (cell : Cell) : Prop := F.slot cell = none → cell ∈ F.registers

variable {name : String} {cell cell' : Cell} {param : Parameter}

theorem placed_name (h : name ∈ F.names) : F.Placed (.name name) :=
  F.mem_registers name h

theorem placed_scratch : F.Placed .scratch := by
  intro _
  simp [Signature.registers]

theorem placed_environment : F.Placed .environment := by
  intro _
  simp [Signature.registers]

theorem slot_injective {slot : ℕ} (h : F.slot cell = some slot) (h' : F.slot cell' = some slot) :
    cell = cell' := by
  unfold Signature.slot at h h'
  split at h
  · split at h'
    · exact congrArg Cell.name (F.lexIdx_injective _ _ _ h h')
    · cases h'
  · cases h

theorem vreg_injective (h : cell ∈ F.registers) (eq : F.vreg cell = F.vreg cell') : cell = cell' :=
  (List.idxOf_inj h).1 eq

@[simp] theorem load_store (memory : Memory V) (cell : Cell) (value : V) :
    F.load (F.store memory cell value) cell = some value := by
  unfold Signature.load Signature.store
  cases F.slot cell <;> simp

theorem load_store_of_ne (placed : F.Placed cell) (ne : cell ≠ cell') (memory : Memory V)
    (value : V) :
    F.load (F.store memory cell value) cell' = F.load memory cell' := by
  unfold Signature.load Signature.store
  cases h : F.slot cell with
  | some slot =>
    cases h' : F.slot cell' with
    | some slot' =>
      have : slot' ≠ slot := by
        rintro rfl
        exact ne (slot_injective h h')
      simp [this]
    | none => rfl
  | none =>
    cases h' : F.slot cell' with
    | some slot' => rfl
    | none =>
      have : F.vreg cell' ≠ F.vreg cell := fun eq => ne (vreg_injective (placed h) eq.symm)
      simp [this]

theorem load_store_ne_none (placed : F.Placed cell) {memory : Memory V}
    (h : F.load memory cell' ≠ none) (value : V) :
    F.load (F.store memory cell value) cell' ≠ none := by
  by_cases eq : cell = cell'
  · simp [eq]
  · rwa [load_store_of_ne placed eq]

theorem registers_store_of_captured (placed : F.Placed cell) (captured : F.slot cell' ≠ none)
    (memory : Memory V) (value : V) :
    (F.store memory cell value).registers (F.vreg cell') = memory.registers (F.vreg cell') := by
  unfold Signature.store
  cases h : F.slot cell with
  | some slot => rfl
  | none =>
    have : F.vreg cell' ≠ F.vreg cell := by
      intro eq
      obtain rfl := vreg_injective (placed h) eq.symm
      exact captured h
    simp [this]

theorem vreg_lt (h : cell ∈ F.registers) : F.vreg cell < F.totalRegs :=
  Nat.lt_of_lt_of_le (List.idxOf_lt_length_of_mem h) F.registers_le

theorem registers_store_of_le (placed : F.Placed cell) {reg : ℕ} (h : F.totalRegs ≤ reg)
    (memory : Memory V) (value : V) :
    (F.store memory cell value).registers reg = memory.registers reg := by
  unfold Signature.store
  cases h' : F.slot cell with
  | some slot => rfl
  | none =>
    have : reg ≠ F.vreg cell := by
      have := vreg_lt (placed h')
      omega
    simp [this]

theorem getElem?_paramCells {i : ℕ} (h : F.params[i]? = some param) :
    F.paramCells[MANDATORY_PARAMS_NUMBER + i]? = some (param.target.paramName i) := by
  rw [Signature.paramCells, List.getElem?_append_right (by simp [F.mandatory_length])]
  simp [F.mandatory_length, h]

theorem paramCells_subset : F.paramCells ⊆ F.registers := by
  intro cell mem
  simp [Signature.registers, mem]

theorem placed_of_mem_paramCells (h : cell ∈ F.paramCells) : F.Placed cell :=
  fun _ => paramCells_subset h

theorem vreg_paramName {i : ℕ} (h : F.params[i]? = some param) :
    F.vreg (param.target.paramName i) = paramReg i := by
  have get : F.registers[MANDATORY_PARAMS_NUMBER + i]? = some (param.target.paramName i) := by
    have lt := (List.getElem?_eq_some_iff.1 (getElem?_paramCells h)).1
    rw [Signature.registers, List.append_assoc, List.append_assoc, List.getElem?_append_left lt]
    exact getElem?_paramCells h
  obtain ⟨lt, eq⟩ := List.getElem?_eq_some_iff.1 get
  rw [Signature.vreg, ← eq, F.registers_nodup.idxOf_getElem]
  rfl

theorem paramCells_nodup : F.paramCells.Nodup := by
  have := F.registers_nodup
  rw [Signature.registers, List.append_assoc, List.append_assoc] at this
  exact this.of_append_left

theorem mem_names {i : ℕ} (h : F.params[i]? = some param) (mem : name ∈ param.names) :
    name ∈ F.names :=
  List.mem_flatMap.2 ⟨param, List.mem_of_getElem? h, mem⟩

theorem patternNames_subset : F.patternNames ⊆ F.names := by
  intro name mem
  obtain ⟨param, hparam, mem⟩ := List.mem_flatMap.1 mem
  refine List.mem_flatMap.2 ⟨param, hparam, ?_⟩
  unfold Parameter.names Target.names
  unfold Target.patternNames at mem
  split at mem
  · simp at mem
  · simpa using mem

theorem names_disjoint {i j : ℕ} {param' : Parameter} (hi : F.params[i]? = some param)
    (hj : F.params[j]? = some param') (ne : i ≠ j) (mem : name ∈ param.names) :
    name ∉ param'.names := by
  have disjoint := (List.nodup_flatMap.1 F.names_nodup).2
  rw [List.pairwise_iff_getElem] at disjoint
  obtain ⟨ltᵢ, rfl⟩ := List.getElem?_eq_some_iff.1 hi
  obtain ⟨ltⱼ, rfl⟩ := List.getElem?_eq_some_iff.1 hj
  intro mem'
  rcases Nat.lt_or_gt_of_ne ne with lt | gt
  · exact disjoint i j ltᵢ ltⱼ lt mem mem'
  · exact disjoint j i ltⱼ ltᵢ gt mem' mem

theorem name_notMem_paramCells (h : name ∈ F.patternNames) :
    Cell.name name ∉ F.paramCells := by
  intro mem
  obtain ⟨param, hparam, mem'⟩ := List.mem_flatMap.1 h
  rcases List.mem_append.1 mem with mem | mem
  · obtain ⟨name', hmem, eq⟩ := List.mem_map.1 mem
    cases eq
    exact F.mandatory_disjoint _ hmem (patternNames_subset h)
  · obtain ⟨⟨param', j⟩, hmem, eq⟩ := List.mem_map.1 mem
    obtain ⟨i, hi⟩ := List.getElem?_of_mem hparam
    have hj : F.params[j]? = some param' := by simpa using List.mem_zipIdx_iff_getElem?.1 hmem
    cases htarget' : param'.target with
    | pattern elements => simp [Target.paramName, htarget'] at eq
    | identifier name' =>
      obtain rfl : name' = name := by simpa [Target.paramName, htarget'] using eq
      cases htarget : param.target with
      | identifier name => simp [Target.patternNames, htarget] at mem'
      | pattern elements =>
        have ne : i ≠ j := by
          rintro rfl
          obtain rfl : param = param' := by simpa [hi] using hj
          simp [htarget] at htarget'
        exact names_disjoint hi hj ne (by simpa [Parameter.names, Target.names,
          Target.patternNames, htarget] using mem') (by simp [Parameter.names, Target.names, htarget'])

end Function

namespace Signature

variable (F : Signature)

/-- A captured name of a pattern without a declaration in the body: its slot holds the hole until
the pattern is taken apart. -/
def HoleChecked (name : String) : Prop :=
  F.lexIdx name ≠ none ∧ name ∈ F.patternNames ∧ name ∉ F.hoisted.map Hoisted.name

instance (name : String) : Decidable (F.HoleChecked name) :=
  inferInstanceAs (Decidable (_ ∧ _ ∧ _))

/-- What `copyFunctionArguments` does to the frame. -/
def copied : List Cell → ℕ → Memory V → Memory V
  | [], _, memory => memory
  | param :: params, targetReg, memory =>
    copied params (targetReg + 1) (F.store memory param (memory.registers targetReg))

end Signature

namespace Meaning

variable [DecidableEq V] (M : Meaning F V W) (args : List V)

/-- What `hoist` does to the frame. -/
def hoistedMemory : List Hoisted → Memory V → Memory V
  | [], memory => memory
  | .var name :: hoisted, memory =>
    hoistedMemory hoisted (F.store memory (.name name) M.undefined)
  | .function name :: hoisted, memory =>
    hoistedMemory hoisted (F.store memory (.name name) (M.closure name))

/-- The frame after the environment has been made. -/
def enteredMemory (memory : Memory V) : Memory V :=
  F.store (if 0 < F.lexicalSlots then { memory with slots := fun _ => none } else memory)
    .environment M.lexEnvironment

/-- The frame when the first parameter is bound. -/
def prologueMemory (memory : Memory V) : Memory V :=
  M.hoistedMemory F.hoisted (F.copied F.paramCells F.totalRegs (M.enteredMemory memory))

theorem run_storeVar (cell : Cell) (rest : Code) (s : State V W) :
    run (M.exec args) (F.storeVar cell ++ rest) s =
      run (M.exec args) rest { s with memory := F.store s.memory cell s.acc } := by
  unfold Signature.storeVar Signature.store
  cases F.slot cell with
  | some slot => exact run_next rfl rest
  | none => exact run_next rfl rest

theorem run_copyFunctionArguments (params : List Cell) (targetReg : ℕ) (rest : Code)
    (s : State V W) :
    ∃ acc, run (M.exec args) (F.copyFunctionArguments params targetReg ++ rest) s =
      run (M.exec args) rest ⟨acc, F.copied params targetReg s.memory, s.world⟩ := by
  induction params generalizing targetReg s with
  | nil => exact ⟨s.acc, rfl⟩
  | cons param params ih =>
    rw [Signature.copyFunctionArguments, Signature.copied]
    unfold Signature.store
    cases F.slot param with
    | some slot =>
      obtain ⟨acc, h⟩ := ih (targetReg + 1) ⟨s.memory.registers targetReg,
        ⟨s.memory.registers, Function.update s.memory.slots slot
          (some (s.memory.registers targetReg))⟩, s.world⟩
      exact ⟨acc, ((run_next rfl _).trans (run_next rfl _)).trans h⟩
    | none =>
      obtain ⟨acc, h⟩ := ih (targetReg + 1) ⟨s.acc,
        ⟨Function.update s.memory.registers (F.vreg param) (s.memory.registers targetReg),
          s.memory.slots⟩, s.world⟩
      exact ⟨acc, (run_next rfl _).trans h⟩

theorem run_hoist (hoisted : List Hoisted) (rest : Code) (s : State V W) :
    ∃ acc, run (M.exec args) (F.hoist hoisted ++ rest) s =
      run (M.exec args) rest ⟨acc, M.hoistedMemory hoisted s.memory, s.world⟩ := by
  induction hoisted generalizing s with
  | nil => exact ⟨s.acc, rfl⟩
  | cons declaration hoisted ih =>
    cases declaration with
    | var name =>
      obtain ⟨acc, h⟩ := ih ⟨M.undefined, F.store s.memory (.name name) M.undefined, s.world⟩
      simp only [Signature.hoist, List.cons_append, List.append_assoc]
      refine ⟨acc, (run_next rfl _).trans ?_⟩
      rw [run_storeVar]
      exact h
    | function name =>
      obtain ⟨acc, h⟩ := ih ⟨M.closure name, F.store s.memory (.name name) (M.closure name),
        s.world⟩
      simp only [Signature.hoist, List.cons_append, List.append_assoc]
      refine ⟨acc, (run_next rfl _).trans ?_⟩
      rw [run_storeVar]
      exact h

theorem run_initializeLexEnv (rest : Code) (s : State V W) :
    run (M.exec args) (F.initializeLexEnv ++ rest) s =
      run (M.exec args) rest ⟨M.lexEnvironment, M.enteredMemory s.memory, s.world⟩ := by
  unfold Signature.initializeLexEnv enteredMemory
  split
  · exact (run_next rfl _).trans (run_next rfl _)
  · exact (run_next rfl _).trans (run_next rfl _)

theorem call_eq (s : State V W) :
    ∃ acc, M.call args s = run (M.exec args)
      (F.compileFunctionParameterDeclaration F.params 0)
      ⟨acc, M.prologueMemory s.memory, s.world⟩ := by
  rw [call, Signature.code, run_initializeLexEnv]
  obtain ⟨_, h⟩ := run_copyFunctionArguments M args F.paramCells F.totalRegs
    (F.hoist F.hoisted ++ F.compileFunctionParameterDeclaration F.params 0)
    ⟨M.lexEnvironment, M.enteredMemory s.memory, s.world⟩
  rw [h]
  exact run_hoist M args _ _ _

end Meaning

namespace Function

theorem copied_induction {I : Memory V → Prop} {cells : List Cell}
    (step : ∀ memory cell value, cell ∈ cells → I memory → I (F.store memory cell value))
    (targetReg : ℕ) {memory : Memory V} (h : I memory) : I (F.copied cells targetReg memory) := by
  induction cells generalizing targetReg memory with
  | nil => exact h
  | cons cell cells ih =>
    apply ih (fun memory cell value mem => step memory cell value (.tail _ mem))
    exact step _ _ _ (.head _) h

theorem load_copied_of_notMem {cells : List Cell} (placed : ∀ cell ∈ cells, F.Placed cell)
    {cell : Cell} (h : cell ∉ cells) (targetReg : ℕ) (memory : Memory V) :
    F.load (F.copied cells targetReg memory) cell = F.load memory cell := by
  refine copied_induction (I := fun m => F.load m cell = F.load memory cell) ?_ targetReg rfl
  intro m cell' value mem eq
  have ne : cell' ≠ cell := by
    rintro rfl
    exact h mem
  rw [load_store_of_ne (placed cell' mem) ne, eq]

theorem load_copied {cells : List Cell} (placed : ∀ cell ∈ cells, F.Placed cell)
    (nodup : cells.Nodup) {cell : Cell} {k : ℕ} (h : cells[k]? = some cell) {targetReg : ℕ}
    (le : F.totalRegs ≤ targetReg) (memory : Memory V) :
    F.load (F.copied cells targetReg memory) cell = some (memory.registers (targetReg + k)) := by
  induction cells generalizing k targetReg memory with
  | nil => simp at h
  | cons cell' cells ih =>
    rw [List.nodup_cons] at nodup
    have tail : ∀ cell ∈ cells, F.Placed cell := fun cell mem => placed cell (.tail _ mem)
    cases k with
    | zero =>
      obtain rfl : cell' = cell := by simpa using h
      rw [Signature.copied, load_copied_of_notMem tail nodup.1, load_store, Nat.add_zero]
    | succ k =>
      rw [List.getElem?_cons_succ] at h
      rw [Signature.copied, ih tail nodup.2 h (by omega),
        registers_store_of_le (placed cell' (.head _)) (by omega), Nat.add_assoc, Nat.add_comm 1]

end Function

namespace Meaning

open ArkTs2abc.Es2panda.ParameterBinding.Function

variable {M : Meaning F V W} {args : List V}

theorem hoistedMemory_induction {I : Memory V → Prop} {hoisted : List Hoisted}
    (step : ∀ memory name value, name ∈ hoisted.map Hoisted.name → I memory →
      I (F.store memory (.name name) value))
    {memory : Memory V} (h : I memory) : I (M.hoistedMemory hoisted memory) := by
  induction hoisted generalizing memory with
  | nil => exact h
  | cons declaration hoisted ih =>
    have step' : ∀ memory name value, name ∈ hoisted.map Hoisted.name → I memory →
        I (F.store memory (.name name) value) :=
      fun memory name value mem => step memory name value (.tail _ mem)
    cases declaration with
    | var name => exact ih step' (step _ _ _ (.head _) h)
    | function name => exact ih step' (step _ _ _ (.head _) h)

variable {name : String}

theorem placed_of_mem_hoisted (h : name ∈ F.hoisted.map Hoisted.name) :
    F.Placed (.name name) :=
  placed_name (patternNames_subset (F.hoisted_subset h))

theorem load_hoistedMemory_of_notMem {cell : Cell}
    (h : ∀ name ∈ F.hoisted.map Hoisted.name, Cell.name name ≠ cell) (memory : Memory V) :
    F.load (M.hoistedMemory F.hoisted memory) cell = F.load memory cell := by
  refine hoistedMemory_induction (I := fun m => F.load m cell = F.load memory cell) ?_ rfl
  intro m name value mem eq
  rw [load_store_of_ne (placed_of_mem_hoisted mem) (h name mem), eq]

theorem load_hoistedMemory_ne_none (h : name ∈ F.hoisted.map Hoisted.name) (memory : Memory V) :
    F.load (M.hoistedMemory F.hoisted memory) (.name name) ≠ none := by
  suffices stored : ∀ (hoisted : List Hoisted) (memory : Memory V), hoisted ⊆ F.hoisted →
      name ∈ hoisted.map Hoisted.name ∨ F.load memory (.name name) ≠ none →
      F.load (M.hoistedMemory hoisted memory) (.name name) ≠ none from
    stored F.hoisted memory (fun _ mem => mem) (.inl h)
  intro hoisted memory subset h
  induction hoisted generalizing memory with
  | nil => simpa [hoistedMemory] using h
  | cons declaration hoisted ih =>
    have placed : F.Placed (.name declaration.name) :=
      placed_of_mem_hoisted (List.mem_map_of_mem (subset (.head _)))
    have next (value : V) : name ∈ hoisted.map Hoisted.name ∨
        F.load (F.store memory (.name declaration.name) value) (.name name) ≠ none := by
      rcases h with h | h
      · rcases List.mem_cons.1 h with rfl | h
        · exact .inr (by simp)
        · exact .inl h
      · exact .inr (load_store_ne_none placed h value)
    cases declaration with
    | var _ => exact ih _ (fun _ mem => subset (.tail _ mem)) (next _)
    | function _ => exact ih _ (fun _ mem => subset (.tail _ mem)) (next _)

theorem load_enteredMemory_of_ne {cell : Cell} (ne : .environment ≠ cell)
    (memory : Memory V) : F.load (M.enteredMemory memory) cell =
      F.load (if 0 < F.lexicalSlots then { memory with slots := fun _ => none } else memory) cell :=
  load_store_of_ne placed_environment ne _ _

/-- What the parameters find when the first one is bound. -/
structure Ready (M : Meaning F V W) (args : List V) (memory : Memory V) : Prop where
  argument : ∀ i param, F.params[i]? = some param →
    F.load memory (param.target.paramName i) = some (M.argument args i)
  hole : ∀ name, F.HoleChecked name → F.load memory (.name name) = none

theorem name_ne_paramName (h : name ∈ F.patternNames) {i : ℕ} {param : Parameter}
    (hi : F.params[i]? = some param) : .name name ≠ param.target.paramName i := by
  intro eq
  apply name_notMem_paramCells h
  rw [eq]
  exact List.mem_of_getElem? (getElem?_paramCells hi)

theorem load_copied_paramName {i : ℕ} {param : Parameter} (h : F.params[i]? = some param)
    (memory : Memory V) :
    F.load (F.copied F.paramCells F.totalRegs memory) (param.target.paramName i) =
      some (memory.registers (F.totalRegs + MANDATORY_PARAMS_NUMBER + i)) := by
  rw [load_copied (fun _ => placed_of_mem_paramCells) paramCells_nodup (getElem?_paramCells h)
    (Nat.le_refl _), Nat.add_assoc]

theorem load_prologueMemory_paramName {i : ℕ} {param : Parameter}
    (h : F.params[i]? = some param) (memory : Memory V) :
    F.load (M.prologueMemory memory) (param.target.paramName i) =
      some (memory.registers (F.totalRegs + MANDATORY_PARAMS_NUMBER + i)) := by
  rw [prologueMemory, load_hoistedMemory_of_notMem, load_copied_paramName h, enteredMemory,
    registers_store_of_le placed_environment (by omega)]
  · split <;> rfl
  · intro name mem
    exact name_ne_paramName (F.hoisted_subset mem) h

theorem ready_prologueMemory {s : State V W} (entry : M.Entry args s) :
    M.Ready args (M.prologueMemory s.memory) := by
  constructor
  · intro i param h
    rw [load_prologueMemory_paramName h, entry i (List.getElem?_eq_some_iff.1 h).1]
  · rintro name ⟨captured, pattern, notHoisted⟩
    have notParam := name_notMem_paramCells pattern
    obtain ⟨slot, hslot⟩ := Option.ne_none_iff_exists'.1 captured
    have pos : 0 < F.lexicalSlots := Nat.zero_lt_of_lt (F.lexIdx_lt name slot hslot)
    have slot_eq : F.slot (.name name) = some slot := hslot
    rw [prologueMemory, load_hoistedMemory_of_notMem,
      load_copied_of_notMem (fun _ => placed_of_mem_paramCells) notParam,
      load_enteredMemory_of_ne (by simp), if_pos pos]
    · simp [Signature.load, slot_eq]
    · rintro name' mem eq
      cases eq
      exact notHoisted mem

theorem load_prologueMemory_ne_none (mem : name ∈ F.names) (h : ¬ F.HoleChecked name)
    (memory : Memory V) :
    F.load (M.prologueMemory memory) (.name name) ≠ none := by
  by_cases hoisted : name ∈ F.hoisted.map Hoisted.name
  · exact load_hoistedMemory_ne_none hoisted _
  · obtain ⟨param, hparam, mem⟩ := List.mem_flatMap.1 mem
    obtain ⟨i, hi⟩ := List.getElem?_of_mem hparam
    cases htarget : param.target with
    | identifier name' =>
      obtain rfl : name = name' := by simpa [Parameter.names, Target.names, htarget] using mem
      have := load_prologueMemory_paramName (M := M) hi memory
      rw [htarget, Target.paramName] at this
      simp [this]
    | pattern elements =>
      have pattern : name ∈ F.patternNames := by
        refine List.mem_flatMap.2 ⟨param, hparam, ?_⟩
        simpa [Parameter.names, Target.names, Target.patternNames, htarget] using mem
      have captured : F.lexIdx name = none := by
        by_contra captured
        exact h ⟨captured, pattern, hoisted⟩
      have slot_eq : F.slot (.name name) = none := captured
      simp [Signature.load, slot_eq]

theorem registers_prologueMemory {cell : Cell} (captured : F.slot cell ≠ none)
    (memory : Memory V) :
    (M.prologueMemory memory).registers (F.vreg cell) = memory.registers (F.vreg cell) := by
  let I (m : Memory V) : Prop := m.registers (F.vreg cell) = memory.registers (F.vreg cell)
  have step {cell' : Cell} (placed : F.Placed cell') (m : Memory V) (value : V) (h : I m) :
      I (F.store m cell' value) :=
    (registers_store_of_captured placed captured m value).trans h
  have entered : I (M.enteredMemory memory) := by
    apply step placed_environment
    split <;> rfl
  refine hoistedMemory_induction (I := I) ?_ (copied_induction (I := I) ?_ _ entered)
  · intro m name value mem h
    exact step (placed_of_mem_hoisted mem) m value h
  · intro m cell' value mem h
    exact step (placed_of_mem_paramCells mem) m value h

end Meaning

end ArkTs2abc.Es2panda.ParameterBinding
