import ArkTs2abc.Branches.Switch

/-!
# Where the clauses of a switch statement start

A default clause is entered unless it is the first clause.

## Main results

* `Execution.followsClauses_iff` — when the code does what the evaluation does.
-/

namespace ArkTs2abc.Branches

open FlatCode.Forward

variable {E S V W X : Type} {ops : Operations E S V W X}

/-! ### The tests -/

/-- What the tests do against the selection of a clause. -/
def Selects (ops : Operations E S V W X) (caseLabel : ℕ → ℕ) (code : Code E S)
    (s : State E S V W) : Outcome E S W X (Option ℕ) → Prop
  | .error e => Behaves ops.exec code s (.error e)
  | .ok (none, m) => ∃ acc regs, Behaves ops.exec code s (.ok (.next, ⟨acc, regs, m⟩))
  | .ok (some i, m) =>
    ∃ acc regs, Behaves ops.exec code s (.ok (.jump (caseLabel i), ⟨acc, regs, m⟩))

theorem Compiler.jumpsBy_case (c : Compiler) (ops : Operations E S V W X) (tag caseLabel : ℕ) (s : State E S V W) :
    ∃ acc, Behaves ops.exec (c.condition .notStrictEqual tag caseLabel) s
      (.ok (if ops.isStrictlyEqual (s.regs tag) s.acc then .jump caseLabel else .next,
        { s with acc := acc })) := by
  refine ⟨.boolean !(ops.isStrictlyEqual (s.regs tag) s.acc), ?_⟩
  cases c with
  | es2panda =>
    have hbranch (b : Bool) : Behaves ops.exec [.insn (.jfalse caseLabel)]
        { s with acc := .boolean !b }
        (.ok (if b then .jump caseLabel else .next, { s with acc := .boolean !b })) := by
      have h := behaves ops (.jfalse caseLabel) { s with acc := .boolean !b }
      rw [Es2panda.exec_jfalse _ _ rfl] at h
      cases b <;> exact h
    exact Behaves.cons rfl (hbranch _)
  | ts2panda =>
    have hbranch (b : Bool) : Behaves ops.exec [.insn (.jeqz caseLabel)]
        { s with acc := .boolean !b }
        (.ok (if b then .jump caseLabel else .next, { s with acc := .boolean !b })) := by
      have h := behaves ops (.jeqz caseLabel) { s with acc := .boolean !b }
      rw [Ts2panda.exec_jeqz _ _ rfl] at h
      cases b <;> exact h
    exact Behaves.cons rfl (hbranch _)

theorem Compiler.labels_condition (c : Compiler) (op : Relation) (lhs ifFalse : ℕ) :
    labels (c.condition op lhs ifFalse : Code E S) = [] := by
  cases c <;> rfl

variable {caseLabel : ℕ → ℕ} {clauses : List (Clause E S)} {code : Code E S} {s : State E S V W}

theorem le_labels_jumpIfCases (c : Compiler) (ops : Operations E S V W X) {tag : ℕ} {i n : ℕ}
    (h : c.jumpIfCases tag caseLabel clauses i n = some code) : ∀ l ∈ labels code, n ≤ l := by
  induction clauses generalizing i n code with
  | nil =>
    cases h
    simp
  | cons clause clauses ih =>
    rcases clause with ⟨_ | test, statements⟩
    · exact ih h
    · simp only [Compiler.jumpIfCases, Option.bind_eq_bind, Option.bind_eq_some_iff,
        Option.pure_def, Option.some.injEq] at h
      obtain ⟨testCode, htest, rest, hrest, rfl⟩ := h
      have hl := (c.evaluates ops test _ _ _ htest).1
      have hr := ih hrest
      intro l hmem
      simp only [labels_append, c.labels_condition, List.mem_append, List.not_mem_nil,
        false_or] at hmem
      grind [LabelsIn]

/-- By the list of clauses: the register of the discriminant is kept by the tests. -/
theorem selects (c : Compiler) (ops : Operations E S V W X) {tag n i : ℕ} {v : Value V}
    (h : c.jumpIfCases tag caseLabel clauses i n = some code) (htag : s.regs tag = v)
    (hlabel : ∀ j < i + clauses.length, caseLabel j < n) :
    Selects ops caseLabel code s (select ops v clauses i s.memory) := by
  induction clauses generalizing i n code s with
  | nil =>
    cases h
    exact ⟨s.acc, s.regs, Behaves.nil s⟩
  | cons clause clauses ih =>
    rw [List.length_cons] at hlabel
    rcases clause with ⟨_ | test, statements⟩
    · exact ih h htag fun j hj => hlabel j (by omega)
    · simp only [Compiler.jumpIfCases, Option.bind_eq_bind, Option.bind_eq_some_iff,
        Option.pure_def, Option.some.injEq] at h
      obtain ⟨testCode, htest, rest, hrest, rfl⟩ := h
      have hcomputes := (c.evaluates ops test _ _ _ htest).2 s
      rw [select]
      generalize test.evaluate ops s.memory = o at hcomputes ⊢
      rcases o with e | ⟨x, m⟩
      · exact Behaves.append_error hcomputes _
      · obtain ⟨t, acc, regs, ⟨rfl, rfl⟩, hregs, hcomputes⟩ := hcomputes
        have hregs : regs tag = v := (hregs tag (Nat.lt_succ_self tag)).trans htag
        obtain ⟨acc', hcase⟩ := c.jumpsBy_case ops tag (caseLabel i) ⟨acc, regs, m⟩
        simp only [hregs] at hcase
        change Selects ops caseLabel _ s
          (if ops.isStrictlyEqual v acc then .ok (some i, m) else select ops v clauses (i + 1) m)
        cases heq : ops.isStrictlyEqual v acc with
        | true =>
          simp only [heq, if_true] at hcase ⊢
          have hnot : caseLabel i ∉ labels rest := fun hmem => by
            have := le_labels_jumpIfCases c ops hrest _ hmem
            have := hlabel i (by omega)
            omega
          exact ⟨acc', regs, hcomputes.append (hcase.append_leave hnot)⟩
        | false =>
          simp only [heq, Bool.false_eq_true, if_false] at hcase ⊢
          have hrest := ih (s := ⟨acc', regs, m⟩) hrest hregs fun j hj => by
            have := hlabel j (by omega)
            omega
          change Selects ops caseLabel rest ⟨acc', regs, m⟩ (select ops v clauses (i + 1) m) at hrest
          have happend {o} (h : Behaves ops.exec rest ⟨acc', regs, m⟩ o) :
              Behaves ops.exec (testCode ++ (c.condition .notStrictEqual tag (caseLabel i) ++ rest))
                s o :=
            hcomputes.append (hcase.append h)
          generalize select ops v clauses (i + 1) m = o at hrest ⊢
          rcases o with e | ⟨_ | j, m'⟩
          · exact happend (o := .error e) hrest
          · obtain ⟨acc'', regs', hrest⟩ := hrest
            exact ⟨acc'', regs', happend hrest⟩
          · obtain ⟨acc'', regs', hrest⟩ := hrest
            exact ⟨acc'', regs', happend hrest⟩

/-! ### The clauses -/

/-- What statements do against their execution: a break leads to the end label. -/
def Executes (ops : Operations E S V W X) (endLabel : ℕ) (code : Code E S) (s : State E S V W) :
    Outcome E S W X Bool → Prop
  | .error e => Behaves ops.exec code s (.error e)
  | .ok (breaks, m) => Behaves ops.exec code s
      (.ok (if breaks then .jump endLabel else .next, { s with memory := m }))

theorem labels_compileCaseStatements (endLabel : ℕ) (statements : List S) :
    labels (compileCaseStatements endLabel statements : Code E S) = [] := by
  induction statements with
  | nil => rfl
  | cons statement statements ih => exact ih

theorem executes_statements (ops : Operations E S V W X) (endLabel : ℕ) (statements : List S) (s : State E S V W) :
    Executes ops endLabel (compileCaseStatements endLabel statements) s
      (executeStatements ops statements s.memory) := by
  induction statements generalizing s with
  | nil => exact Behaves.nil s
  | cons statement statements ih =>
    have h := behaves ops (.execute statement endLabel) s
    simp only [Operations.exec] at h
    rw [executeStatements]
    change Executes ops endLabel ([Item.insn (.execute statement endLabel)] ++
      compileCaseStatements endLabel statements) s _
    generalize (s.memory.note (.executed statement)).perform (ops.execute statement) = o at h ⊢
    rcases o with e | ⟨breaks, m⟩
    · exact Behaves.append_error h _
    · cases breaks with
      | true =>
        refine Behaves.append_leave h ?_
        rw [labels_compileCaseStatements]
        exact List.not_mem_nil
      | false =>
        have ih := ih { s with memory := m }
        change Executes ops endLabel _ s (executeStatements ops statements m)
        change Executes ops endLabel _ _ (executeStatements ops statements m) at ih
        generalize executeStatements ops statements m = o at ih ⊢
        rcases o with e | ⟨breaks, m'⟩
        · exact Behaves.append (o := .error e) h ih
        · exact Behaves.append h (o := .ok _) ih

variable {endLabel : ℕ} {m : Memory E S W}

theorem mem_labels_compileClauses {l : ℕ} {i : ℕ}
    (h : l ∈ labels (compileClauses caseLabel endLabel clauses i)) :
    ∃ j, i ≤ j ∧ j < i + clauses.length ∧ l = caseLabel j := by
  induction clauses generalizing i with
  | nil => simp [compileClauses] at h
  | cons clause clauses ih =>
    simp only [compileClauses, labels_label, labels_insn, labels_append,
      labels_compileCaseStatements, List.nil_append, List.mem_cons] at h
    rcases h with rfl | h
    · exact ⟨i, by simp⟩
    · obtain ⟨j, hij, hj, rfl⟩ := ih h
      exact ⟨j, by omega, by rw [List.length_cons]; omega, rfl⟩

theorem notMem_labels_compileClauses (hne : ∀ j, caseLabel j ≠ endLabel)
    (clauses : List (Clause E S)) (i : ℕ) :
    endLabel ∉ labels (compileClauses caseLabel endLabel clauses i) := fun hmem => by
  obtain ⟨j, -, -, hj⟩ := mem_labels_compileClauses hmem
  exact hne j hj.symm

theorem executes_clauses (ops : Operations E S V W X) (hne : ∀ j, caseLabel j ≠ endLabel)
    (clauses : List (Clause E S)) (i : ℕ) (s : State E S V W) :
    Behaves ops.exec (compileClauses caseLabel endLabel clauses i ++ [Item.label endLabel]) s
      ((executeClauses ops clauses i s.memory).map fun m => (.next, { s with memory := m })) := by
  induction clauses generalizing i s with
  | nil => exact Behaves.label _ (Behaves.nil s)
  | cons clause clauses ih =>
    have h := executes_statements ops endLabel clause.statements
      { s with memory := s.memory.note (.clause i) }
    rw [executeClauses]
    simp only [compileClauses, List.cons_append, List.append_assoc]
    refine Behaves.label _ (Behaves.cons rfl ?_)
    generalize executeStatements ops clause.statements (s.memory.note (.clause i)) = o at h ⊢
    rcases o with e | ⟨breaks, m⟩
    · exact Behaves.append_error h _
    · cases breaks with
      | true =>
        exact Behaves.append_jump h _ [] rfl (notMem_labels_compileClauses hne _ _) (Behaves.nil _)
      | false => exact Behaves.append h (ih (i + 1) { s with memory := m })

theorem compileClauses_split (endLabel : ℕ) (hinj : Function.Injective caseLabel) (i : ℕ) {j : ℕ}
    (hj : j < clauses.length) :
    ∃ before after, compileClauses caseLabel endLabel clauses i =
        before ++ .label (caseLabel (i + j)) :: after ∧
      caseLabel (i + j) ∉ labels before ∧
      compileClauses caseLabel endLabel (clauses.drop j) (i + j) =
        .label (caseLabel (i + j)) :: after := by
  induction clauses generalizing i j with
  | nil => simp at hj
  | cons clause clauses ih =>
    cases j with
    | zero => exact ⟨[], _, rfl, by simp, rfl⟩
    | succ j =>
      obtain ⟨before, after, heq, hnot, hdrop⟩ := ih (i + 1) (Nat.lt_of_succ_lt_succ hj)
      have hij : i + 1 + j = i + (j + 1) := by omega
      rw [hij] at heq hnot hdrop
      refine ⟨.label (caseLabel i) :: .insn (.clause i) ::
        (compileCaseStatements endLabel clause.statements ++ before), after, ?_, ?_, hdrop⟩
      · simp [compileClauses, heq]
      · simp only [labels_label, labels_insn, labels_append, labels_compileCaseStatements,
          List.nil_append, List.mem_cons, not_or]
        exact ⟨fun h => by have := hinj h; omega, hnot⟩

/-! ### The whole statement -/

theorem select_lt {v : Value V} {i j : ℕ} {m' : Memory E S W}
    (h : select ops v clauses i m = .ok (some j, m')) : i ≤ j ∧ j < i + clauses.length := by
  induction clauses generalizing i m with
  | nil => cases h
  | cons clause clauses ih =>
    rw [List.length_cons]
    rcases clause with ⟨_ | test, statements⟩
    · have := ih h
      omega
    · rw [select] at h
      generalize test.evaluate ops m = o at h
      rcases o with e | ⟨x, m⟩
      · cases h
      · change (if ops.isStrictlyEqual v x then .ok (some i, m)
          else select ops v clauses (i + 1) m) = _ at h
        split at h
        · cases h
          omega
        · have := ih h
          omega

theorem defaultIndex_eq (h : clauses.countP (·.test.isNone) ≤ 1) (i index : ℕ) :
    defaultIndex clauses i index =
      ((clauses.findIdx? (·.test.isNone)).map (i + ·)).getD index := by
  induction clauses generalizing i index with
  | nil => rfl
  | cons clause clauses ih =>
    rcases clause with ⟨_ | test, statements⟩
    · have hnone : clauses.countP (·.test.isNone) = 0 := by simpa using h
      have hfind : clauses.findIdx? (·.test.isNone) = none := by
        rw [List.findIdx?_eq_none_iff]
        intro clause hclause
        simpa [Option.isSome_iff_ne_none] using List.countP_eq_zero.1 hnone clause hclause
      rw [defaultIndex, ih (by omega), hfind, List.findIdx?_cons]
      simp
    · have hcount : clauses.countP (·.test.isNone) ≤ 1 := by simpa using h
      rw [defaultIndex, ih hcount, List.findIdx?_cons]
      cases clauses.findIdx? (·.test.isNone) with
      | none => simp
      | some k =>
        simp
        omega

namespace SwitchStatement

/-- The clause that the code enters. -/
def entered (stmt : SwitchStatement E S) (selected : Option ℕ) : Option ℕ :=
  selected <|> (stmt.cases.findIdx? (·.test.isNone)).filter fun i => 0 < i

theorem jumpToDefault_eq (stmt : SwitchStatement E S) (caseLabel : ℕ → ℕ) (endLabel : ℕ) :
    (jumpToDefault caseLabel endLabel (defaultIndex stmt.cases 0 0) : Insn E S) =
      match stmt.entered none with
      | none => .jmp endLabel
      | some i => .jmp (caseLabel i) := by
  rw [defaultIndex_eq stmt.defaults, entered]
  cases stmt.cases.findIdx? (·.test.isNone) with
  | none => rfl
  | some i =>
    rw [Option.map_some, Nat.zero_add]
    cases i <;> rfl

end SwitchStatement

theorem SwitchStatement.entered_lt (stmt : SwitchStatement E S) :
    ∀ i, stmt.entered none = some i → i < stmt.cases.length := by
  intro i h
  have h : (stmt.cases.findIdx? (·.test.isNone)).filter (fun i => 0 < i) = some i := h
  rw [Option.filter_eq_some_iff] at h
  exact (List.findIdx?_eq_some_iff_findIdx_eq.1 h.1).1

theorem behaves_from (hinj : Function.Injective caseLabel) (hne : ∀ j, caseLabel j ≠ endLabel)
    {stmt : SwitchStatement E S} {j : ℕ} (hj : j < stmt.cases.length) {s' : State E S V W}
    (h : Behaves ops.exec code s (.ok (.jump (caseLabel j), s'))) (between : Code E S)
    (hbetween : labels between = []) :
    Behaves ops.exec
      (code ++ (between ++ (compileClauses caseLabel endLabel stmt.cases 0 ++ [Item.label endLabel]))) s
      ((stmt.executeFrom ops (some j) s'.memory).map fun m => (.next, { s' with memory := m })) := by
  obtain ⟨before, after, heq, hnot, hdrop⟩ :=
    compileClauses_split endLabel hinj 0 hj
  rw [Nat.zero_add] at heq hnot hdrop
  refine Behaves.append_jump h (between ++ before) (after ++ [Item.label endLabel]) (by simp [heq])
    (by simp [hbetween, hnot]) ?_
  have hclauses := executes_clauses ops hne (stmt.cases.drop j) j s'
  rw [hdrop] at hclauses
  exact Behaves.of_label hclauses

/-! ### The trace -/

theorem trace_executeStatements {statements : List S} {m' : Memory E S W} {breaks : Bool}
    (h : executeStatements ops statements m = .ok (breaks, m')) : m.trace <+: m'.trace := by
  induction statements generalizing m with
  | nil =>
    cases h
    exact List.prefix_rfl
  | cons statement statements ih =>
    rw [executeStatements, Memory.perform] at h
    cases hexec : ops.execute statement (m.note (.executed statement)).world with
    | error e =>
      rw [hexec] at h
      cases h
    | ok p =>
      rw [hexec] at h
      have hnote : m.trace <+: (m.note (.executed statement) : Memory E S W).trace :=
        List.prefix_append _ _
      rcases p with ⟨_ | _, w⟩
      · have hrest : ({ m.note (.executed statement) with world := w } : Memory E S W).trace <+:
            m'.trace := ih h
        exact hnote.trans hrest
      · cases h
        exact hnote

theorem trace_executeClauses {i : ℕ} {m' : Memory E S W}
    (h : executeClauses ops clauses i m = .ok m') : m.trace <+: m'.trace := by
  induction clauses generalizing i m with
  | nil =>
    cases h
    exact List.prefix_rfl
  | cons clause clauses ih =>
    rw [executeClauses] at h
    cases hexec : executeStatements ops clause.statements (m.note (.clause i)) with
    | error e =>
      rw [hexec] at h
      cases h
    | ok p =>
      rw [hexec] at h
      have hnote : m.trace <+: (m.note (.clause i) : Memory E S W).trace := List.prefix_append _ _
      rcases p with ⟨_ | _, m''⟩
      · exact (hnote.trans (trace_executeStatements hexec)).trans (ih h)
      · cases h
        exact hnote.trans (trace_executeStatements hexec)

theorem executeClauses_ne {clause : Clause E S} {i : ℕ} :
    executeClauses ops (clause :: clauses) i m ≠ .ok m := by
  intro h
  rw [executeClauses] at h
  cases hexec : executeStatements ops clause.statements (m.note (.clause i)) with
  | error e =>
    rw [hexec] at h
    cases h
  | ok p =>
    rw [hexec] at h
    have hnote : (m.note (.clause i) : Memory E S W).trace.length = m.trace.length + 1 := by simp
    rcases p with ⟨_ | _, m''⟩
    · have hstatements := (trace_executeStatements hexec).length_le
      have hclauses := (trace_executeClauses h).length_le
      omega
    · cases h
      have hstatements := (trace_executeStatements hexec).length_le
      omega

theorem SwitchStatement.start_eq_entered {stmt : SwitchStatement E S} {selected : Option ℕ}
    (h : ¬(stmt.cases.head?.any (·.test.isNone) = true ∧ selected = none)) :
    stmt.start selected = stmt.entered selected := by
  cases selected with
  | some i => rfl
  | none =>
    have hhead : stmt.cases.findIdx? (·.test.isNone) ≠ some 0 := fun hzero => h ⟨by
      cases hcases : stmt.cases with
      | nil => simp [hcases] at hzero
      | cons clause clauses =>
        rw [hcases, List.findIdx?_cons] at hzero
        cases hclause : clause.test.isNone with
        | true => simp [hclause]
        | false => simp [hclause] at hzero, rfl⟩
    rw [SwitchStatement.start, SwitchStatement.entered]
    cases hfind : stmt.cases.findIdx? (·.test.isNone) with
    | none => rfl
    | some i =>
      cases i with
      | zero => exact absurd hfind hhead
      | succ i => rfl

/-- The whole code is run to its end, or leaves with an exception. -/
def Finishes (ops : Operations E S V W X) (code : Code E S) (s : State E S V W) :
    Except (X × Memory E S W) (Memory E S W) → Prop
  | .error e => Behaves ops.exec code s (.error e)
  | .ok m => ∃ s', s'.memory = m ∧ Behaves ops.exec code s (.ok (.next, s'))

theorem Finishes.run {r : Except (X × Memory E S W) (Memory E S W)} (h : Finishes ops code s r) :
    (run ops.exec code s).map (·.memory) = r := by
  rcases r with e | m
  · have h := h []
    rw [List.append_nil] at h
    rw [h]
    rfl
  · obtain ⟨s', rfl, h⟩ := h
    have h := h []
    rw [List.append_nil, run_nil] at h
    rw [h]
    rfl

theorem Finishes.of_map (s' : State E S V W) {r : Except (X × Memory E S W) (Memory E S W)}
    (h : Behaves ops.exec code s (r.map fun m => (.next, { s' with memory := m }))) :
    Finishes ops code s r := by
  rcases r with e | m
  · exact h
  · exact ⟨_, rfl, h⟩

namespace Execution

variable (f : Execution E S V W X)

/-- What the code of the statement does. -/
theorem run_code :
    (run f.ops.exec f.code f.state).map (·.memory) =
      (f.stmt.discriminant.evaluate f.ops f.state.memory).bind fun (v, m) =>
        (select f.ops v f.stmt.cases 0 m).bind fun (selected, m) =>
          f.stmt.executeFrom f.ops (f.stmt.entered selected) m := by
  have hcompiles := f.compiles
  simp only [compileSwitchStatement, Option.bind_eq_bind, Option.bind_eq_some_iff, Option.pure_def,
    Option.some.injEq] at hcompiles
  obtain ⟨tagCode, htag, tests, htests, -, -, hcode⟩ := hcompiles
  have hinj : Function.Injective fun i => f.next + 1 + i := fun i j h => Nat.add_left_cancel h
  have hne (j : ℕ) : f.next + 1 + j ≠ f.next := by omega
  refine Finishes.run ?_
  rw [← hcode]
  have hcomputes := (f.compiler.evaluates f.ops _ _ _ _ htag).2 f.state
  generalize f.stmt.discriminant.evaluate f.ops f.state.memory = o at hcomputes ⊢
  rcases o with e | ⟨v, m⟩
  · exact Behaves.append_error hcomputes _
  obtain ⟨t, acc, regs, ⟨rfl, rfl⟩, -, hcomputes⟩ := hcomputes
  have hselects := selects f.compiler f.ops (s := ⟨acc, Function.update regs f.reg acc, m⟩) htests
    (Function.update_self _ _ _) fun j hj => by omega
  change Finishes f.ops _ f.state ((select f.ops acc f.stmt.cases 0 m).bind _)
  change Selects f.ops _ _ _ (select f.ops acc f.stmt.cases 0 m) at hselects
  have hlt {j : ℕ} {m' : Memory E S W}
      (h : select f.ops acc f.stmt.cases 0 m = .ok (some j, m')) : j < f.stmt.cases.length := by
    have := select_lt h
    omega
  generalize select f.ops acc f.stmt.cases 0 m = o at hselects hlt ⊢
  rcases o with e | ⟨_ | j, m'⟩
  · exact hcomputes.append (Behaves.cons rfl (Behaves.append_error hselects _))
  · obtain ⟨acc', regs', hselects⟩ := hselects
    rw [f.stmt.jumpToDefault_eq]
    change Finishes f.ops _ f.state (f.stmt.executeFrom f.ops (f.stmt.entered none) m')
    have hentered := f.stmt.entered_lt
    generalize f.stmt.entered none = start at hentered ⊢
    rcases start with _ | i
    · have hjump := behaves f.ops (.jmp f.next) ⟨acc', regs', m'⟩
      refine ⟨⟨acc', regs', m'⟩, rfl, hcomputes.append (Behaves.cons rfl (hselects.append ?_))⟩
      exact hjump.append_jump _ [] rfl (notMem_labels_compileClauses hne _ _) (Behaves.nil _)
    · have hjump := behaves f.ops (.jmp (f.next + 1 + i)) ⟨acc', regs', m'⟩
      refine Finishes.of_map ⟨acc', regs', m'⟩ ?_
      refine hcomputes.append (Behaves.cons rfl (hselects.append ?_))
      exact behaves_from hinj hne (hentered i rfl) hjump []  rfl
  · obtain ⟨acc', regs', hselects⟩ := hselects
    refine Finishes.of_map ⟨acc', regs', m'⟩ ?_
    refine hcomputes.append (Behaves.cons rfl ?_)
    exact behaves_from hinj hne (hlt rfl) hselects [.insn _] rfl

theorem not_followsClauses (h : f.FallsToFirstClause) : ¬f.FollowsClauses := by
  obtain ⟨hhead, v, m, m', hdiscriminant, hselect⟩ := h
  intro hfollows
  rw [FollowsClauses, run_code, SwitchStatement.evaluate, hdiscriminant] at hfollows
  change (select f.ops v f.stmt.cases 0 m).bind _ = (select f.ops v f.stmt.cases 0 m).bind _
    at hfollows
  rw [hselect] at hfollows
  change f.stmt.executeFrom f.ops (f.stmt.entered none) m' =
    f.stmt.executeFrom f.ops (f.stmt.start none) m' at hfollows
  cases hcases : f.stmt.cases with
  | nil => simp [hcases] at hhead
  | cons clause clauses =>
    have hclause : clause.test.isNone = true := by simpa [hcases] using hhead
    have hfind : f.stmt.cases.findIdx? (·.test.isNone) = some 0 := by
      rw [hcases, List.findIdx?_cons, if_pos hclause]
    rw [SwitchStatement.entered, SwitchStatement.start, hfind] at hfollows
    change Except.ok m' = f.stmt.executeFrom f.ops (some 0) m' at hfollows
    have hclauses : executeClauses f.ops (clause :: clauses) 0 m' = .ok m' := by
      simpa [SwitchStatement.executeFrom, hcases] using hfollows.symm
    exact executeClauses_ne hclauses

/-- The code enters the clause that the language enters, unless it is the default clause and the
first one. -/
theorem followsClauses_iff : f.FollowsClauses ↔ ¬f.FallsToFirstClause := by
  refine ⟨fun hfollows h => f.not_followsClauses h hfollows, fun h => ?_⟩
  rw [FollowsClauses, run_code, SwitchStatement.evaluate]
  rcases hdiscriminant : f.stmt.discriminant.evaluate f.ops f.state.memory with e | ⟨v, m⟩
  · rfl
  change (select f.ops v f.stmt.cases 0 m).bind _ = (select f.ops v f.stmt.cases 0 m).bind _
  rcases hselect : select f.ops v f.stmt.cases 0 m with e | ⟨selected, m'⟩
  · rfl
  change f.stmt.executeFrom f.ops (f.stmt.entered selected) m' =
    f.stmt.executeFrom f.ops (f.stmt.start selected) m'
  rw [SwitchStatement.start_eq_entered]
  rintro ⟨hhead, rfl⟩
  exact h ⟨hhead, v, m, m', hdiscriminant, hselect⟩

/-- A switch statement with nothing but a default clause. -/
def onlyDefault : SwitchStatement (Bool × Bool) Unit where
  discriminant := .other (false, true)
  cases := [⟨none, [()]⟩]
  defaults := by decide

/-- Its code, in which the jump behind the tests leads to the end. -/
def onlyDefaultCode : Code (Bool × Bool) Unit :=
  [.insn (.evaluate (false, true)), .insn (.sta 0), .insn (.jmp 0), .label 1, .insn (.clause 0),
    .insn (.execute () 0), .label 0]

def runOnlyDefault (c : Compiler) : Execution (Bool × Bool) Unit Unit Unit Bool where
  compiler := c
  ops := Compiler.truthValues
  stmt := onlyDefault
  reg := 0
  next := 0
  code := onlyDefaultCode
  compiles := by
    cases c <;>
      simp [compileSwitchStatement, onlyDefault, onlyDefaultCode, Compiler.compile,
        Compiler.jumpIfCases, Compiler.checkDefaultNum, Es2panda.compile,
        Ts2panda.compileExpression, jumpToDefault, defaultIndex, compileClauses,
        compileCaseStatements]
  state := ⟨.undefined, fun _ => .undefined, ⟨(), []⟩⟩

theorem onlyDefault_not_followsClauses :
    ¬(runOnlyDefault .es2panda).FollowsClauses ∧ ¬(runOnlyDefault .ts2panda).FollowsClauses :=
  ⟨not_followsClauses _ ⟨rfl, _, _, _, rfl, rfl⟩, not_followsClauses _ ⟨rfl, _, _, _, rfl, rfl⟩⟩

end Execution

end ArkTs2abc.Branches
