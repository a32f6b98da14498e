import ArkTs2abc.Branches.Compilers
import ArkTs2abc.Branches.Yields

/-!
# Conditions against the ordinary path

## Main definitions

* `BranchesAsEvaluated` — what the code of a condition does, against a run of the ordinary path.

## Main results

* `Compiler.computes` — the ordinary path evaluates the expression.
* `Compiler.branchesAsEvaluated` — the condition jumps by the value of the ordinary path.
* `Compiler.compile_agree` — the ordinary paths of the two compilers agree.
-/

namespace ArkTs2abc.Branches

open FlatCode.Forward

variable {E S V W X : Type} {ops : Operations E S V W X}

/-! ### Labels -/

/-- The labels of the code are of those that were set aside. -/
def LabelsIn (code : Code E S) (n count : ℕ) : Prop :=
  ∀ l : ℕ, l ∈ labels code → n ≤ l ∧ l < n + count

namespace LabelsIn

variable {code code' : Code E S} {n n' count count' : ℕ}

theorem mono (h : LabelsIn code n count) (hn : n' ≤ n) (hcount : n + count ≤ n' + count') :
    LabelsIn code n' count' := fun l hl => by
  have := h l hl
  omega

theorem notMem (h : LabelsIn code n count) {l : ℕ} (hl : l < n) : l ∉ labels code :=
  fun hmem => by
    have := h l hmem
    omega

end LabelsIn

/-- The ordinary path of an expression evaluates it. -/
def Evaluates (ops : Operations E S V W X) (e : Expression E)
    (path : ℕ → ℕ → Option (Code E S)) : Prop :=
  ∀ (reg n : ℕ) code, path reg n = some code →
    LabelsIn code n e.labels ∧ ∀ s, Computes ops code reg s (e.evaluate ops s.memory)

/-- The condition of an expression jumps by its value. -/
def Conditions (ops : Operations E S V W X) (e : Expression E)
    (path : ℕ → ℕ → ℕ → Option (Code E S)) : Prop :=
  ∀ (falseLabel reg n : ℕ) code, falseLabel < n → path falseLabel reg n = some code →
    LabelsIn code n e.labels ∧ ∀ s, Tests ops falseLabel code reg s (e.evaluate ops s.memory)

/-! ### The branches of both compilers -/

namespace Es2panda

attribute [simp] Operations.exec

theorem jumpsBy_false (target : ℕ) :
    JumpsBy ops [.insn .toboolean, .insn (.jfalse target)] target fun x => !ops.toBoolean x :=
  .two (fun s => .boolean (ops.toBoolean s.acc)) (fun _ => rfl) fun s => by
    cases h : ops.toBoolean s.acc <;> simp

theorem jumpsBy_true (target : ℕ) :
    JumpsBy ops [.insn .toboolean, .insn (.jtrue target)] target ops.toBoolean :=
  .two (fun s => .boolean (ops.toBoolean s.acc)) (fun _ => rfl) fun s => by
    cases h : ops.toBoolean s.acc <;> simp

theorem jumpsBy_negate (target : ℕ) :
    JumpsBy ops [.insn .negate, .insn (.jfalse target)] target ops.toBoolean :=
  .two (fun s => .boolean !(ops.toBoolean s.acc)) (fun _ => rfl) fun s => by
    cases h : ops.toBoolean s.acc <;> simp

theorem exec_jfalse {target : ℕ} (s : State E S V W) (b : Bool) (h : s.acc = .boolean b) :
    ops.exec (.jfalse target) s = .ok (if b then .next else .jump target, s) := by
  cases b <;> simp [h]

theorem computes_binary {op : BinaryOperator} {reg : ℕ} {insn : Insn E S}
    (h : binary op reg = some insn) (s : State E S V W) :
    Computes ops [.insn insn] reg s (ops.binary op (s.regs reg) s.acc s.memory) := by
  cases op with
  | relation op =>
    cases h
    exact Computes.answer rfl
  | arithmetic op =>
    cases h
    exact Computes.answer rfl
  | comma => cases h

theorem computes_unary {op : UnaryOperator} {reg : ℕ} (s : State E S V W)
    (h : s.regs reg = s.acc) :
    Computes ops [.insn (unary op reg)] reg s (ops.unary op s.acc s.memory) := by
  cases op with
  | numeric op => exact Computes.answer (by rw [← h]; rfl)
  | exclamationMark => exact Computes.answer rfl

theorem jumpsBy_branch {op : LogicalOperator} {skipRight : ℕ} {insn : Insn E S}
    (h : branch op skipRight = some insn) :
    JumpsBy ops [.insn .toboolean, .insn insn] skipRight (ops.decides op) := by
  cases op with
  | and =>
    cases h
    exact jumpsBy_false skipRight
  | or =>
    cases h
    exact jumpsBy_true skipRight
  | nullishCoalescing => cases h

variable {left right : Expression E}

theorem evaluates_binary {op : BinaryOperator} (hleft : Evaluates (S := S) ops left (compile left))
    (hright : Evaluates (S := S) ops right (compile right)) :
    Evaluates (S := S) ops (.binary op left right) (compile (.binary op left right)) := by
  intro reg n code h
  rw [compile] at h
  simp only [Option.bind_eq_bind, Option.bind_eq_some_iff, Option.pure_def, Option.some.injEq] at h
  obtain ⟨leftCode, hl, rightCode, hr, insn, hinsn, rfl⟩ := h
  obtain ⟨hl, hleft⟩ := hleft _ _ _ hl
  obtain ⟨hr, hright⟩ := hright _ _ _ hr
  refine ⟨?_, fun s => Computes.binary (hleft s) hright (computes_binary hinsn)⟩
  grind [LabelsIn, Expression.labels]

theorem evaluates_logical {op : LogicalOperator}
    (hleft : Evaluates (S := S) ops left (compile left))
    (hright : Evaluates (S := S) ops right (compile right)) :
    Evaluates (S := S) ops (.logical op left right) (compile (.logical op left right)) := by
  intro reg n code h
  rw [compile] at h
  simp only [Option.bind_eq_bind, Option.bind_eq_some_iff, Option.pure_def, Option.some.injEq] at h
  obtain ⟨leftCode, hl, rightCode, hr, insn, hinsn, rfl⟩ := h
  obtain ⟨hl, hleft⟩ := hleft _ _ _ hl
  obtain ⟨hr, hright⟩ := hright _ _ _ hr
  refine ⟨?_, fun s => ?_⟩
  · intro l hl
    simp only [labels_append, labels_insn, labels_label, labels_nil] at hl
    grind [LabelsIn, Expression.labels]
  · exact Computes.logical (hleft s) hright (jumpsBy_branch hinsn) (hr.notMem (by omega))
      (Nat.succ_ne_self n)

theorem evaluates_unary {op : UnaryOperator} {argument : Expression E}
    (h : Evaluates (S := S) ops argument (compile argument)) :
    Evaluates (S := S) ops (.unary op argument) (compile (.unary op argument)) := by
  intro reg n code hcode
  rw [compile] at hcode
  simp only [Option.bind_eq_bind, Option.bind_eq_some_iff, Option.pure_def,
    Option.some.injEq] at hcode
  obtain ⟨code, hcode, rfl⟩ := hcode
  obtain ⟨hl, h⟩ := h _ _ _ hcode
  refine ⟨?_, fun s => Computes.unary (h s) computes_unary⟩
  grind [LabelsIn, Expression.labels]

theorem evaluates_conditional {test consequent alternate : Expression E}
    (htest : Conditions (S := S) ops test (Condition.compile test))
    (hconsequent : Evaluates (S := S) ops consequent (compile consequent))
    (halternate : Evaluates (S := S) ops alternate (compile alternate)) :
    Evaluates (S := S) ops (.conditional test consequent alternate)
      (compile (.conditional test consequent alternate)) := by
  intro reg n code h
  rw [compile] at h
  simp only [Option.bind_eq_bind, Option.bind_eq_some_iff, Option.pure_def, Option.some.injEq] at h
  obtain ⟨testCode, ht, consequentCode, hc, alternateCode, ha, rfl⟩ := h
  obtain ⟨ht, htest⟩ := htest _ _ _ _ (by omega) ht
  obtain ⟨hc, hconsequent⟩ := hconsequent _ _ _ hc
  obtain ⟨ha, halternate⟩ := halternate _ _ _ ha
  refine ⟨?_, fun s => ?_⟩
  · grind [LabelsIn, Expression.labels]
  · exact Computes.conditional (htest s) hconsequent halternate (hc.notMem (by omega))
      (ha.notMem (by omega)) (Nat.succ_ne_self n)

theorem conditions_general {e : Expression E} (h : Evaluates (S := S) ops e (compile e))
    (hcompile : ∀ falseLabel reg n, Condition.compile (S := S) e falseLabel reg n =
      (compile e reg n).bind fun code =>
        some (code ++ [Item.insn .toboolean, Item.insn (.jfalse falseLabel)])) :
    Conditions (S := S) ops e (Condition.compile e) := by
  intro falseLabel reg n code _ hcode
  simp only [hcompile, Option.bind_eq_some_iff, Option.some.injEq] at hcode
  obtain ⟨code, hcode, rfl⟩ := hcode
  obtain ⟨hl, h⟩ := h _ _ _ hcode
  refine ⟨?_, fun s => Tests.general (h s) (jumpsBy_false falseLabel)⟩
  grind [LabelsIn]

section

variable (hleft : Evaluates (S := S) ops left (compile left)) (hright : Evaluates (S := S) ops right (compile right))
include hleft hright

theorem conditions_relation {op : Relation} :
    Conditions (S := S) ops (.binary (.relation op) left right)
      (Condition.compile (.binary (.relation op) left right)) := by
  intro falseLabel reg n code _ h
  rw [Condition.compile] at h
  simp only [Option.bind_eq_bind, Option.bind_eq_some_iff, Option.pure_def, Option.some.injEq] at h
  obtain ⟨leftCode, hl, rightCode, hr, rfl⟩ := h
  obtain ⟨hl, hleft⟩ := hleft _ _ _ hl
  obtain ⟨hr, hright⟩ := hright _ _ _ hr
  refine ⟨?_, fun s => Tests.relation (hleft s) hright exec_jfalse⟩
  grind [LabelsIn, Expression.labels, condition]

theorem conditions_and :
    Conditions (S := S) ops (.logical .and left right)
      (Condition.compile (.logical .and left right)) := by
  intro falseLabel reg n code hfalse h
  rw [Condition.compile] at h
  simp only [Option.bind_eq_bind, Option.bind_eq_some_iff, Option.pure_def, Option.some.injEq] at h
  obtain ⟨leftCode, hl, rightCode, hr, rfl⟩ := h
  obtain ⟨hl, hleft⟩ := hleft _ _ _ hl
  obtain ⟨hr, hright⟩ := hright _ _ _ hr
  refine ⟨?_, fun s => ?_⟩
  · grind [LabelsIn, Expression.labels]
  · exact Tests.and (hleft s) hright (jumpsBy_false falseLabel) (hr.notMem (by omega)) rfl

theorem conditions_or :
    Conditions (S := S) ops (.logical .or left right)
      (Condition.compile (.logical .or left right)) := by
  intro falseLabel reg n code hfalse h
  rw [Condition.compile] at h
  simp only [Option.bind_eq_bind, Option.bind_eq_some_iff, Option.pure_def, Option.some.injEq] at h
  obtain ⟨leftCode, hl, rightCode, hr, rfl⟩ := h
  obtain ⟨hl, hleft⟩ := hleft _ _ _ hl
  obtain ⟨hr, hright⟩ := hright _ _ _ hr
  refine ⟨?_, fun s => ?_⟩
  · intro l hl
    simp only [labels_append, labels_insn, labels_label, labels_nil] at hl
    grind [LabelsIn, Expression.labels]
  · exact Tests.or (hleft s) hright (jumpsBy_false falseLabel) (jumpsBy_true n)
      (hr.notMem (by omega)) rfl (Nat.ne_of_lt hfalse)

end

theorem conditions_exclamationMark {argument : Expression E}
    (h : Evaluates (S := S) ops argument (compile argument)) :
    Conditions (S := S) ops (.unary .exclamationMark argument)
      (Condition.compile (.unary .exclamationMark argument)) := by
  intro falseLabel reg n code _ hcode
  rw [Condition.compile] at hcode
  simp only [Option.bind_eq_bind, Option.bind_eq_some_iff, Option.pure_def,
    Option.some.injEq] at hcode
  obtain ⟨code, hcode, rfl⟩ := hcode
  obtain ⟨hl, h⟩ := h _ _ _ hcode
  refine ⟨?_, fun s => Yields.bind (Nat.le_refl _) (h s) fun x regs m _ => ?_⟩
  · grind [LabelsIn, Expression.labels]
  · have hnegate : JumpsBy ops _ falseLabel ops.toBoolean := jumpsBy_negate falseLabel
    obtain ⟨acc, h⟩ := hnegate ⟨x, regs, m⟩
    refine ⟨_, acc, regs, ?_, Agree.refl _ _, h⟩
    cases hx : ops.toBoolean x <;> simp [Operations.toBoolean]

attribute [simp] Condition.compile

/-- By the structure of the expression; a condition may fall back on the ordinary path of the same
expression, so that this one goes first. -/
theorem evaluates_conditions (ops : Operations E S V W X) (e : Expression E) :
    Evaluates ops e (compile e) ∧ Conditions ops e (Condition.compile e) := by
  induction e with
  | other e =>
    have h : Evaluates (S := S) ops (.other e) (compile (.other e)) := by
      intro reg n code h
      rw [compile] at h
      cases h
      exact ⟨fun l hl => by simp at hl, fun s => Computes.answer rfl⟩
    exact ⟨h, conditions_general h fun _ _ _ => by simp⟩
  | binary op left right ihl ihr =>
    have h : Evaluates (S := S) ops (.binary op left right) (compile (.binary op left right)) :=
      evaluates_binary ihl.1 ihr.1
    cases op with
    | relation op => exact ⟨h, conditions_relation ihl.1 ihr.1⟩
    | arithmetic op => exact ⟨h, conditions_general h fun _ _ _ => by simp⟩
    | comma => exact ⟨h, conditions_general h fun _ _ _ => by simp⟩
  | logical op left right ihl ihr =>
    have h : Evaluates (S := S) ops (.logical op left right) (compile (.logical op left right)) :=
      evaluates_logical ihl.1 ihr.1
    cases op with
    | and => exact ⟨h, conditions_and ihl.1 ihr.1⟩
    | or => exact ⟨h, conditions_or ihl.1 ihr.1⟩
    | nullishCoalescing =>
      exact ⟨h, conditions_general h fun _ _ _ => by simp⟩
  | unary op argument ih =>
    have h : Evaluates (S := S) ops (.unary op argument) (compile (.unary op argument)) :=
      evaluates_unary ih.1
    cases op with
    | numeric op => exact ⟨h, conditions_general h fun _ _ _ => by simp⟩
    | exclamationMark => exact ⟨h, conditions_exclamationMark ih.1⟩
  | conditional test consequent alternate iht ihc iha =>
    have h := evaluates_conditional iht.2 ihc.1 iha.1
    exact ⟨h, conditions_general h fun _ _ _ => by simp⟩
  | parenthesized inner ih =>
    refine ⟨fun reg n code h => ?_, fun falseLabel reg n code hfalse h => ?_⟩
    · rw [compile] at h
      obtain ⟨hl, h⟩ := ih.1 _ _ _ h
      exact ⟨hl.mono (Nat.le_refl _) (by simp only [Expression.labels]; omega), h⟩
    · rw [Condition.compile] at h
      obtain ⟨hl, h⟩ := ih.2 _ _ _ _ hfalse h
      exact ⟨hl.mono (Nat.le_refl _) (by simp only [Expression.labels]; omega), h⟩

end Es2panda

namespace Ts2panda

theorem jumpsBy_false (target : ℕ) :
    JumpsBy ops (jumpIfFalse target) target fun x => !ops.toBoolean x :=
  .two (fun s => .boolean (ops.toBoolean s.acc)) (fun _ => rfl) fun s => by
    cases h : ops.toBoolean s.acc <;> simp [Operations.isZeroOrFalse]

theorem jumpsBy_true (target : ℕ) : JumpsBy ops (jumpIfTrue target) target ops.toBoolean :=
  .two (fun s => .boolean !(ops.toBoolean s.acc)) (fun _ => rfl) fun s => by
    cases h : ops.toBoolean s.acc <;> simp [Operations.isZeroOrFalse]

theorem exec_jeqz {target : ℕ} (s : State E S V W) (b : Bool) (h : s.acc = .boolean b) :
    ops.exec (.jeqz target) s = .ok (if b then .next else .jump target, s) := by
  cases b <;> simp [Operations.isZeroOrFalse, h]

theorem labelsIn_binary (op : BinaryOperator) (reg n : ℕ) :
    LabelsIn (binary op reg n : Code E S) n 2 := by
  intro l hl
  cases op with
  | relation op =>
    simp only [binary, binaryRelation, labels_insn, labels_label, labels_nil] at hl
    grind
  | arithmetic op => simp [binary] at hl
  | comma => simp [binary] at hl

theorem computes_binary {op : BinaryOperator} {reg n : ℕ} (s : State E S V W) :
    Computes ops (binary op reg n) reg s (ops.binary op (s.regs reg) s.acc s.memory) := by
  cases op with
  | relation op =>
    have h := behaves ops (.relation op (.temp reg)) s
    simp only [Operations.exec, Operations.binary, State.answer, State.read] at h ⊢
    rcases hr : ops.relate op (s.regs reg) s.acc s.memory with e | ⟨b, m⟩
    · rw [hr] at h
      exact Behaves.append_error h _
    · rw [hr] at h
      refine Yields.append h (Agree.refl _ _) ?_
      have hjeqz := behaves ops (.jeqz n) (⟨.boolean b, s.regs, m⟩ : State E S V W)
      rw [exec_jeqz _ b rfl] at hjeqz
      cases b with
      | true =>
        refine Yields.append hjeqz (Agree.refl _ _) (Yields.insn rfl (Agree.refl _ _) ?_)
        exact Yields.jmp [.label n, .insn (.lda (.cached .false))] [] rfl (by simp)
          (Computes.nil rfl)
      | false =>
        refine Yields.append_jump hjeqz (Agree.refl _ _)
          [.insn (.lda (.cached .true)), .insn (.jmp (n + 1))]
          [.insn (.lda (.cached .false)), .label (n + 1)] rfl (by simp) ?_
        exact Yields.insn rfl (Agree.refl _ _) (Yields.label _ (Computes.nil rfl))
  | arithmetic op => exact Computes.answer rfl
  | comma => exact Computes.nil rfl

theorem labelsIn_unary (op : UnaryOperator) (reg n : ℕ) :
    LabelsIn (unary op reg n : Code E S) n 2 := by
  intro l hl
  cases op with
  | numeric op => simp [unary] at hl
  | exclamationMark =>
    simp only [unary, jumpIfFalse, labels_append, labels_insn, labels_label, labels_nil] at hl
    grind

theorem computes_unary {op : UnaryOperator} {reg n : ℕ} (s : State E S V W)
    (h : s.regs reg = s.acc) :
    Computes ops (unary op reg n) reg s (ops.unary op s.acc s.memory) := by
  cases op with
  | numeric op => exact Computes.answer (by rw [← h]; rfl)
  | exclamationMark =>
    refine (jumpsBy_false n).yields [.insn (.lda (.cached .false)), .insn (.jmp (n + 1))]
      [.insn (.lda (.cached .true)), .label (n + 1)] rfl (by simp) (fun hx acc => ?_)
      (fun hx acc => ?_)
    · have hx : ops.toBoolean s.acc = true := by simpa using hx
      simp only [Operations.unary, hx]
      refine Yields.insn rfl (Agree.refl _ _) ?_
      exact Yields.jmp [.label n, .insn (.lda (.cached .true))] [] rfl (by simp)
        (Computes.nil rfl)
    · have hx : ops.toBoolean s.acc = false := by simpa using hx
      simp only [Operations.unary, hx]
      exact Yields.insn rfl (Agree.refl _ _) (Yields.label _ (Computes.nil rfl))

/-- The code of an expression as a path that always gives code. -/
def path (e : Expression E) : ℕ → ℕ → Option (Code E S) :=
  fun reg n => some (compileExpression e reg n)

def conditionPath (e : Expression E) : ℕ → ℕ → ℕ → Option (Code E S) :=
  fun falseLabel reg n => some (compileCondition e falseLabel reg n)

variable {left right : Expression E}

theorem evaluates_binary {op : BinaryOperator} (hleft : Evaluates (S := S) ops left (path left))
    (hright : Evaluates (S := S) ops right (path right)) :
    Evaluates (S := S) ops (.binary op left right) (path (.binary op left right)) := by
  intro reg n code h
  cases h
  rw [compileExpression]
  obtain ⟨hl, hleft⟩ := hleft (reg + 1) (n + 2) _ rfl
  obtain ⟨hr, hright⟩ := hright (reg + 1) (n + 2 + left.labels) _ rfl
  have hb := labelsIn_binary (E := E) (S := S) op reg n
  refine ⟨?_, fun s => Computes.binary (hleft s) hright computes_binary⟩
  grind [LabelsIn, Expression.labels]

theorem jumpsBy_null (n : ℕ) :
    JumpsBy ops (condition .notStrictEqual (.cached .null) n) n (ops.isStrictlyEqual .null) :=
  .two (fun s => .boolean !(ops.isStrictlyEqual .null s.acc)) (fun _ => rfl) fun s => by
    cases h : ops.isStrictlyEqual .null s.acc <;>
      simp [Operations.isZeroOrFalse]

theorem jumpsBy_undefined (n : ℕ) :
    JumpsBy ops (condition .notStrictEqual (.cached .undefined) n) n
      (ops.isStrictlyEqual .undefined) :=
  .two (fun s => .boolean !(ops.isStrictlyEqual .undefined s.acc)) (fun _ => rfl) fun s => by
    cases h : ops.isStrictlyEqual .undefined s.acc <;>
      simp [Operations.isZeroOrFalse]

/-- The left operand is compared with null, and then with undefined. -/
theorem computes_nullish {left right : Code E S} {reg n : ℕ} {s : State E S V W}
    {oLeft : Outcome E S W X (Value V)} {oRight : Memory E S W → Outcome E S W X (Value V)}
    (hleft : Computes ops left (reg + 1) s oLeft)
    (hright : ∀ s, Computes ops right (reg + 1) s (oRight s.memory)) (hend : n + 1 ∉ labels right) :
    Computes ops (left ++ (Item.insn (.sta reg) ::
      (condition .notStrictEqual (.cached .null) n ++ (Item.insn (.lda (.temp reg)) ::
        (condition .notStrictEqual (.cached .undefined) n ++ (Item.insn (.lda (.temp reg)) ::
          .insn (.jmp (n + 1)) :: Item.label n :: (right ++ [Item.label (n + 1)]))))))) reg s
      (oLeft.bind fun (x, m) =>
        if ops.decides .nullishCoalescing x then .ok (x, m) else oRight m) := by
  have hrest (s : State E S V W) :
      Computes ops (right ++ [Item.label (n + 1)]) reg s (oRight s.memory) := by
    rw [← bind_ok (oRight s.memory)]
    exact Yields.bind (Nat.le_succ _) (hright s) fun y regs m _ =>
      Yields.label _ (Computes.nil rfl)
  refine Yields.bind (Nat.le_succ _) hleft fun x regs m _ => ?_
  refine Yields.insn rfl (Agree.update _ _ _) ?_
  have hreg : Function.update regs reg x reg = x := Function.update_self _ _ _
  refine (jumpsBy_null n).yields (.insn (.lda (.temp reg)) ::
      (condition .notStrictEqual (.cached .undefined) n ++
        [.insn (.lda (.temp reg)), Item.insn (.jmp (n + 1))])) (right ++ [Item.label (n + 1)])
    (by simp) (by simp [condition]) (fun hnull acc => ?_) (fun hnull acc => ?_)
  · have hnull : ops.isStrictlyEqual .null x = false := hnull
    refine Yields.insn rfl (Agree.refl _ _) ?_
    refine (jumpsBy_undefined n).yields [.insn (.lda (.temp reg)), .insn (.jmp (n + 1))]
      (right ++ [Item.label (n + 1)]) (by simp) (by simp) (fun hundef acc => ?_) (fun hundef acc => ?_)
    · have hundef : ops.isStrictlyEqual .undefined x = false := by rwa [← hreg]
      simp only [Operations.decides, hnull, hundef, Bool.or_false, Bool.not_false, if_true]
      refine Yields.insn rfl (Agree.refl _ _) ?_
      exact Yields.jmp (.label n :: right) [] (by simp) (by simpa using hend)
        (Computes.nil hreg)
    · have hundef : ops.isStrictlyEqual .undefined x = true := by rwa [← hreg]
      simp only [Operations.decides, hundef, Bool.or_true, Bool.not_true, Bool.false_eq_true,
        if_false]
      exact hrest _
  · have hnull : ops.isStrictlyEqual .null x = true := hnull
    simp only [Operations.decides, hnull, Bool.true_or, Bool.not_true, Bool.false_eq_true, if_false]
    exact hrest _

theorem evaluates_logical {op : LogicalOperator} (hleft : Evaluates (S := S) ops left (path left))
    (hright : Evaluates (S := S) ops right (path right)) :
    Evaluates (S := S) ops (.logical op left right) (path (.logical op left right)) := by
  intro reg n code h
  cases h
  obtain ⟨hl, hleft⟩ := hleft (reg + 1) (n + 2) _ rfl
  obtain ⟨hr, hright⟩ := hright (reg + 1) (n + 2 + left.labels) _ rfl
  cases op with
  | and =>
    rw [compileExpression]
    refine ⟨?_, fun s => Computes.logical (hleft s) hright (jumpsBy_false n)
      (hr.notMem (by omega)) (Nat.succ_ne_self n)⟩
    intro l hl
    simp only [jumpIfFalse, labels_append, labels_insn, labels_label, labels_nil] at hl
    grind [LabelsIn, Expression.labels]
  | or =>
    rw [compileExpression]
    refine ⟨?_, fun s => Computes.logical (hleft s) hright (jumpsBy_true n)
      (hr.notMem (by omega)) (Nat.succ_ne_self n)⟩
    intro l hl
    simp only [jumpIfTrue, labels_append, labels_insn, labels_label, labels_nil] at hl
    grind [LabelsIn, Expression.labels]
  | nullishCoalescing =>
    rw [compileExpression]
    refine ⟨?_, fun s => computes_nullish (hleft s) hright (hr.notMem (by omega))⟩
    intro l hl
    simp only [condition, labels_append, labels_insn, labels_label, labels_nil] at hl
    grind [LabelsIn, Expression.labels]

theorem evaluates_unary {op : UnaryOperator} {argument : Expression E}
    (h : Evaluates (S := S) ops argument (path argument)) :
    Evaluates (S := S) ops (.unary op argument) (path (.unary op argument)) := by
  intro reg n code hcode
  cases hcode
  rw [compileExpression]
  obtain ⟨hl, h⟩ := h (reg + 1) (n + 2) _ rfl
  have hu := labelsIn_unary (E := E) (S := S) op reg n
  refine ⟨?_, fun s => Computes.unary (Yields.mono (h s) (Nat.le_succ _)) computes_unary⟩
  grind [LabelsIn, Expression.labels]

theorem evaluates_conditional {test consequent alternate : Expression E}
    (htest : Conditions (S := S) ops test (conditionPath test))
    (hconsequent : Evaluates (S := S) ops consequent (path consequent))
    (halternate : Evaluates (S := S) ops alternate (path alternate)) :
    Evaluates (S := S) ops (.conditional test consequent alternate)
      (path (.conditional test consequent alternate)) := by
  intro reg n code h
  cases h
  rw [compileExpression]
  obtain ⟨ht, htest⟩ := htest n reg (n + 2) _ (by omega) rfl
  obtain ⟨hc, hconsequent⟩ := hconsequent reg (n + 2 + test.labels) _ rfl
  obtain ⟨ha, halternate⟩ :=
    halternate reg (n + 2 + test.labels + consequent.labels) _ rfl
  refine ⟨?_, fun s => Computes.conditional (htest s) hconsequent halternate
    (hc.notMem (by omega)) (ha.notMem (by omega)) (Nat.succ_ne_self n)⟩
  grind [LabelsIn, Expression.labels]

theorem conditions_general {e : Expression E} (h : Evaluates (S := S) ops e (path e))
    (hcompile : ∀ ifFalseLabel reg n, compileCondition (S := S) e ifFalseLabel reg n =
      compileExpression e reg n ++ jumpIfFalse ifFalseLabel) :
    Conditions (S := S) ops e (conditionPath e) := by
  intro falseLabel reg n code _ hcode
  cases hcode
  rw [hcompile]
  obtain ⟨hl, h⟩ := h reg n _ rfl
  refine ⟨?_, fun s => Tests.general (h s) (jumpsBy_false falseLabel)⟩
  grind [LabelsIn, jumpIfFalse]

section

variable (hleft : Evaluates (S := S) ops left (path left)) (hright : Evaluates (S := S) ops right (path right))
include hleft hright

theorem conditions_relation {op : Relation} :
    Conditions (S := S) ops (.binary (.relation op) left right)
      (conditionPath (.binary (.relation op) left right)) := by
  intro falseLabel reg n code _ h
  cases h
  rw [compileCondition]
  obtain ⟨hl, hleft⟩ := hleft (reg + 1) (n + 2) _ rfl
  obtain ⟨hr, hright⟩ := hright (reg + 1) (n + 2 + left.labels) _ rfl
  refine ⟨?_, fun s => Tests.relation (hleft s) hright exec_jeqz⟩
  grind [LabelsIn, Expression.labels, condition]

theorem conditions_and :
    Conditions (S := S) ops (.logical .and left right)
      (conditionPath (.logical .and left right)) := by
  intro falseLabel reg n code hfalse h
  cases h
  rw [compileCondition]
  obtain ⟨hl, hleft⟩ := hleft reg (n + 2) _ rfl
  obtain ⟨hr, hright⟩ := hright reg (n + 2 + left.labels) _ rfl
  refine ⟨?_, fun s => Tests.and (hleft s) hright (jumpsBy_false falseLabel)
    (hr.notMem (by omega)) rfl⟩
  grind [LabelsIn, Expression.labels, jumpIfFalse]

theorem conditions_or :
    Conditions (S := S) ops (.logical .or left right)
      (conditionPath (.logical .or left right)) := by
  intro falseLabel reg n code hfalse h
  cases h
  rw [compileCondition]
  obtain ⟨hl, hleft⟩ := hleft reg (n + 2) _ rfl
  obtain ⟨hr, hright⟩ := hright reg (n + 2 + left.labels) _ rfl
  refine ⟨?_, fun s => Tests.or (hleft s) hright (jumpsBy_false falseLabel) (jumpsBy_true n)
    (hr.notMem (by omega)) rfl (Nat.ne_of_lt hfalse)⟩
  intro l hl
  simp only [jumpIfFalse, jumpIfTrue, labels_append, labels_insn, labels_label, labels_nil] at hl
  grind [LabelsIn, Expression.labels]

end

attribute [simp] compileCondition

theorem evaluates_conditions (ops : Operations E S V W X) (e : Expression E) :
    Evaluates (S := S) ops e (path e) ∧ Conditions ops e (conditionPath e) := by
  induction e with
  | other e =>
    have h : Evaluates (S := S) ops (.other e) (path (.other e)) := by
      intro reg n code h
      cases h
      rw [compileExpression]
      exact ⟨fun l hl => by simp at hl, fun s => Computes.answer rfl⟩
    exact ⟨h, conditions_general h fun _ _ _ => by simp⟩
  | binary op left right ihl ihr =>
    have h : Evaluates (S := S) ops (.binary op left right) (path (.binary op left right)) :=
      evaluates_binary ihl.1 ihr.1
    cases op with
    | relation op => exact ⟨h, conditions_relation ihl.1 ihr.1⟩
    | arithmetic op => exact ⟨h, conditions_general h fun _ _ _ => by simp⟩
    | comma => exact ⟨h, conditions_general h fun _ _ _ => by simp⟩
  | logical op left right ihl ihr =>
    have h : Evaluates (S := S) ops (.logical op left right) (path (.logical op left right)) :=
      evaluates_logical ihl.1 ihr.1
    cases op with
    | and => exact ⟨h, conditions_and ihl.1 ihr.1⟩
    | or => exact ⟨h, conditions_or ihl.1 ihr.1⟩
    | nullishCoalescing =>
      exact ⟨h, conditions_general h fun _ _ _ => by simp⟩
  | unary op argument ih =>
    exact ⟨evaluates_unary ih.1,
      conditions_general (evaluates_unary ih.1) fun _ _ _ => by simp⟩
  | conditional test consequent alternate iht ihc iha =>
    have h := evaluates_conditional iht.2 ihc.1 iha.1
    exact ⟨h, conditions_general h fun _ _ _ => by simp⟩
  | parenthesized inner ih =>
    have h : Evaluates (S := S) ops (.parenthesized inner) (path (.parenthesized inner)) := by
      intro reg n code h
      cases h
      rw [compileExpression]
      obtain ⟨hl, h⟩ := ih.1 reg n _ rfl
      exact ⟨hl.mono (Nat.le_refl _) (by simp only [Expression.labels]; omega), h⟩
    exact ⟨h, conditions_general h fun _ _ _ => by simp⟩

end Ts2panda

/-! ### Both compilers -/

/-- What the code of a condition does, and the rest behind it, if the ordinary path runs like this:
an exception is the same, or the memory is, and it is the value of the ordinary path that decides
where it goes on. -/
def BranchesAsEvaluated (ops : Operations E S V W X) (code cond : Code E S) (falseLabel reg : ℕ)
    (s : State E S V W) (rest : Code E S) : Prop :=
  match run ops.exec code s with
  | .error e => run ops.exec (cond ++ rest) s = .error e
  | .ok s₁ => ∃ s₂, s₂.memory = s₁.memory ∧ Agree reg s₁.regs s₂.regs ∧
      run ops.exec (cond ++ rest) s =
        run ops.exec (if ops.toBoolean s₁.acc then rest else jumpTo falseLabel rest) s₂

theorem branchesAsEvaluated_of {code cond : Code E S} {falseLabel reg : ℕ} {s : State E S V W}
    {o : Outcome E S W X (Value V)} (hcode : Computes ops code reg s o)
    (hcond : Tests ops falseLabel cond reg s o) (rest : Code E S) :
    BranchesAsEvaluated ops code cond falseLabel reg s rest := by
  unfold BranchesAsEvaluated
  rcases o with e | ⟨v, m⟩
  · have hcode := hcode []
    rw [List.append_nil] at hcode
    rw [hcode]
    exact hcond rest
  · obtain ⟨t, acc, regs, ⟨rfl, rfl⟩, hregs, hcode⟩ := hcode
    have hcode := hcode []
    rw [List.append_nil, run_nil] at hcode
    rw [hcode]
    obtain ⟨t, acc', regs', rfl, hregs', hcond⟩ := hcond
    refine ⟨⟨acc', regs', m⟩, rfl, fun r hr => (hregs' r hr).trans (hregs r hr).symm, ?_⟩
    cases hv : ops.toBoolean acc with
    | true =>
      simp only [hv, if_true] at hcond ⊢
      exact hcond rest
    | false =>
      simp only [hv, Bool.false_eq_true, if_false] at hcond ⊢
      exact hcond rest

namespace Es2panda

/-- Expressions without `??` and without commas as operators. -/
def implemented : Expression E → Bool
  | .other _ => true
  | .binary op left right => (op matches .relation _ | .arithmetic _) &&
      (implemented left && implemented right)
  | .logical op left right => (op matches .and | .or) && (implemented left && implemented right)
  | .unary _ argument => implemented argument
  | .conditional test consequent alternate =>
    implemented test && (implemented consequent && implemented alternate)
  | .parenthesized inner => implemented inner

theorem isSome_bind {α β : Type} (o : Option α) {f : α → Option β} {b : Bool}
    (h : ∀ a, (f a).isSome = b) : (o.bind f).isSome = (o.isSome && b) := by
  cases o <;> simp [h]

theorem isSome_bind_some {α β : Type} {o : Option α} {f : α → β} {b : Bool} (h : o.isSome = b) :
    (o.bind fun a => some (f a)).isSome = b := by
  rw [← h]
  cases o <;> rfl

theorem isSome_operands {left right : Expression E} {rl nl rr nr : ℕ} {b : Bool}
    {f : Code E S → Code E S → Option (Code E S)}
    (hl : (compile (S := S) left rl nl).isSome = implemented left)
    (hr : (compile (S := S) right rr nr).isSome = implemented right)
    (h : ∀ l r, (f l r).isSome = b) :
    ((compile left rl nl).bind fun l => (compile right rr nr).bind fun r => f l r).isSome =
      (b && (implemented left && implemented right)) := by
  rw [isSome_bind _ fun l => isSome_bind _ (h l), hl, hr]
  cases b <;> simp

theorem isSome_compile (e : Expression E) :
    (∀ reg n, (compile (S := S) e reg n).isSome = implemented e) ∧
      ∀ falseLabel reg n, (Condition.compile (S := S) e falseLabel reg n).isSome =
        implemented e := by
  induction e with
  | other e =>
    have h reg n : (compile (S := S) (.other e) reg n).isSome = implemented (.other e) := by
      rw [compile]
      rfl
    exact ⟨h, fun _ _ _ => by simpa using isSome_bind_some (h _ _)⟩
  | binary op left right ihl ihr =>
    have h reg n : (compile (S := S) (.binary op left right) reg n).isSome =
        implemented (.binary op left right) := by
      rw [compile]
      refine isSome_operands (ihl.1 _ _) (ihr.1 _ _) fun l r => ?_
      cases op <;> rfl
    refine ⟨h, fun falseLabel reg n => ?_⟩
    cases op with
    | relation op =>
      rw [Condition.compile]
      exact isSome_operands (ihl.1 _ _) (ihr.1 _ _) fun _ _ => rfl
    | arithmetic op => simpa using isSome_bind_some (h _ _)
    | comma => simpa using isSome_bind_some (h _ _)
  | logical op left right ihl ihr =>
    have h reg n : (compile (S := S) (.logical op left right) reg n).isSome =
        implemented (.logical op left right) := by
      rw [compile]
      refine isSome_operands (ihl.1 _ _) (ihr.1 _ _) fun l r => ?_
      cases op <;> rfl
    refine ⟨h, fun falseLabel reg n => ?_⟩
    cases op with
    | and =>
      rw [Condition.compile]
      exact isSome_operands (ihl.1 _ _) (ihr.1 _ _) fun _ _ => rfl
    | or =>
      rw [Condition.compile]
      exact isSome_operands (ihl.1 _ _) (ihr.1 _ _) fun _ _ => rfl
    | nullishCoalescing => simpa using isSome_bind_some (h _ _)
  | unary op argument ih =>
    have h reg n : (compile (S := S) (.unary op argument) reg n).isSome =
        implemented (.unary op argument) := by
      rw [compile]
      exact isSome_bind_some (ih.1 _ _)
    refine ⟨h, fun falseLabel reg n => ?_⟩
    cases op with
    | numeric op => simpa using isSome_bind_some (h _ _)
    | exclamationMark =>
      rw [Condition.compile]
      exact isSome_bind_some (ih.1 _ _)
  | conditional test consequent alternate iht ihc iha =>
    have h reg n : (compile (S := S) (.conditional test consequent alternate) reg n).isSome =
        implemented (.conditional test consequent alternate) := by
      rw [compile]
      have hbranches (testCode : Code E S) := isSome_operands (b := true)
        (f := fun l r => some (testCode ++ (l ++
          (.insn (.jmp (n + 1)) :: Item.label n :: (r ++ [Item.label (n + 1)])))))
        (ihc.1 reg (n + 2 + test.labels)) (iha.1 reg (n + 2 + test.labels + consequent.labels))
        fun _ _ => rfl
      rw [Bool.true_and] at hbranches
      refine (isSome_bind _ hbranches).trans ?_
      rw [iht.2]
      rfl
    exact ⟨h, fun _ _ _ => by simpa using isSome_bind_some (h _ _)⟩
  | parenthesized inner ih =>
    refine ⟨fun _ _ => ?_, fun _ _ _ => ?_⟩
    · rw [compile]
      exact ih.1 _ _
    · rw [Condition.compile]
      exact ih.2 _ _ _

end Es2panda

theorem Computes.map_run {code : Code E S} {reg : ℕ} {s : State E S V W}
    {o : Outcome E S W X (Value V)} (h : Computes ops code reg s o) :
    (run ops.exec code s).map (fun s => (s.acc, s.memory)) = o := by
  rcases o with e | ⟨v, m⟩
  · have h := h []
    rw [List.append_nil] at h
    rw [h]
    rfl
  · obtain ⟨_, acc, regs, ⟨rfl, rfl⟩, -, h⟩ := h
    have h := h []
    rw [List.append_nil, run_nil] at h
    rw [h]
    rfl

namespace Compiler

theorem evaluates (c : Compiler) (ops : Operations E S V W X) (e : Expression E) :
    Evaluates ops e (c.compile e) := by
  cases c with
  | es2panda => exact (Es2panda.evaluates_conditions ops e).1
  | ts2panda => exact (Ts2panda.evaluates_conditions ops e).1

theorem conditions (c : Compiler) (ops : Operations E S V W X) (e : Expression E) :
    Conditions ops e (c.compileCondition e) := by
  cases c with
  | es2panda => exact (Es2panda.evaluates_conditions ops e).2
  | ts2panda => exact (Ts2panda.evaluates_conditions ops e).2

theorem isSome_compileCondition (c : Compiler) (e : Expression E) (falseLabel reg n : ℕ) :
    (c.compileCondition (S := S) e falseLabel reg n).isSome =
      (c.compile (S := S) e reg n).isSome := by
  cases c with
  | es2panda =>
    have h := Es2panda.isSome_compile (S := S) e
    exact (h.2 falseLabel reg n).trans (h.1 reg n).symm
  | ts2panda => rfl

/-- The jump to the false label is taken if and only if the value of the ordinary path is false, with
the same evaluations. -/
theorem branchesAsEvaluated (c : Compiler) (ops : Operations E S V W X) (e : Expression E)
    (falseLabel reg n : ℕ) {cond : Code E S} (hfalse : falseLabel < n)
    (hcond : c.compileCondition e falseLabel reg n = some cond) :
    ∃ code, c.compile e reg n = some code ∧
      ∀ s rest, BranchesAsEvaluated ops code cond falseLabel reg s rest := by
  have hsome := c.isSome_compileCondition (S := S) e falseLabel reg n
  rw [hcond, Option.isSome_some] at hsome
  obtain ⟨code, hcode⟩ := Option.isSome_iff_exists.1 hsome.symm
  refine ⟨code, hcode, fun s rest => ?_⟩
  exact branchesAsEvaluated_of ((c.evaluates ops e reg n code hcode).2 s)
    ((c.conditions ops e falseLabel reg n cond hfalse hcond).2 s) rest

/-- Expressions that evaluate to a truth value, which may be thrown. -/
def truthValues : Operations (Bool × Bool) Unit Unit Unit Bool where
  evaluate e w := if e.1 then .error (e.2, w) else .ok (.boolean e.2, w)
  execute _ w := .ok (false, w)
  strictEqual _ _ := true
  equal x y w := .ok (x == y, w)
  compare _ x y w := .ok (x == y, w)
  arithmetic _ x _ w := .ok (x, w)
  numeric _ x w := .ok (x, w)
  truthy _ := false
  isZero _ := false

theorem branchesAsEvaluated_or :
    ∃ code, Compiler.ts2panda.compile
        (.logical .or (.other (false, true)) (.other (true, true))) 0 1 = some code ∧
      ∀ s rest, BranchesAsEvaluated truthValues code
        (Ts2panda.compileCondition (.logical .or (.other (false, true)) (.other (true, true))) 0 0 1)
        0 0 s rest :=
  branchesAsEvaluated .ts2panda truthValues _ 0 0 1 (by decide) rfl

/-- The code of either compiler, from whatever registers and labels on, ends with the same value or the
same exception and has the same effects, whatever else the registers hold. -/
theorem compile_agree (c c' : Compiler) (ops : Operations E S V W X) (e : Expression E)
    {reg reg' n n' : ℕ} {code code' : Code E S} (h : c.compile e reg n = some code)
    (h' : c'.compile e reg' n' = some code') (s s' : State E S V W) (hs : s.memory = s'.memory) :
    (run ops.exec code s).map (fun s => (s.acc, s.memory)) =
      (run ops.exec code' s').map fun s => (s.acc, s.memory) := by
  have heval := ((c.evaluates ops e reg n code h).2 s).map_run
  have heval' := ((c'.evaluates ops e reg' n' code' h').2 s').map_run
  rw [heval, heval', hs]

theorem compile_agree_or : ∃ code,
    Compiler.es2panda.compile (.logical .or (.other (false, true)) (.other (true, true))) 0 0 =
        some code ∧
      ∀ s, (run truthValues.exec code s).map (fun s => (s.acc, s.memory)) =
        (run truthValues.exec (Ts2panda.compileExpression
          (.logical .or (.other (false, true)) (.other (true, true))) 3 1) s).map
            fun s => (s.acc, s.memory) := by
  obtain ⟨code, hcode⟩ := Option.isSome_iff_exists.1
    ((Es2panda.isSome_compile (S := Unit) (.logical .or (.other (false, true)) (.other (true, true)))).1 0 0)
  exact ⟨code, hcode, fun s => compile_agree .es2panda .ts2panda truthValues _ hcode rfl s s rfl⟩

end Compiler

end ArkTs2abc.Branches
