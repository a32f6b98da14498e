import ArkTs2abc.Branches.Code

/-!
# What a piece of code yields

The code of an expression leaves its value in the accumulator; the code of a condition goes on or
jumps. Both keep the registers that were taken before, and both are put together from the same
pieces in either compiler.

## Main definitions

* `Yields`, `Computes`, `Tests` — what code does, against the outcome of an evaluation.
* `JumpsBy` — code that jumps by the value in the accumulator.

## Main results

* `Computes.logical`, `Computes.conditional`, `Tests.and`, `Tests.or`, `Tests.relation` — the forms
  of code for logical operators, conditional expressions and conditions.
-/

namespace ArkTs2abc.Branches

open FlatCode.Forward

variable {E S V W X : Type}

/-- The registers below a number are the same. -/
def Agree (reg : ℕ) (regs regs' : ℕ → Value V) : Prop := ∀ r < reg, regs' r = regs r

namespace Agree

variable {reg reg' : ℕ} {regs regs' regs'' : ℕ → Value V}

theorem refl (reg : ℕ) (regs : ℕ → Value V) : Agree reg regs regs := fun _ _ => rfl

theorem trans (h : Agree reg regs regs') (h' : Agree reg regs' regs'') : Agree reg regs regs'' :=
  fun r hr => (h' r hr).trans (h r hr)

theorem mono (h : Agree reg' regs regs') (hle : reg ≤ reg') : Agree reg regs regs' :=
  fun r hr => h r (Nat.lt_of_lt_of_le hr hle)

theorem update (reg : ℕ) (regs : ℕ → Value V) (x : Value V) :
    Agree reg regs (Function.update regs reg x) := fun r hr => by
  rw [Function.update_of_ne (Nat.ne_of_lt hr)]

end Agree

/-- Against the outcome of an evaluation: the same exception, or the end that belongs to the value,
with the same memory. -/
def Yields (ops : Operations E S V W X) (P : Value V → Transfer ℕ → Value V → Prop)
    (code : Code E S) (reg : ℕ) (s : State E S V W) : Outcome E S W X (Value V) → Prop
  | .error e => Behaves ops.exec code s (.error e)
  | .ok (v, m) => ∃ t acc regs, P v t acc ∧ Agree reg s.regs regs ∧
      Behaves ops.exec code s (.ok (t, ⟨acc, regs, m⟩))

/-- The value is left in the accumulator. -/
abbrev Computes (ops : Operations E S V W X) :
    Code E S → ℕ → State E S V W → Outcome E S W X (Value V) → Prop :=
  Yields ops fun v t acc => t = .next ∧ acc = v

/-- The code jumps if the value is false. -/
abbrev Tests (ops : Operations E S V W X) (falseLabel : ℕ) :
    Code E S → ℕ → State E S V W → Outcome E S W X (Value V) → Prop :=
  Yields ops fun v t _ => t = if ops.toBoolean v then .next else .jump falseLabel

theorem bind_ok {ε α : Type} (o : Except ε α) : o.bind .ok = o := by
  cases o <;> rfl

theorem behaves (ops : Operations E S V W X) (i : Insn E S) (s : State E S V W) :
    Behaves ops.exec [.insn i] s (ops.exec i s) := Behaves.insn i s

section Yields

variable {ops : Operations E S V W X} {P : Value V → Transfer ℕ → Value V → Prop}
  {code code' : Code E S} {reg reg' : ℕ} {s s' : State E S V W} {o : Outcome E S W X (Value V)}

namespace Yields

theorem mono (h : Yields ops P code reg' s o) (hreg : reg ≤ reg') : Yields ops P code reg s o := by
  rcases o with e | ⟨v, m⟩
  · exact h
  · obtain ⟨t, acc, regs, ht, hregs, h⟩ := h
    exact ⟨t, acc, regs, ht, hregs.mono hreg, h⟩

theorem append (h : Behaves ops.exec code s (.ok (.next, s'))) (hs : Agree reg s.regs s'.regs)
    (h' : Yields ops P code' reg s' o) : Yields ops P (code ++ code') reg s o := by
  rcases o with e | ⟨v, m⟩
  · exact Behaves.append (o := .error e) h h'
  · obtain ⟨t, acc, regs, ht, hregs, h'⟩ := h'
    exact ⟨t, acc, regs, ht, hs.trans hregs, h.append h'⟩

theorem append_jump {target : ℕ} (h : Behaves ops.exec code s (.ok (.jump target, s')))
    (hs : Agree reg s.regs s'.regs) (before after : Code E S)
    (hcode : code' = before ++ .label target :: after) (hbefore : target ∉ labels before)
    (h' : Yields ops P after reg s' o) : Yields ops P (code ++ code') reg s o := by
  rcases o with e | ⟨v, m⟩
  · exact Behaves.append_jump (o := .error e) h before after hcode hbefore h'
  · obtain ⟨t, acc, regs, ht, hregs, h'⟩ := h'
    exact ⟨t, acc, regs, ht, hs.trans hregs, h.append_jump before after hcode hbefore h'⟩

theorem insn {i : Insn E S} (h : ops.exec i s = .ok (.next, s')) (hs : Agree reg s.regs s'.regs)
    (h' : Yields ops P code reg s' o) : Yields ops P (.insn i :: code) reg s o := by
  have hi := behaves ops i s
  rw [h] at hi
  exact append hi hs h'

theorem label (name : ℕ) (h : Yields ops P code reg s o) :
    Yields ops P (.label name :: code) reg s o := by
  rcases o with e | ⟨v, m⟩
  · exact Behaves.label (o := .error e) name h
  · obtain ⟨t, acc, regs, ht, hregs, h⟩ := h
    exact ⟨t, acc, regs, ht, hregs, h.label name⟩

theorem jmp {target : ℕ} (before after : Code E S)
    (hcode : code = before ++ .label target :: after) (hbefore : target ∉ labels before)
    (h : Yields ops P after reg s o) : Yields ops P (.insn (.jmp target) :: code) reg s o :=
  append_jump (behaves ops (.jmp target) s) (Agree.refl _ _) before after hcode hbefore h

theorem bind {k : Value V × Memory E S W → Outcome E S W X (Value V)} (hreg : reg ≤ reg')
    (h : Computes ops code reg' s o)
    (h' : ∀ x regs m, Agree reg' s.regs regs → Yields ops P code' reg ⟨x, regs, m⟩ (k (x, m))) :
    Yields ops P (code ++ code') reg s (o.bind k) := by
  rcases o with e | ⟨v, m⟩
  · exact Behaves.append_error h code'
  · obtain ⟨t, acc, regs, ⟨rfl, rfl⟩, hregs, h⟩ := h
    exact append h (hregs.mono hreg) (h' acc regs m hregs)

end Yields

/-- The code jumps by the value in the accumulator, which may be lost. -/
def JumpsBy (ops : Operations E S V W X) (code : Code E S) (target : ℕ)
    (jumps : Value V → Bool) : Prop :=
  ∀ s, ∃ acc, Behaves ops.exec code s
    (.ok (if jumps s.acc then .jump target else .next, { s with acc := acc }))

namespace JumpsBy

variable {target : ℕ} {jumps : Value V → Bool}

theorem two {i j : Insn E S} (f : State E S V W → Value V)
    (hi : ∀ s : State E S V W, ops.exec i s = .ok (.next, { s with acc := f s }))
    (hj : ∀ s : State E S V W, ops.exec j { s with acc := f s } =
      .ok (if jumps s.acc then .jump target else .next, { s with acc := f s })) :
    JumpsBy ops [.insn i, .insn j] target jumps := fun s => by
  have h := behaves ops j { s with acc := f s }
  rw [hj] at h
  exact ⟨f s, Behaves.cons (hi s) h⟩

theorem yields (h : JumpsBy ops code target jumps) (before after : Code E S)
    (hcode : code' = before ++ .label target :: after) (hbefore : target ∉ labels before)
    (hnext : jumps s.acc = false → ∀ acc, Yields ops P code' reg { s with acc := acc } o)
    (hjump : jumps s.acc = true → ∀ acc, Yields ops P after reg { s with acc := acc } o) :
    Yields ops P (code ++ code') reg s o := by
  obtain ⟨acc, h⟩ := h s
  cases hx : jumps s.acc with
  | false =>
    rw [hx] at h
    exact Yields.append h (Agree.refl _ _) (hnext hx acc)
  | true =>
    rw [hx] at h
    exact Yields.append_jump h (Agree.refl _ _) before after hcode hbefore (hjump hx acc)

theorem tests {falseLabel : ℕ} (h : JumpsBy ops code falseLabel fun x => !ops.toBoolean x) :
    Tests ops falseLabel code reg s (.ok (s.acc, s.memory)) := by
  obtain ⟨acc, h⟩ := h s
  refine ⟨_, acc, s.regs, ?_, Agree.refl _ _, h⟩
  cases hx : ops.toBoolean s.acc <;> simp [hx]

end JumpsBy

/-! ### The forms of code -/

variable {left right : Code E S} {op : LogicalOperator} {oLeft : Outcome E S W X (Value V)}
  {oRight : Memory E S W → Outcome E S W X (Value V)}

namespace Computes

theorem nil {v : Value V} (h : s.acc = v) : Computes ops [] reg s (.ok (v, s.memory)) :=
  ⟨.next, s.acc, s.regs, ⟨rfl, h⟩, Agree.refl _ _, Behaves.nil s⟩

theorem answer {i : Insn E S} (h : ops.exec i s = s.answer o) :
    Computes ops [.insn i] reg s o := by
  have hi := behaves ops i s
  rw [h] at hi
  rcases o with e | ⟨v, m⟩
  · exact hi
  · exact ⟨.next, v, s.regs, ⟨rfl, rfl⟩, Agree.refl _ _, hi⟩

theorem binary {op : BinaryOperator} {tail : Code E S}
    (hleft : Computes ops left (reg + 1) s oLeft)
    (hright : ∀ s, Computes ops right (reg + 1) s (oRight s.memory))
    (htail : ∀ s : State E S V W,
      Computes ops tail reg s (ops.binary op (s.regs reg) s.acc s.memory)) :
    Computes ops (left ++ (Item.insn (.sta reg) :: (right ++ tail))) reg s
      (oLeft.bind fun (x, m) => (oRight m).bind fun (y, m) => ops.binary op x y m) := by
  refine Yields.bind (Nat.le_succ _) hleft fun x regs m _ => ?_
  refine Yields.insn rfl (Agree.update _ _ _) ?_
  refine Yields.bind (Nat.le_succ _) (hright _) fun y regs' m' hregs' => ?_
  have hx : regs' reg = x := by
    rw [hregs' reg (Nat.lt_succ_self _)]
    exact Function.update_self _ _ _
  rw [← hx]
  exact htail ⟨y, regs', m'⟩

theorem unary {op : UnaryOperator} {tail : Code E S} (h : Computes ops code reg s o)
    (htail : ∀ s : State E S V W, s.regs reg = s.acc →
      Computes ops tail reg s (ops.unary op s.acc s.memory)) :
    Computes ops (code ++ (Item.insn (.sta reg) :: tail)) reg s
      (o.bind fun (x, m) => ops.unary op x m) := by
  refine Yields.bind (Nat.le_refl _) h fun x regs m _ => ?_
  exact Yields.insn rfl (Agree.update _ _ _) (htail _ (Function.update_self _ _ _))

theorem logical {branch : Code E S} {skipRight endLabel : ℕ}
    (hleft : Computes ops left (reg + 1) s oLeft)
    (hright : ∀ s, Computes ops right (reg + 1) s (oRight s.memory))
    (hbranch : JumpsBy ops branch skipRight (ops.decides op))
    (hskip : skipRight ∉ labels right) (hend : endLabel ≠ skipRight) :
    Computes ops (left ++ (Item.insn (.sta reg) :: (branch ++ (right ++ [Item.insn (.jmp endLabel),
        .label skipRight, .insn (.lda (.temp reg)), .label endLabel])))) reg s
      (oLeft.bind fun (x, m) => if ops.decides op x then .ok (x, m) else oRight m) := by
  refine Yields.bind (Nat.le_succ _) hleft fun x regs m _ => ?_
  refine Yields.insn rfl (Agree.update _ _ _) ?_
  refine hbranch.yields (right ++ [Item.insn (.jmp endLabel)])
    [.insn (.lda (.temp reg)), .label endLabel] (by simp) (by simpa using hskip)
    (fun hx acc => ?_) (fun hx acc => ?_)
  · have hx : ops.decides op x = false := hx
    simp only [hx, Bool.false_eq_true, if_false]
    rw [← bind_ok (oRight m)]
    refine Yields.bind (Nat.le_succ _) (hright _) fun y regs' m' _ => ?_
    exact Yields.jmp [.label skipRight, .insn (.lda (.temp reg))] []
      (by simp) (by simpa using hend) (nil rfl)
  · have hx : ops.decides op x = true := hx
    simp only [hx, if_true]
    refine Yields.insn rfl (Agree.refl _ _) (Yields.label _ ?_)
    exact nil (Function.update_self _ _ _)

theorem conditional {test consequent alternate : Code E S} {falseLabel endLabel : ℕ}
    {oTest : Outcome E S W X (Value V)}
    {oConsequent oAlternate : Memory E S W → Outcome E S W X (Value V)}
    (htest : Tests ops falseLabel test reg s oTest)
    (hconsequent : ∀ s, Computes ops consequent reg s (oConsequent s.memory))
    (halternate : ∀ s, Computes ops alternate reg s (oAlternate s.memory))
    (hfalse : falseLabel ∉ labels consequent) (hend : endLabel ∉ labels alternate)
    (hne : endLabel ≠ falseLabel) :
    Computes ops (test ++ (consequent ++ (Item.insn (.jmp endLabel) :: Item.label falseLabel ::
        (alternate ++ [Item.label endLabel])))) reg s
      (oTest.bind fun (x, m) => if ops.toBoolean x then oConsequent m else oAlternate m) := by
  rcases oTest with e | ⟨v, m⟩
  · exact Behaves.append_error htest _
  · obtain ⟨t, acc, regs, rfl, hregs, h⟩ := htest
    change Computes ops _ reg s (if ops.toBoolean v then oConsequent m else oAlternate m)
    cases hv : ops.toBoolean v with
    | true =>
      simp only [hv, if_true] at h ⊢
      refine Yields.append h hregs ?_
      rw [← bind_ok (oConsequent m)]
      refine Yields.bind (Nat.le_refl _) (hconsequent _) fun y regs' m' _ => ?_
      exact Yields.jmp (.label falseLabel :: alternate) [] (by simp)
        (by simp [hend, hne]) (nil rfl)
    | false =>
      simp only [hv, Bool.false_eq_true, if_false] at h ⊢
      refine Yields.append_jump h hregs (consequent ++ [Item.insn (.jmp endLabel)])
        (alternate ++ [Item.label endLabel]) (by simp) (by simpa using hfalse) ?_
      rw [← bind_ok (oAlternate m)]
      exact Yields.bind (Nat.le_refl _) (halternate _) fun y regs' m' _ => Yields.label _ (nil rfl)

end Computes

namespace Tests

variable {falseLabel : ℕ} {toFalse : Code E S}

theorem general (h : Computes ops code reg s o)
    (hfalse : JumpsBy ops toFalse falseLabel fun x => !ops.toBoolean x) :
    Tests ops falseLabel (code ++ toFalse) reg s o := by
  rw [← bind_ok o]
  exact Yields.bind (Nat.le_refl _) h fun x regs m _ => hfalse.tests

theorem and (hleft : Computes ops left reg s oLeft)
    (hright : ∀ s, Computes ops right reg s (oRight s.memory))
    (hfalse : JumpsBy ops toFalse falseLabel fun x => !ops.toBoolean x)
    (hlabel : falseLabel ∉ labels right) (hlabel' : labels toFalse = []) :
    Tests ops falseLabel (left ++ (toFalse ++ (right ++ toFalse))) reg s
      (oLeft.bind fun (x, m) => if ops.decides .and x then .ok (x, m) else oRight m) := by
  refine Yields.bind (Nat.le_refl _) hleft fun x regs m _ => ?_
  obtain ⟨acc, h⟩ := hfalse ⟨x, regs, m⟩
  cases hx : ops.toBoolean x with
  | true =>
    simp only [hx, Operations.decides, Bool.not_true, Bool.false_eq_true, if_false] at h ⊢
    exact Yields.append h (Agree.refl _ _) (general (hright _) hfalse)
  | false =>
    simp only [hx, Operations.decides, Bool.not_false, if_true] at h ⊢
    refine ⟨.jump falseLabel, acc, regs, by simp [hx], Agree.refl _ _, h.append_leave ?_⟩
    simp [hlabel, hlabel']

theorem or {toEnd : Code E S} {endLabel : ℕ} (hleft : Computes ops left reg s oLeft)
    (hright : ∀ s, Computes ops right reg s (oRight s.memory))
    (hfalse : JumpsBy ops toFalse falseLabel fun x => !ops.toBoolean x)
    (hend : JumpsBy ops toEnd endLabel ops.toBoolean)
    (hlabel : endLabel ∉ labels right) (hlabel' : labels toFalse = [])
    (hne : falseLabel ≠ endLabel) :
    Tests ops falseLabel (left ++ (toEnd ++ (right ++ (toFalse ++ [Item.label endLabel])))) reg s
      (oLeft.bind fun (x, m) => if ops.decides .or x then .ok (x, m) else oRight m) := by
  refine Yields.bind (Nat.le_refl _) hleft fun x regs m _ => ?_
  refine hend.yields (right ++ toFalse) [] (by simp)
    (by simp [hlabel, hlabel']) (fun hx acc => ?_) (fun hx acc => ?_)
  · have hx : ops.toBoolean x = false := hx
    simp only [Operations.decides, hx, Bool.false_eq_true, if_false]
    rw [← bind_ok (oRight m)]
    refine Yields.bind (Nat.le_refl _) (hright _) fun y regs' m' _ => ?_
    have hy : Tests ops falseLabel toFalse reg ⟨y, regs', m'⟩ (.ok (y, m')) := hfalse.tests
    obtain ⟨t, acc', regs'', ht, hregs, h⟩ := hy
    refine ⟨t, acc', regs'', ht, hregs, ?_⟩
    subst ht
    cases hy : ops.toBoolean y with
    | true =>
      simp only [hy, if_true] at h ⊢
      exact h.append (Behaves.label _ (Behaves.nil _))
    | false =>
      simp only [hy, Bool.false_eq_true, if_false] at h ⊢
      exact h.append_leave (by simpa using hne)
  · have hx : ops.toBoolean x = true := hx
    simp only [Operations.decides, hx, if_true]
    exact ⟨.next, acc, regs, by simp [hx], Agree.refl _ _, Behaves.nil _⟩

theorem relation {op : Relation} {oRight : Memory E S W → Outcome E S W X (Value V)}
    (hleft : Computes ops left (reg + 1) s oLeft)
    (hright : ∀ s, Computes ops right (reg + 1) s (oRight s.memory)) {toFalse : Insn E S}
    (hfalse : ∀ (s : State E S V W) b, s.acc = .boolean b →
      ops.exec toFalse s = .ok (if b then .next else .jump falseLabel, s)) :
    Tests ops falseLabel (left ++ (Item.insn (.sta reg) ::
        (right ++ [Item.insn (.relation op (.temp reg)), Item.insn toFalse]))) reg s
      (oLeft.bind fun (x, m) => (oRight m).bind fun (y, m) => ops.binary (.relation op) x y m) := by
  refine Yields.bind (Nat.le_succ _) hleft fun x regs m _ => ?_
  refine Yields.insn rfl (Agree.update _ _ _) ?_
  refine Yields.bind (Nat.le_succ _) (hright _) fun y regs' m' hregs' => ?_
  have hx : regs' reg = x := by
    rw [hregs' reg (Nat.lt_succ_self _)]
    exact Function.update_self _ _ _
  have hrelation := behaves ops (.relation op (.temp reg)) ⟨y, regs', m'⟩
  simp only [Operations.exec, Operations.binary, State.answer, State.read, hx] at hrelation ⊢
  rcases hr : ops.relate op x y m' with e | ⟨b, m''⟩
  · rw [hr] at hrelation
    exact Behaves.append_error hrelation [.insn toFalse]
  · rw [hr] at hrelation
    have h := behaves ops toFalse ⟨.boolean b, regs', m''⟩
    rw [hfalse _ b rfl] at h
    exact ⟨_, _, regs', by cases b <;> rfl, Agree.refl _ _,
      Behaves.append hrelation h⟩

end Tests

end Yields

end ArkTs2abc.Branches
