import ArkTs2abc.Process

/-!
# Return statements of derived constructors

A return statement in the constructor of a derived class has its expression compiled twice: once to
find out whether `this` is returned, and once more for the value, if it is not undefined. Behind the
finalizers `this` is loaded and checked, in code that the try ranges around the statement cover.

What user code does is a parameter, the finalizers' code among it.

## Main definitions

* `UserCode` — what expressions and tests do, and the binding of `this`.
* `compileReturnStatement` — the code of the statement.
* `returnStatement` — the statement after ECMAScript.
* `ReturnCondition` — when the two agree.

## Main results

* `run_compileReturnStatement_iff` — they agree if and only if the condition holds.
-/

namespace ArkTs2abc.Ts2panda.DerivedReturn

open StructuredCode

/-- The meaning of user code. `this` has a value from the call of `super` on, and keeps it. -/
structure UserCode (E T V ε W : Type) where
  eval : E → W → Except ε V × W
  /-- A call of `super`, with the evaluation of its arguments. -/
  superCall : E → W → Except ε V × W
  test : T → W → Except ε Bool × W
  catching : ε → W → W
  thisOf : W → Option V
  undefined : V
  referenceError : ε
  superCall_ne : ∀ e w v, (superCall e w).1 = .ok v → v ≠ undefined
  thisOf_eval : ∀ e w t, thisOf w = some t → thisOf (eval e w).2 = some t
  thisOf_test : ∀ q w t, thisOf w = some t → thisOf (test q w).2 = some t
  thisOf_catching : ∀ e w t, thisOf w = some t → thisOf (catching e w) = some t

variable {E T V ε W l : Type}

/-- User code as the operations and tests of finalizers. -/
def UserCode.semantics (u : UserCode E T V ε W) : Semantics E T ε W where
  exec e w := some ((u.eval e w).1.map fun _ => (), (u.eval e w).2)
  test q w := some (u.test q w)
  catching := u.catching

/-- The expression of a return statement. -/
inductive ReturnExpression (E : Type) where
  | none
  /-- A call of `super` that stands there by itself. -/
  | superCall (e : E)
  | this
  | other (e : E)

/-- A `TryStatement`, with the finalizer of its builder if it has one. -/
structure TryStatement (E T l : Type) where
  trybuilder : Option (Code E T l)

/-- `compileFinallyBeforeCFC` for a return: the finalizers of the try statements around, innermost
first, of which `left` are left already. -/
def compileFinallyBeforeCFC : List (TryStatement E T l) → ℕ → Code E T l
  | [], _ => .skip
  | startTry :: outer, left =>
    match startTry.trybuilder with
    | some finalizer => .seq (.outside (left + 1) finalizer) (compileFinallyBeforeCFC outer (left + 1))
    | none => compileFinallyBeforeCFC outer (left + 1)

/-! ## The code -/

inductive VReg where
  | returnValue | need2CheckSuper | thisReg
  | «true» | «undefined»
  deriving DecidableEq, Repr

inductive Operation (E : Type) where
  | moveVreg (vd vs : VReg)
  | loadAccumulator (r : VReg)
  | storeAccumulator (r : VReg)
  /-- `compileExpression` of the expression of the statement. -/
  | compileExpression (e : E)
  | compileSuperCall (e : E)
  /-- The accumulator is compared with `undefined`. -/
  | strictEqUndefined
  | getThis (r : VReg)
  /-- `throwIfSuperNotCorrectCall` for a use of `this`. -/
  | throwIfSuperNotCorrectCall
  | return
  /-- User code in a finalizer. -/
  | user (e : E)

inductive Test (T : Type) where
  /-- The accumulator is not `false`. -/
  | notFalse
  | user (q : T)

abbrev ReturnCode (E T l : Type) := Code (Operation E) (Test T) l

variable (tries : List (TryStatement E T l))

def finalizers : ReturnCode E T l := (compileFinallyBeforeCFC tries 0).map .user .user

def compileNormalReturn (value : ReturnCode E T l) : ReturnCode E T l :=
  .seq value <| .seq (.op (.storeAccumulator .returnValue)) <| .seq (finalizers tries) <|
    .seq (.op (.loadAccumulator .returnValue)) <| .seq (.op .return) .return

/-- `checkValidUseSuperBeforeSuper` for a return statement. -/
def checkValidUseSuperBeforeSuper : ReturnCode E T l :=
  .seq (.op (.getThis .thisReg)) <| .seq (.op (.loadAccumulator .thisReg))
    (.op .throwIfSuperNotCorrectCall)

/-- `compileExpression`, and of nothing the load of `undefined`. -/
def compileReturnExpression : ReturnExpression E → ReturnCode E T l
  | .none => .op (.loadAccumulator .undefined)
  | .superCall e => .op (.compileSuperCall e)
  | .other e => .op (.compileExpression e)
  | .this =>
    .seq checkValidUseSuperBeforeSuper (.seq (.op (.getThis .thisReg)) (.op (.loadAccumulator .thisReg)))

/-- Whether `this` is to be returned. -/
def compileNeed2CheckSuper : ReturnExpression E → ReturnCode E T l
  | .none | .this => .op (.moveVreg .need2CheckSuper .true)
  | expr =>
    .seq (compileReturnExpression expr) <| .seq (.op .strictEqUndefined)
      (.op (.storeAccumulator .need2CheckSuper))

def compileReturnInDerivedCtor (expr : ReturnExpression E) : ReturnCode E T l :=
  match expr with
  | .superCall e => compileNormalReturn tries (.op (.compileSuperCall e))
  | expr =>
    .seq (compileNeed2CheckSuper expr) <| .seq (.op (.loadAccumulator .need2CheckSuper)) <|
      .seq (.test .notFalse (.seq (.op (.getThis .thisReg)) (.op (.loadAccumulator .thisReg)))
        (compileReturnExpression expr)) <|
      .seq (.op (.storeAccumulator .returnValue)) <| .seq (finalizers tries) <|
      .seq (.op (.loadAccumulator .need2CheckSuper)) <|
      .seq (.test .notFalse checkValidUseSuperBeforeSuper (.op (.loadAccumulator .returnValue))) <|
      .seq (.op .return) .return

/-! ## Running it -/

/-- What the accumulator and the registers hold. -/
inductive Held (V : Type) where
  | value (v : V)
  | bool (b : Bool)
  | hole

/-- `evaluations` counts how often the expression of the statement is evaluated, and `result` is what
its own return instruction returns. -/
structure Machine (V W : Type) where
  acc : Held V
  regs : VReg → Held V
  result : Option V
  evaluations : ℕ
  world : W

namespace Machine

def set (m : Machine V W) (r : VReg) (x : Held V) : Machine V W :=
  { m with regs := fun r' => if r' = r then x else m.regs r' }

end Machine

variable [DecidableEq V] (u : UserCode E T V ε W)

/-- User code ends with a value in the accumulator. -/
def perform (eval : W → Except ε V × W) (m : Machine V W) : Except ε Unit × Machine V W :=
  match eval m.world with
  | (.ok v, world) => (.ok (), { m with acc := .value v, world })
  | (.error err, world) => (.error err, { m with world })

def heldThis (w : W) : Held V :=
  match u.thisOf w with
  | some t => .value t
  | none => .hole

def isUndefined (x : Held V) : Bool :=
  match x with
  | .value v => decide (v = u.undefined)
  | _ => false

def exec : Operation E → Machine V W → Option (Except ε Unit × Machine V W)
  | .moveVreg vd vs, m => some (.ok (), m.set vd (m.regs vs))
  | .loadAccumulator r, m => some (.ok (), { m with acc := m.regs r })
  | .storeAccumulator r, m => some (.ok (), m.set r m.acc)
  | .compileExpression e, m => some (perform (u.eval e) { m with evaluations := m.evaluations + 1 })
  | .compileSuperCall e, m =>
    some (perform (u.superCall e) { m with evaluations := m.evaluations + 1 })
  | .strictEqUndefined, m => some (.ok (), { m with acc := .bool (isUndefined u m.acc) })
  | .getThis r, m => some (.ok (), m.set r (heldThis u m.world))
  | .throwIfSuperNotCorrectCall, m =>
    match m.acc with
    | .hole => some (.error u.referenceError, m)
    | _ => some (.ok (), m)
  | .return, m =>
    match m.acc with
    | .value v => some (.ok (), { m with result := some v })
    | _ => none
  | .user e, m => some (perform (u.eval e) m)

def test : Test T → Machine V W → Option (Except ε Bool × Machine V W)
  | .notFalse, m =>
    match m.acc with
    | .bool b => some (.ok b, m)
    | _ => some (.ok true, m)
  | .user q, m => some ((u.test q m.world).1, { m with world := (u.test q m.world).2 })

def semantics : Semantics (Operation E) (Test T) ε (Machine V W) where
  exec := exec u
  test := test u
  catching e m := { m with world := u.catching e m.world }

/-- The machine in front of the statement. -/
def start (w : W) : Machine V W where
  acc := .hole
  regs := fun
    | .true => .bool true
    | .undefined => .value u.undefined
    | _ => .hole
  result := none
  evaluations := 0
  world := w

/-- How a run of the statement ends: with what result, how many evaluations and in which world. -/
abbrev Ending (V ε W l : Type) := Option (Result ε l × Option V × ℕ × W)

def ending (o : Outcome ε l (Machine V W)) : Ending V ε W l :=
  o.map fun (r, m) => (r, m.result, m.evaluations, m.world)

/-! ## The statement after ECMAScript -/

/-- The evaluation of the expression: its value, and how often user code is evaluated for it. -/
def evaluate : ReturnExpression E → W → Except ε V × ℕ × W
  | .none, w => (.ok u.undefined, 0, w)
  | .this, w =>
    match u.thisOf w with
    | some t => (.ok t, 0, w)
    | none => (.error u.referenceError, 0, w)
  | .superCall e, w => ((u.superCall e w).1, 1, (u.superCall e w).2)
  | .other e, w => ((u.eval e w).1, 1, (u.eval e w).2)

/-- The end of the constructor: no try statement in it covers the check of `this`. -/
def construct (v : V) (n : ℕ) (w : W) : Result ε l × Option V × ℕ × W :=
  if v ≠ u.undefined then (.returned, some v, n, w)
  else
    match u.thisOf w with
    | some t => (.returned, some t, n, w)
    | none => (.thrown u.referenceError tries.length, none, n, w)

variable [DecidableEq l]

/-- The finalizers of the statements around. -/
def runFinalizers (fuel : ℕ) (w : W) : Outcome ε l W :=
  run u.semantics fuel (compileFinallyBeforeCFC tries 0) w

def returnStatement (fuel : ℕ) (expr : ReturnExpression E) (w : W) : Ending V ε W l :=
  match evaluate u expr w with
  | (.error e, n, w) => some (.thrown e 0, none, n, w)
  | (.ok v, n, w) =>
    match runFinalizers tries u fuel w with
    | none => none
    | some (.normal, w) => some (construct tries u v n w)
    | some (r, w) => some (r, none, n, w)

/-- Where the value is undefined and `super` has not been called in the end, no try statement is
around that would take up the exception. -/
def NotCovered (fuel : ℕ) (w : W) : Prop :=
  tries ≠ [] → ∀ w', runFinalizers tries u fuel w = some (.normal, w') → u.thisOf w' ≠ none

/-- The finalizers do not come to an end, behind one evaluation and behind two. -/
def NoEnd (fuel : ℕ) (e : E) (w : W) : Prop :=
  runFinalizers tries u fuel w = none ∧
    ∃ v, (u.eval e w).1 = .ok v ∧ runFinalizers tries u fuel (u.eval e w).2 = none

/-- When the code does what the statement is to do. -/
def ReturnCondition (fuel : ℕ) (expr : ReturnExpression E) (w : W) : Prop :=
  match expr with
  | .superCall _ => True
  | .none => NotCovered tries u fuel w
  | .this => u.thisOf w = none → runFinalizers tries u fuel w = some (.normal, w)
  | .other e => ∀ v, (u.eval e w).1 = .ok v →
    if v = u.undefined then NotCovered tries u fuel (u.eval e w).2
    else NoEnd tries u fuel e (u.eval e w).2

/-! ### Runs -/

variable {m : Machine V W} {w : W}

omit [DecidableEq V] in
theorem perform_ok {eval : W → Except ε V × W} {v : V} (h : eval m.world = (.ok v, w)) :
    perform eval m = (.ok (), { m with acc := .value v, world := w }) := by
  rw [perform, h]

omit [DecidableEq V] in
theorem perform_error {eval : W → Except ε V × W} {e : ε} (h : eval m.world = (.error e, w)) :
    perform eval m = (.error e, { m with world := w }) := by
  rw [perform, h]

/-- What the finalizers leave alone: all but the accumulator and the world. -/
structure Beside (m : Machine V W) (w : W) (m' : Machine V W) : Prop where
  world : m'.world = w
  regs : m'.regs = m.regs
  result : m'.result = m.result
  evaluations : m'.evaluations = m.evaluations

omit [DecidableEq V] in
theorem Beside.perform {m' : Machine V W} (h : Beside m w m') (eval : W → Except ε V × W) :
    Related (Beside m) (some ((eval w).1.map fun _ => (), (eval w).2))
      (some (DerivedReturn.perform eval m')) := by
  obtain ⟨rfl, hregs, hresult, hevaluations⟩ := h
  unfold DerivedReturn.perform
  rcases eval m'.world with ⟨_ | v, w'⟩
  · exact .some ⟨rfl, hregs, hresult, hevaluations⟩
  · exact .some ⟨rfl, hregs, hresult, hevaluations⟩

theorem simulates (m : Machine V W) :
    Simulates u.semantics (semantics u) Operation.user Test.user (Beside m) where
  exec e w m' h := h.perform (u.eval e)
  test q w m' h := by
    obtain ⟨rfl, hregs, hresult, hevaluations⟩ := h
    exact .some ⟨rfl, hregs, hresult, hevaluations⟩
  catching e w m' h := by
    obtain ⟨rfl, hregs, hresult, hevaluations⟩ := h
    exact ⟨rfl, hregs, hresult, hevaluations⟩

theorem run_finalizers (fuel : ℕ) (m : Machine V W) :
    Related (Beside m) (runFinalizers tries u fuel m.world)
      (run (semantics u) fuel (finalizers tries) m) :=
  (simulates u m).run _ fuel ⟨rfl, rfl, rfl, rfl⟩

variable {fuel : ℕ}

omit [DecidableEq V] in
/-- Once `this` has a value, it keeps it through the finalizers. -/
theorem thisOf_finalizers {w' : W} {t : V} {r : Result ε l} (ht : u.thisOf w = some t)
    (h : runFinalizers tries u fuel w = some (r, w')) : u.thisOf w' = some t := by
  have hinvariant : Triple u.semantics (fun w => u.thisOf w = some t)
      (compileFinallyBeforeCFC tries 0) fun _ w => u.thisOf w = some t := by
    refine Triple.invariant (p := fun _ => True) ?_ ?_ ?_ ?_
    · rintro e o w w' - ht h
      cases h
      exact u.thisOf_eval e w t ht
    · rintro q o w w' ht h
      have hw : (u.test q w).2 = w' := congrArg Prod.snd (Option.some.inj h)
      rw [← hw]
      exact u.thisOf_test q w t ht
    · exact fun e w => u.thisOf_catching e w t
    · generalize compileFinallyBeforeCFC tries 0 = c
      induction c <;> simp_all [Code.All]
  exact hinvariant fuel w ht r w' h

/-- What follows on the finalizers, by what they come to. -/
def behindFinalizers (fuel : ℕ) (n : ℕ) (w : W) (rest : W → Ending V ε W l) : Ending V ε W l :=
  match runFinalizers tries u fuel w with
  | none => none
  | some (.normal, w) => rest w
  | some (r, w) => some (r, none, n, w)

variable {rest : W → Ending V ε W l} {expr : ReturnExpression E}

theorem ending_finalizers (hresult : m.result = none) {code : ReturnCode E T l}
    (hrest : ∀ m' w, Beside m w m' → ending (run (semantics u) fuel code m') = rest w) :
    ending (run (semantics u) fuel (.seq (finalizers tries) code) m) =
      behindFinalizers tries u fuel m.evaluations m.world rest := by
  change ending (andThen (run (semantics u) fuel (finalizers tries) m) _) = _
  have hfinalizers := run_finalizers tries u fuel m
  unfold behindFinalizers
  generalize runFinalizers tries u fuel m.world = o at hfinalizers ⊢
  generalize run (semantics u) fuel (finalizers tries) m = o' at hfinalizers ⊢
  cases hfinalizers with
  | none => rfl
  | @some r w m' h =>
    cases r with
    | normal => exact hrest m' w h
    | thrown e left =>
      obtain ⟨rfl, -, hresult', hevaluations⟩ := h
      simp [andThen, ending, hresult', hresult, hevaluations]
    | branched name =>
      obtain ⟨rfl, -, hresult', hevaluations⟩ := h
      simp [andThen, ending, hresult', hresult, hevaluations]
    | returned =>
      obtain ⟨rfl, -, hresult', hevaluations⟩ := h
      simp [andThen, ending, hresult', hresult, hevaluations]

theorem returnStatement_error {w' : W} {e : ε} {n : ℕ} (h : evaluate u expr w = (.error e, n, w')) :
    returnStatement tries u fuel expr w = some (.thrown e 0, none, n, w') := by
  rw [returnStatement, h]

theorem returnStatement_ok {w' : W} {v : V} {n : ℕ} (h : evaluate u expr w = (.ok v, n, w')) :
    returnStatement tries u fuel expr w =
      behindFinalizers tries u fuel n w' fun w => some (construct tries u v n w) := by
  rw [returnStatement, h]
  rfl

/-- The loads of `this` and its check behind the finalizers. -/
def checked (n : ℕ) (w : W) : Ending V ε W l :=
  match u.thisOf w with
  | some t => some (.returned, some t, n, w)
  | none => some (.thrown u.referenceError 0, none, n, w)

attribute [simp] StructuredCode.perform

theorem ending_check (fuel : ℕ) (hneed : m.regs .need2CheckSuper = .bool true)
    (hresult : m.result = none) :
    ending (run (semantics u) fuel (.seq (.op (.loadAccumulator .need2CheckSuper)) <|
      .seq (.test .notFalse checkValidUseSuperBeforeSuper (.op (.loadAccumulator .returnValue))) <|
      .seq (.op .return) .return : ReturnCode E T l) m) = checked u m.evaluations m.world := by
  unfold checked
  cases hthis : u.thisOf m.world with
  | none =>
    simp [run, andThen, semantics, exec, choose, test, hneed, checkValidUseSuperBeforeSuper,
      Machine.set, heldThis, hthis, ending, hresult]
  | some t =>
    simp [run, andThen, semantics, exec, choose, test, hneed, checkValidUseSuperBeforeSuper,
      Machine.set, heldThis, hthis, ending]

theorem ending_value (fuel : ℕ) {v : V} (hneed : m.regs .need2CheckSuper = .bool false)
    (hvalue : m.regs .returnValue = .value v) :
    ending (run (semantics u) fuel (.seq (.op (.loadAccumulator .need2CheckSuper)) <|
      .seq (.test .notFalse checkValidUseSuperBeforeSuper (.op (.loadAccumulator .returnValue))) <|
      .seq (.op .return) .return : ReturnCode E T l) m) =
      some (.returned, some v, m.evaluations, m.world) := by
  simp [run, andThen, semantics, exec, choose, test, hneed, hvalue, ending]

/-- The code from the first test on. -/
def returnBranches (expr : ReturnExpression E) : ReturnCode E T l :=
  .seq (.test .notFalse (.seq (.op (.getThis .thisReg)) (.op (.loadAccumulator .thisReg)))
    (compileReturnExpression expr)) <|
  .seq (.op (.storeAccumulator .returnValue)) <| .seq (finalizers tries) <|
  .seq (.op (.loadAccumulator .need2CheckSuper)) <|
  .seq (.test .notFalse checkValidUseSuperBeforeSuper (.op (.loadAccumulator .returnValue))) <|
  .seq (.op .return) .return

/-- Where `this` is to be returned. -/
theorem ending_returnBranches_true (fuel : ℕ) (expr : ReturnExpression E)
    (hacc : m.acc = .bool true) (hneed : m.regs .need2CheckSuper = .bool true)
    (hresult : m.result = none) :
    ending (run (semantics u) fuel (returnBranches tries expr) m) =
      behindFinalizers tries u fuel m.evaluations m.world (checked u m.evaluations) := by
  have hthis : run (semantics u) fuel (.test .notFalse (.seq (.op (.getThis .thisReg))
      (.op (.loadAccumulator .thisReg))) (compileReturnExpression expr) : ReturnCode E T l) m =
      some (.normal, { m.set .thisReg (heldThis u m.world) with acc := heldThis u m.world }) := by
    simp [run, choose, semantics, test, hacc, andThen, exec, Machine.set]
  unfold returnBranches
  rw [run_seq_normal hthis, run_seq_normal (run_op_ok rfl fuel)]
  refine ending_finalizers tries u (by exact hresult) fun m' w' h => ?_
  obtain ⟨rfl, hregs, hresult', hevaluations⟩ := h
  have hneed' : m'.regs .need2CheckSuper = .bool true := by
    rw [hregs]
    exact hneed
  rw [ending_check u fuel hneed' (hresult'.trans hresult), hevaluations]
  rfl

/-- Where the value of the expression is to be returned, it is evaluated again. -/
theorem ending_returnBranches_false (fuel : ℕ) (e : E) (hacc : m.acc = .bool false)
    (hneed : m.regs .need2CheckSuper = .bool false) (hresult : m.result = none) :
    ending (run (semantics u) fuel (returnBranches tries (.other e)) m) =
      match u.eval e m.world with
      | (.error err, w) => some (.thrown err 0, none, m.evaluations + 1, w)
      | (.ok v, w) => behindFinalizers tries u fuel (m.evaluations + 1) w fun w =>
          some (.returned, some v, m.evaluations + 1, w) := by
  have htest : ∀ ifTrue : ReturnCode E T l, run (semantics u) fuel
      (.test .notFalse ifTrue (compileReturnExpression (.other e))) m =
      StructuredCode.perform (some (perform (u.eval e)
        { m with evaluations := m.evaluations + 1 })) := by
    intro ifTrue
    simp [run, choose, semantics, test, hacc, compileReturnExpression, exec]
  unfold returnBranches
  rcases heval : u.eval e m.world with ⟨err | v, w⟩
  · rw [perform_error (m := { m with evaluations := m.evaluations + 1 }) heval] at htest
    change ending (StructuredCode.andThen (run (semantics u) fuel _ m) _) = _
    rw [htest]
    simp [StructuredCode.andThen, ending, hresult]
  · rw [perform_ok (m := { m with evaluations := m.evaluations + 1 }) heval] at htest
    rw [run_seq_normal (htest _), run_seq_normal (run_op_ok rfl fuel)]
    refine ending_finalizers tries u (by exact hresult) fun m' w' h => ?_
    obtain ⟨rfl, hregs, -, hevaluations⟩ := h
    have hneed' : m'.regs .need2CheckSuper = .bool false := by
      rw [hregs]
      exact hneed
    have hvalue : m'.regs .returnValue = .value v := by
      rw [hregs]
      rfl
    rw [ending_value u fuel hneed' hvalue, hevaluations]
    rfl

/-- The start of the code where `this` is to be returned in any case. -/
theorem ending_this (fuel : ℕ) (hexpr : expr = .none ∨ expr = .this) (w : W) :
    ending (run (semantics u) fuel (compileReturnInDerivedCtor tries expr) (start u w)) =
      behindFinalizers tries u fuel 0 w (checked u 0) := by
  have hneed : run (semantics u) fuel (compileNeed2CheckSuper expr : ReturnCode E T l) (start u w) =
      some (.normal, (start u w).set .need2CheckSuper (.bool true)) := by
    rcases hexpr with rfl | rfl <;> rfl
  have hcode : compileReturnInDerivedCtor tries expr =
      .seq (compileNeed2CheckSuper expr) (.seq (.op (.loadAccumulator .need2CheckSuper))
        (returnBranches tries expr)) := by
    rcases hexpr with rfl | rfl <;> rfl
  rw [hcode, run_seq_normal hneed, run_seq_normal (run_op_ok rfl fuel)]
  exact ending_returnBranches_true tries u fuel expr rfl rfl rfl

/-- Where a call of `super` stands by itself, its value is returned behind the finalizers. -/
theorem ending_superCall (fuel : ℕ) (e : E) (w : W) :
    ending (run (semantics u) fuel (compileReturnInDerivedCtor tries (.superCall e)) (start u w)) =
      match u.superCall e w with
      | (.error err, w) => some (.thrown err 0, none, 1, w)
      | (.ok v, w) => behindFinalizers tries u fuel 1 w fun w => some (.returned, some v, 1, w) := by
  have hcode : compileReturnInDerivedCtor tries (.superCall e) =
      .seq (.op (.compileSuperCall e)) (.seq (.op (.storeAccumulator .returnValue)) <|
        .seq (finalizers tries) <| .seq (.op (.loadAccumulator .returnValue)) <|
        .seq (.op .return) .return) := rfl
  have hexec : (semantics u).exec (.compileSuperCall e : Operation E) (start u w) =
      some (perform (u.superCall e) { start u w with evaluations := 1 }) := rfl
  rw [hcode]
  rcases hcall : u.superCall e w with ⟨err | v, w'⟩
  · rw [perform_error (m := { start u w with evaluations := 1 }) hcall] at hexec
    rw [run_seq_error hexec]
    rfl
  · rw [perform_ok (m := { start u w with evaluations := 1 }) hcall] at hexec
    rw [run_seq_normal (run_op_ok hexec fuel), run_seq_normal (run_op_ok rfl fuel)]
    refine ending_finalizers tries u rfl fun m' w'' h => ?_
    obtain ⟨rfl, hregs, hresult, hevaluations⟩ := h
    have hvalue : m'.regs .returnValue = .value v := by
      rw [hregs]
      rfl
    simp [run, andThen, semantics, exec, hvalue, ending, hevaluations, Machine.set]

/-- The other expressions are evaluated again where their value is not undefined. -/
theorem ending_other (fuel : ℕ) (e : E) (w : W) :
    ending (run (semantics u) fuel (compileReturnInDerivedCtor tries (.other e)) (start u w)) =
      match u.eval e w with
      | (.error err, w) => some (.thrown err 0, none, 1, w)
      | (.ok v, w) =>
        if v = u.undefined then behindFinalizers tries u fuel 1 w (checked u 1)
        else
          match u.eval e w with
          | (.error err, w) => some (.thrown err 0, none, 2, w)
          | (.ok v, w) => behindFinalizers tries u fuel 2 w fun w => some (.returned, some v, 2, w) := by
  have hcode : compileReturnInDerivedCtor tries (.other e) =
      .seq (.seq (.op (.compileExpression e)) <| .seq (.op .strictEqUndefined)
        (.op (.storeAccumulator .need2CheckSuper))) (.seq (.op (.loadAccumulator .need2CheckSuper))
        (returnBranches tries (.other e))) := rfl
  have hexec : ∀ m : Machine V W, (semantics u).exec (.compileExpression e : Operation E) m =
      some (perform (u.eval e) { m with evaluations := m.evaluations + 1 }) := fun m => rfl
  rw [hcode]
  rcases heval : u.eval e w with ⟨err | v, w₁⟩
  · have hstart := hexec (start u w)
    rw [perform_error (m := { start u w with evaluations := (start u w).evaluations + 1 }) heval]
      at hstart
    simp only [run, andThen, hstart, StructuredCode.perform, ending]
    rfl
  · have hstart := hexec (start u w)
    rw [perform_ok (m := { start u w with evaluations := (start u w).evaluations + 1 }) heval] at hstart
    have hneed : run (semantics u) fuel (.seq (.op (.compileExpression e)) <|
        .seq (.op .strictEqUndefined) (.op (.storeAccumulator .need2CheckSuper)) : ReturnCode E T l)
        (start u w) = some (.normal, Machine.set { start u w with
          acc := .bool (decide (v = u.undefined)), evaluations := 1, world := w₁ } .need2CheckSuper
          (.bool (decide (v = u.undefined)))) := by
      rw [run_seq_normal (run_op_ok hstart fuel)]
      rfl
    rw [run_seq_normal hneed, run_seq_normal (run_op_ok rfl fuel)]
    by_cases hv : v = u.undefined
    · have hbool : Held.bool (V := V) (decide (v = u.undefined)) = .bool true := by simp [hv]
      rw [hbool]
      simp only [if_pos hv]
      exact ending_returnBranches_true tries u fuel (.other e) rfl rfl rfl
    · have hbool : Held.bool (V := V) (decide (v = u.undefined)) = .bool false := by simp [hv]
      rw [hbool]
      simp only [if_neg hv]
      exact ending_returnBranches_false tries u fuel e rfl rfl rfl

/-! ### Comparison -/

theorem behindFinalizers_checked_iff (fuel n : ℕ) (w : W) :
    behindFinalizers tries u fuel n w (checked u n) =
        behindFinalizers tries u fuel n w (fun w => some (construct tries u u.undefined n w)) ↔
      NotCovered tries u fuel w := by
  unfold behindFinalizers NotCovered construct checked
  rcases runFinalizers tries u fuel w with _ | ⟨r, w'⟩
  · simp
  · cases r with
    | normal =>
      cases hthis : u.thisOf w' with
      | none => cases tries <;> simp [hthis]
      | some t => simp [hthis]
    | _ => simp

omit [DecidableEq V] in
theorem runFinalizers_ne {w' : W} {e : ε} :
    runFinalizers tries u fuel w ≠ some (.thrown e 0, w') := by
  have htriple : ∀ left, Triple u.semantics (fun _ => True) (compileFinallyBeforeCFC tries left)
      fun r _ => ∀ e, r ≠ .thrown e 0 := by
    induction tries with
    | nil => exact fun left => .skip (by simp)
    | cons startTry outer ih =>
      intro left
      obtain ⟨_ | finalizer⟩ := startTry
      · exact ih (left + 1)
      · refine Triple.seq (R := fun _ => True) (Triple.outside ?_) (ih (left + 1))
        intro fuel w _ r w' _
        cases r <;> simp [Post.shift, Post.before]
  intro h
  exact htriple 0 fuel w trivial _ _ h e rfl

theorem this_iff (fuel : ℕ) (w : W) :
    behindFinalizers tries u fuel 0 w (checked u 0) = returnStatement tries u fuel .this w ↔
      ReturnCondition tries u fuel .this w := by
  unfold ReturnCondition
  cases hthis : u.thisOf w with
  | some t =>
    refine iff_of_true ?_ (by simp)
    have hevaluate : evaluate u .this w = (.ok t, 0, w) := by simp [evaluate, hthis]
    rw [returnStatement_ok tries u hevaluate]
    unfold behindFinalizers
    rcases hfinalizers : runFinalizers tries u fuel w with _ | ⟨r, w'⟩
    · rfl
    · have hthis' := thisOf_finalizers tries u hthis hfinalizers
      cases r with
      | normal => simp [checked, construct, hthis']
      | _ => rfl
  | none =>
    have hevaluate : evaluate u .this w = (.error u.referenceError, 0, w) := by simp [evaluate, hthis]
    rw [returnStatement_error tries u hevaluate]
    unfold behindFinalizers
    rcases hfinalizers : runFinalizers tries u fuel w with _ | ⟨r, w'⟩
    · simp
    · cases r with
      | normal =>
        cases hthis' : u.thisOf w' with
        | some t =>
          have hne : w' ≠ w := by
            rintro rfl
            rw [hthis] at hthis'
            cases hthis'
          simp [checked, hthis', hne]
        | none => simp [checked, hthis']
      | thrown e left =>
        have hleft : left ≠ 0 := by
          rintro rfl
          exact runFinalizers_ne tries u hfinalizers
        simp [hleft]
      | branched name => simp
      | returned => simp

omit [DecidableEq V] in
theorem evaluations_behindFinalizers {n : ℕ} (hrest : ∀ w, (rest w).map (·.2.2.1) = some n) (w : W) :
    (behindFinalizers tries u fuel n w rest).map (·.2.2.1) =
      (runFinalizers tries u fuel w).map fun _ => n := by
  unfold behindFinalizers
  rcases runFinalizers tries u fuel w with _ | ⟨r, w'⟩
  · rfl
  · cases r with
    | normal => exact hrest w'
    | _ => rfl

omit [DecidableEq V] in
theorem behindFinalizers_none {n : ℕ} (h : runFinalizers tries u fuel w = none) :
    behindFinalizers tries u fuel n w rest = none := by
  rw [behindFinalizers, h]

/-- Two evaluations are not one, unless no end is come to. -/
theorem ending_second_iff (fuel : ℕ) (e : E) (v : V) (w : W) :
    (match u.eval e w with
      | (.error err, w) => some (.thrown err 0, none, 2, w)
      | (.ok v, w) => behindFinalizers tries u fuel 2 w fun w => some (.returned, some v, 2, w)) =
        behindFinalizers tries u fuel 1 w (fun w => some (construct tries u v 1 w)) ↔
      NoEnd tries u fuel e w := by
  have hone : ∀ w, (some (construct tries u v 1 w) : Ending V ε W l).map (·.2.2.1) = some 1 := by
    intro w
    unfold construct
    split
    · rfl
    · split <;> rfl
  have hspec : (behindFinalizers tries u fuel 1 w fun w => some (construct tries u v 1 w)).map
      (·.2.2.1) = (runFinalizers tries u fuel w).map fun _ => 1 :=
    evaluations_behindFinalizers tries u hone w
  unfold NoEnd
  rcases heval : u.eval e w with ⟨err | v₂, w₂⟩
  · refine iff_of_false ?_ (by simp)
    intro heq
    rw [← heq] at hspec
    cases hfinalizers : runFinalizers tries u fuel w <;> simp [hfinalizers] at hspec
  · have hcode : (behindFinalizers tries u fuel 2 w₂ fun w => some (.returned, some v₂, 2, w)).map
        (·.2.2.1) = (runFinalizers tries u fuel w₂).map fun _ => 2 :=
      evaluations_behindFinalizers tries u (fun _ => rfl) w₂
    constructor
    · intro heq
      simp only at heq
      rw [heq, hspec] at hcode
      cases hfinalizers : runFinalizers tries u fuel w <;>
        cases hfinalizers₂ : runFinalizers tries u fuel w₂ <;>
        simp_all
    · rintro ⟨hfirst, -, -, hsecond⟩
      rw [behindFinalizers_none tries u hfirst]
      exact behindFinalizers_none tries u hsecond

/-- For every return expression, all finalizers and every meaning of user code: the code of the return
statement ends as ECMAScript's statement does, with one evaluation of the expression, if and only if
the condition holds. -/
theorem run_compileReturnStatement_iff (fuel : ℕ) (expr : ReturnExpression E) (w : W) :
    ending (run (semantics u) fuel (compileReturnInDerivedCtor tries expr) (start u w)) =
        returnStatement tries u fuel expr w ↔
      ReturnCondition tries u fuel expr w := by
  cases expr with
  | none =>
    have hevaluate : evaluate u .none w = (.ok u.undefined, 0, w) := rfl
    rw [ending_this tries u fuel (.inl rfl), returnStatement_ok tries u hevaluate]
    exact behindFinalizers_checked_iff tries u fuel 0 w
  | this =>
    rw [ending_this tries u fuel (.inr rfl)]
    exact this_iff tries u fuel w
  | superCall e =>
    refine iff_of_true ?_ trivial
    rw [ending_superCall]
    rcases hcall : u.superCall e w with ⟨err | v, w'⟩
    · have hevaluate : evaluate u (.superCall e) w = (.error err, 1, w') := by simp [evaluate, hcall]
      exact (returnStatement_error tries u hevaluate).symm
    · have hevaluate : evaluate u (.superCall e) w = (.ok v, 1, w') := by simp [evaluate, hcall]
      have hv : v ≠ u.undefined := u.superCall_ne e w v (by rw [hcall])
      rw [returnStatement_ok tries u hevaluate]
      simp [construct, hv]
  | other e =>
    rw [ending_other]
    rcases heval : u.eval e w with ⟨err | v, w₁⟩
    · have hevaluate : evaluate u (.other e) w = (.error err, 1, w₁) := by simp [evaluate, heval]
      refine iff_of_true (returnStatement_error tries u hevaluate).symm ?_
      simp [ReturnCondition, heval]
    · have hevaluate : evaluate u (.other e) w = (.ok v, 1, w₁) := by simp [evaluate, heval]
      rw [returnStatement_ok tries u hevaluate]
      by_cases hv : v = u.undefined
      · subst hv
        simp only [↓reduceIte]
        rw [behindFinalizers_checked_iff]
        simp [ReturnCondition, heval]
      · simp only [if_neg hv]
        rw [ending_second_iff]
        simp [ReturnCondition, heval, hv]

/-- User code that counts its calls and has the value 1, in a constructor that has called `super`. -/
def counting : UserCode Unit Unit ℕ Unit ℕ where
  eval _ w := (.ok 1, w + 1)
  superCall _ w := (.ok 1, w + 1)
  test _ w := (.ok true, w)
  catching _ w := w
  thisOf _ := some 2
  undefined := 0
  referenceError := ()
  superCall_ne _ _ v h := by
    cases h
    exact Nat.one_ne_zero
  thisOf_eval _ _ _ h := h
  thisOf_test _ _ _ h := h
  thisOf_catching _ _ _ h := h

/-- `return f();` calls `f` twice. -/
theorem called_twice :
    ending (run (semantics counting) 1
        (compileReturnInDerivedCtor ([] : List (TryStatement Unit Unit Unit)) (.other ()))
        (start counting 0)) ≠
      returnStatement ([] : List (TryStatement Unit Unit Unit)) counting 1 (.other ()) 0 := by
  have hcode : ending (run (semantics counting) 1
      (compileReturnInDerivedCtor ([] : List (TryStatement Unit Unit Unit)) (.other ()))
      (start counting 0)) = some (.returned, some 1, 2, 2) := rfl
  have hspec : returnStatement ([] : List (TryStatement Unit Unit Unit)) counting 1 (.other ()) 0 =
      some (.returned, some 1, 1, 1) := rfl
  rw [hcode, hspec]
  simp

end ArkTs2abc.Ts2panda.DerivedReturn
