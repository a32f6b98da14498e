import ArkTs2abc.References.Es2panda
import ArkTs2abc.References.Ts2panda

/-!
# Expressions with a target

An expression evaluates the parts of its target and then goes on with loads and stores of it. What it does
is told with the loads and stores as parameters: the code has its own, a single reference has others.

## Main definitions

* `Use` — the expressions with a target.
* `Use.rest` — what an expression does behind its target.
* `Denotes` — what the parts of a target denote.

## Main results

* `LReferenceCode.Lawful.run_compile` — what the code of an expression does.
* `evaluateTarget_bind` — the parts of a target are evaluated, in any order of answers.
-/

namespace ArkTs2abc.References

open StructuredCode Conversions
open Ts2panda.PropertyAccess (Temps)

variable {V : Type}

/-- How a target is used. -/
inductive Use where
  | assign
  | compound
  | update (isDecrement isPrefix : Bool)
  | element (before after : List ℕ) (value : ℕ) (hasInit : Bool)
  deriving DecidableEq, Repr

/-- The target is read, too. -/
def Use.reads : Use → Bool
  | compound | update _ _ => true
  | assign | element _ _ _ _ => false

def LReferenceCode.compile (c : LReferenceCode V) (u : Use) (target : Target V) (t : Temps) : List Ins :=
  match u with
  | .assign => c.compileAssign target t
  | .compound => c.compileCompound target t
  | .update isDecrement isPrefix => c.compileUpdate isDecrement isPrefix target t
  | .element before after value hasInit => c.compileElement before after value hasInit target t

namespace Runtime

variable (rt : Runtime)

/-- Steps of a pattern. -/
def pieces : List ℕ → Evaluation Part Reference Unit
  | [] => pure ()
  | n :: ns => rt.evaluate (.piece n) >>= fun _ => pieces ns

/-- A value, or the default one. -/
def default (hasInit : Bool) (v : JsValue) : Evaluation Part Reference JsValue :=
  if hasInit ∧ v = .primitive .undefined then rt.evaluate .initializer else pure v

/-- The result of an update in the code, by what was read and what is left by the store. -/
def updateResult (isPrefix : Bool) (old stored : JsValue) : Evaluation Part Reference JsValue :=
  if isPrefix then pure stored
  else rt.world.toPrimitive .number old >>= fun p => completion (rt.tonumber p) >>= fun q =>
    pure (.primitive q)

end Runtime

namespace Use

variable (rt : Runtime)

/-- What is done before the target is evaluated. -/
def before : Use → Evaluation Part Reference Unit
  | assign | compound | update _ _ => pure ()
  | element before _ _ _ => rt.pieces before

/-- What is done behind the target. -/
def rest (load : Evaluation Part Reference JsValue) (store : JsValue → Evaluation Part Reference JsValue) :
    Use → Evaluation Part Reference JsValue
  | assign => rt.evaluate .right >>= store
  | compound => load >>= fun _ => rt.evaluate .right >>= fun _ => rt.evaluate .operation >>= store
  | update isDecrement isPrefix => load >>= fun old => rt.language.toNumeric rt.world old >>= fun p =>
    store (.primitive (rt.step isDecrement p)) >>= rt.updateResult isPrefix old
  | element _ after value hasInit => rt.pieces after >>= fun _ => rt.evaluate (.piece value) >>= fun v =>
    rt.default hasInit v >>= store

end Use

/-! ## The code of an expression -/

section Run

variable {rt : Runtime}

theorem run_binary (lhs : ℕ) (code : List Ins) (r : Registers) :
    run rt (.binary lhs :: code) r =
      rt.evaluate .operation >>= fun v => run rt code { r with acc := v } := by
  rw [run_cons, Registers.step, Process.bind_assoc]
  rfl

theorem run_incdec (isDecrement : Bool) (k : ℕ) (code : List Ins) (r : Registers) :
    run rt ((if isDecrement then .decdyn k else .incdyn k) :: code) r =
      rt.language.toNumeric rt.world (r.reg k) >>= fun p =>
        run rt code { r with acc := .primitive (rt.step isDecrement p) } := by
  cases isDecrement with
  | true =>
    rw [if_pos rfl, run_cons, Registers.step, Process.bind_assoc]
    rfl
  | false =>
    rw [if_neg (by simp), run_cons, Registers.step, Process.bind_assoc]
    rfl

theorem run_tonumber (k : ℕ) (r : Registers) :
    run rt [.tonumber k] r = rt.world.toPrimitive .number (r.reg k) >>= fun p =>
      completion (rt.tonumber p) >>= fun q => pure (.primitive q) := by
  rw [run_cons, Registers.step, Process.bind_assoc]
  simp only [Process.bind_assoc]
  rfl

theorem run_compileDefault (hasInit : Bool) (t : Temps) (r : Registers) {code : List Ins}
    {F : JsValue → Evaluation Part Reference JsValue}
    (h : ∀ r', Keeps t r r' → run rt code r' = F r'.acc) :
    run rt ((if hasInit then [.compileDefault .initializer t] else []) ++ code) r =
      rt.default hasInit r.acc >>= F := by
  cases hasInit with
  | false => exact h r (Keeps.refl t r)
  | true =>
    show run rt (.compileDefault .initializer t :: code) r = _
    rw [run_cons, Registers.step, Runtime.default]
    by_cases hacc : r.acc = .primitive .undefined
    · rw [if_pos hacc, if_pos ⟨rfl, hacc⟩, Process.bind_assoc]
      exact congrArg (rt.evaluate .initializer >>= ·) (funext fun v => h _ (Keeps.behind rt _ v))
    · rw [if_neg hacc, if_neg fun hdef => hacc hdef.2]
      exact h r (Keeps.refl t r)

theorem run_pieces (ns : List ℕ) (t : Temps) (r : Registers) {code : List Ins}
    {o : Evaluation Part Reference JsValue} (h : ∀ r', Keeps t r r' → run rt code r' = o) :
    run rt ((ns.map fun n => .compile (.piece n) t) ++ code) r = rt.pieces ns >>= fun _ => o := by
  induction ns generalizing r with
  | nil => exact h r (Keeps.refl t r)
  | cons n ns ih =>
    rw [List.map_cons, List.cons_append, run_compile, Runtime.pieces, Process.bind_assoc]
    refine congrArg (rt.evaluate (.piece n) >>= ·) (funext fun v => ?_)
    exact ih _ fun r' hr' => h r' ((Keeps.behind rt _ v).trans hr')

end Run

theorem LReference.Live.mono {t t' : Temps} {lref : LReference V} (h : lref.Live t)
    (ht : ∀ k, t.InUse k → t'.InUse k) : lref.Live t' := by
  unfold LReference.Live at h ⊢
  cases hnode : lref.node with
  | binding v => exact trivial
  | member key | superMember key =>
    rw [hnode] at h
    exact ⟨ht _ h.1, fun hkey => ht _ (h.2 hkey)⟩
  | parenthesized target =>
    rw [hnode] at h
    exact h

/-- What `SetValue` stores, which is in the accumulator then. -/
def Stored.store (stored : Stored V) (vars : Variables V) (rt : Runtime) (node : Target V) (res : Resolved V)
    (v : JsValue) : Evaluation Part Reference JsValue :=
  storeResolved rt vars (stored.value rt node v) (stored.target rt.toMachine node res) >>= fun _ =>
    pure (stored.value rt node v)

namespace LReferenceCode.Lawful

variable {c : LReferenceCode V} {vars : Variables V} {stored : Stored V} {superBase : Runtime → JsValue → Prop}
  {rt : Runtime} {lref : LReference V} {g : JsValue} {res : Resolved V} {r : Registers} {t : Temps}

section

variable (hc : c.Lawful vars stored superBase) (ht : t.WellFormed) (hlive : lref.Live t) (hg : superBase rt g) (hholds : lref.Holds rt g r res)
include hc ht hlive hg hholds

theorem run_set_end :
    run rt (c.set lref t) r = stored.store vars rt lref.node res r.acc := by
  have h : run rt (c.set lref t ++ []) r = stored.store vars rt lref.node res r.acc :=
    hc.run_set ht hlive hg hholds fun r' _ hacc => by rw [run_nil, hacc]
  rwa [List.append_nil] at h

theorem run_assign_rest :
    run rt (.compile .right t :: c.set lref t) r =
      Use.rest rt (loadResolved rt vars g res) (stored.store vars rt lref.node res) .assign := by
  rw [run_compile]
  refine congrArg (rt.evaluate .right >>= ·) (funext fun v => ?_)
  exact hc.run_set_end ht hlive hg (hholds.of_keeps hlive (Keeps.behind rt _ v))

theorem run_compound_rest :
    run rt (c.get lref t.getTemp.2 ++ Ins.sta t.getTemp.1 :: Ins.compile .right t.getTemp.2 :: Ins.binary t.getTemp.1 ::
        c.set lref (c.release t.getTemp.2 [t.getTemp.1])) r =
      Use.rest rt (loadResolved rt vars g res) (stored.store vars rt lref.node res) .compound := by
  have hkept : ∀ k, t.InUse k → t.getTemp.2.InUse k := fun k hk => hk.getTemp
  have hreleased : ∀ k, t.InUse k → (c.release t.getTemp.2 [t.getTemp.1]).InUse k := fun k hk =>
    hc.release_inUse hk.getTemp (by simpa using hk.ne_getTemp)
  refine hc.run_get ht.getTemp (hlive.mono hkept) hholds fun r₁ hr₁ => ?_
  rw [run_sta, run_compile]
  refine congrArg (rt.evaluate .right >>= ·) (funext fun v => ?_)
  rw [run_binary]
  refine congrArg (rt.evaluate .operation >>= ·) (funext fun x => ?_)
  refine hc.run_set_end (hc.release_wellFormed ht.getTemp ht.inUse_getTemp) (hlive.mono hreleased) hg
    (hholds.of_keeps hlive ?_)
  exact (hr₁.mono hkept).trans ((Keeps.update not_inUse_getTemp r₁.acc r₁.acc).trans
    (((Keeps.behind rt .right v).mono hkept).trans (Keeps.acc x)))

end

theorem run_update_rest (hc : c.Lawful vars stored superBase) {k : ℕ} (ht : t.WellFormed)
    (hlive : lref.Live t) (hk : t.InUse k) (hapart : lref.Apart k) (hg : superBase rt g)
    (hholds : lref.Holds rt g r res) (isDecrement isPrefix : Bool) :
    run rt (c.get lref t ++ Ins.sta k :: (if isDecrement then Ins.decdyn k else Ins.incdyn k) ::
        (c.set lref t ++ if isPrefix then [] else [.tonumber k])) r =
      Use.rest rt (loadResolved rt vars g res) (stored.store vars rt lref.node res)
        (.update isDecrement isPrefix) := by
  refine hc.run_get ht hlive hholds fun r₁ hr₁ => ?_
  rw [run_sta, run_incdec]
  have hold : Function.update r₁.reg k r₁.acc k = r₁.acc := reg_update ..
  simp only [hold]
  refine congrArg (rt.language.toNumeric rt.world r₁.acc >>= ·) (funext fun p => ?_)
  rw [Stored.store, Process.bind_assoc]
  refine hc.run_set ht hlive hg ((hholds.of_keeps hlive hr₁).update hapart _ _) fun r₂ hr₂ hacc => ?_
  cases isPrefix with
  | true =>
    rw [if_pos rfl, run_nil, hacc]
    rfl
  | false =>
    rw [if_neg (by simp), run_tonumber, hr₂ k hk]
    simp only [hold]
    rfl

theorem run_element_rest (hc : c.Lawful vars stored superBase) (ht : t.WellFormed)
    (hlive : lref.Live t) (hg : superBase rt g) (hholds : lref.Holds rt g r res)
    (before after : List ℕ) (value : ℕ) (hasInit : Bool) (load : Evaluation Part Reference JsValue) :
    run rt ((after.map fun n => Ins.compile (.piece n) t) ++ Ins.compile (.piece value) t ::
        ((if hasInit then [.compileDefault .initializer t] else []) ++ c.set lref t)) r =
      Use.rest rt load (stored.store vars rt lref.node res) (.element before after value hasInit) := by
  refine run_pieces after t r fun r₁ hr₁ => ?_
  rw [run_compile]
  refine congrArg (rt.evaluate (.piece value) >>= ·) (funext fun v => ?_)
  refine run_compileDefault hasInit t _ fun r₂ hr₂ => ?_
  exact hc.run_set_end ht hlive hg (hholds.of_keeps hlive (hr₁.trans ((Keeps.behind rt _ v).trans hr₂)))

/-- The code of an expression evaluates the parts of the target and goes on with its own loads and stores. -/
theorem run_compile (hc : c.Lawful vars stored superBase) (rt : Runtime) (u : Use)
    (target : Target V) (ht : t.WellFormed) (r : Registers) : ∃ g, superBase rt g ∧
      run rt (c.compile u target t) r = u.before rt >>= fun _ => evaluateTarget rt target >>= fun res =>
        u.rest rt (loadResolved rt vars g res) (stored.store vars rt target.inner res) := by
  cases u with
  | assign =>
    obtain ⟨g, hg, hcreate⟩ := hc.run_create rt target r ht
    refine ⟨g, hg, hcreate fun r₁ res hholds _ => ?_⟩
    rw [← hc.create_node target t]
    exact hc.run_assign_rest (hc.create_wellFormed target ht) (hc.create_live target ht) hg hholds
  | compound =>
    obtain ⟨g, hg, hcreate⟩ := hc.run_create rt target r ht
    refine ⟨g, hg, hcreate fun r₁ res hholds _ => ?_⟩
    rw [← hc.create_node target t]
    exact hc.run_compound_rest (hc.create_wellFormed target ht) (hc.create_live target ht) hg hholds
  | update isDecrement isPrefix =>
    obtain ⟨g, hg, hcreate⟩ := hc.run_create rt target r ht.getTemp
    refine ⟨g, hg, hcreate fun r₁ res hholds _ => ?_⟩
    have hoperand := ht.inUse_getTemp
    rw [← hc.create_node target t.getTemp.2]
    exact hc.run_update_rest (hc.create_wellFormed target ht.getTemp) (hc.create_live target ht.getTemp)
      (hc.create_inUse target ht.getTemp hoperand) (hc.create_apart target ht.getTemp hoperand) hg hholds
      isDecrement isPrefix
  | element before after value hasInit =>
    obtain ⟨g, hg, -⟩ := hc.run_create rt target r ht
    refine ⟨g, hg, run_pieces before t r fun r₁ _ => ?_⟩
    obtain ⟨g', hg', hcreate⟩ := hc.run_create rt target r₁ ht
    refine hcreate fun r₂ res hholds _ => ?_
    rw [← hc.create_node target t]
    exact hc.run_element_rest (hc.create_wellFormed target ht) (hc.create_live target ht) hg' hholds before after
      value hasInit _

end LReferenceCode.Lawful

/-! ## The parts of a target -/

/-- The key of a target, if it is no variable. -/
def Target.key? : Target V → Option Key
  | .binding _ => none
  | .member key | .superMember key => some key
  | .parenthesized t => t.key?

/-- The value of a key, where the values of the key expression are known to some degree. -/
def DenotesKey (P : JsValue → Prop) (key : Key) (k : JsValue) : Prop :=
  match key with
  | .literal l => k = .primitive l.value
  | .expression => P k

/-- What the parts of a target denote. -/
def Denotes (P : JsValue → Prop) (target : Target V) : Resolved V → Prop
  | .binding v => target.inner = .binding v
  | .property isSuper _ k => ∃ key,
    target.inner = (if isSuper then .superMember key else .member key) ∧ DenotesKey P key k

section Evaluate

variable {rt : Runtime} {P : JsValue → Prop}

theorem key_of_evaluateKey (hP : ∀ h k, rt.world.answer (h ++ [Event.evaluate Part.key]) = .ok k → P k) {key : Key}
    {h h' : History} {k : JsValue} (hk : evaluateKey rt key h = (.value k, h')) : DenotesKey P key k := by
  cases key with
  | literal l =>
    cases hk
    rfl
  | expression =>
    change completion (rt.world.answer (h ++ [Event.evaluate Part.key])) (h ++ [Event.evaluate Part.key]) = _ at hk
    cases hanswer : rt.world.answer (h ++ [Event.evaluate Part.key]) with
    | error e => simp [hanswer] at hk
    | ok v =>
      rw [hanswer, completion_ok] at hk
      cases hk
      exact hP h _ hanswer

theorem denotes_of_evaluateTarget (hP : ∀ h k, rt.world.answer (h ++ [Event.evaluate Part.key]) = .ok k → P k)
    {target : Target V} {h h' : History} {res : Resolved V}
    (hres : evaluateTarget rt target h = (.value res, h')) : Denotes P target res := by
  induction target with
  | binding v =>
    cases hres
    rfl
  | member key =>
    obtain ⟨base, h₁, -, hrest⟩ := Process.of_bind_value hres
    obtain ⟨k, h₂, hk, hend⟩ := Process.of_bind_value hrest
    cases hend
    exact ⟨key, rfl, key_of_evaluateKey hP hk⟩
  | superMember key =>
    obtain ⟨k, h₁, hk, hend⟩ := Process.of_bind_value hres
    cases hend
    exact ⟨key, rfl, key_of_evaluateKey hP hk⟩
  | parenthesized target ih => exact ih hres

theorem evaluateKey_value {key : Key} (hkey : key = .expression → ∀ h, ∃ k,
    rt.world.answer (h ++ [Event.evaluate Part.key]) = .ok k) (h : History) :
    ∃ k h', evaluateKey rt key h = (.value k, h') := by
  cases key with
  | literal l => exact ⟨_, h, rfl⟩
  | expression =>
    obtain ⟨k, hk⟩ := hkey rfl h
    refine ⟨k, h ++ [Event.evaluate Part.key], ?_⟩
    change completion (rt.world.answer (h ++ [Event.evaluate Part.key])) (h ++ [Event.evaluate Part.key]) = _
    rw [hk, completion_ok]

theorem evaluateTarget_value {target : Target V}
    (hobject : ∀ h, ∃ v, rt.world.answer (h ++ [Event.evaluate Part.object]) = .ok v)
    (hkey : target.key? = some .expression → ∀ h, ∃ k, rt.world.answer (h ++ [Event.evaluate Part.key]) = .ok k)
    (h : History) : ∃ res h', evaluateTarget rt target h = (.value res, h') := by
  induction target with
  | binding v => exact ⟨.binding v, h, rfl⟩
  | member key =>
    obtain ⟨base, hbase⟩ := hobject h
    obtain ⟨k, h', hk⟩ := evaluateKey_value (fun he : key = .expression => hkey (congrArg some he))
      (h ++ [Event.evaluate Part.object])
    refine ⟨.property false base k, h', ?_⟩
    rw [evaluateTarget]
    refine (perform_bind_ok hbase _).trans ?_
    rw [Process.bind_value hk]
    rfl
  | superMember key =>
    obtain ⟨k, h', hk⟩ := evaluateKey_value (fun he : key = .expression => hkey (congrArg some he)) h
    refine ⟨.property true rt.this k, h', ?_⟩
    rw [evaluateTarget, Process.bind_value hk]
    rfl
  | parenthesized target ih => exact ih hkey

end Evaluate

end ArkTs2abc.References
