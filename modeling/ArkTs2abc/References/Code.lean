import ArkTs2abc.References.Target

/-!
# References in both compilers

`LReference` evaluates the parts of a target when it is made, and keeps them in registers for `GetValue` and
`SetValue`. es2panda reads a property that `super` should find from `this`; ts2panda reads it from a register
that it has not set.

## Main definitions

* `Es2panda.createLRef`, `Es2panda.getValue`, `Es2panda.setValue` and their likes in `Ts2panda`.
* `LReferenceCode` — a compiler's references; `compileAssign`, `compileUpdate`, … use them.
* `evaluateTarget`, `loadResolved`, `storeResolved` — what the code should do.

## Main results

* `run_cons` — a run, instruction by instruction.
* `Es2panda.variableCode_lawful`, `Ts2panda.variableCode_lawful` — loads and stores of variables.
-/

namespace ArkTs2abc.References

open StructuredCode Conversions
open Ts2panda.PropertyAccess (Temps)

variable {V : Type}

/-- A reference in the compiler, with its registers. -/
structure LReference (V : Type) where
  node : Target V
  obj : ℕ
  prop : ℕ

namespace Es2panda

/-- `PandaGen::ToPropertyKey`. -/
def toPropertyKey (key : Key) (t : Temps) : List Ins × ℕ × Temps :=
  match key with
  | .literal _ => ([], 0, t)
  | .expression =>
    let (propReg, t) := t.getTemp
    ([.compile .key t, .sta propReg], propReg, t)

/-- The operand that `ToPropertyKey` returns. -/
def operand (key : Key) (prop : ℕ) : Operand :=
  match key with
  | .literal k => .literal k
  | .expression => .register prop

/-- `LReference::CreateLRef`. Parentheses are not in the tree. -/
def createLRef : Target V → Temps → List Ins × LReference V × Temps
  | .binding v, t => ([], ⟨.binding v, 0, 0⟩, t)
  | .member key, t =>
    let (obj, t) := t.getTemp
    let (code, prop, t') := toPropertyKey key t
    (.compile .object t :: .sta obj :: code, ⟨.member key, obj, prop⟩, t')
  | .superMember key, t =>
    let (obj, t) := t.getTemp
    let (code, prop, t') := toPropertyKey key t
    (.ldThis :: .sta obj :: code, ⟨.superMember key, obj, prop⟩, t')
  | .parenthesized target, t => createLRef target t

variable (vars : Variables V)

/-- `LReference::GetValue`. -/
def getValue (lref : LReference V) (_ : Temps) : List Ins :=
  match lref.node with
  | .binding v => vars.load v
  | .member key | .superMember key => [.ldObj lref.obj (operand key lref.prop)]
  | .parenthesized _ => []

/-- `PandaGen::StoreSuperProperty`. -/
def storeSuperProperty (obj : ℕ) (prop : Operand) (t : Temps) : List Ins :=
  match prop with
  | .literal (.number bits _) =>
    let (property, t) := t.getTemp
    let (value, _) := t.getTemp
    [.sta value, .ldNumber bits, .sta property, .lda value, .stSuper obj (.register property)]
  | .literal (.name _) | .register _ => [.stSuper obj prop]

/-- `LReference::SetValue`. -/
def setValue (lref : LReference V) (t : Temps) : List Ins :=
  match lref.node with
  | .binding v => vars.store v
  | .member key => [.stObj lref.obj (operand key lref.prop)]
  | .superMember key => storeSuperProperty lref.obj (operand key lref.prop) t
  | .parenthesized _ => []

end Es2panda

namespace Ts2panda

/-- The key of `getObjAndProp`, with the registers in use. -/
def compileProp (key : Key) (propReg : ℕ) (t : Temps) : List Ins :=
  match key with
  | .literal _ => []
  | .expression => [.compile .key t, .sta propReg]

/-- The key of `setObjectAndProperty`. -/
def moveProp (key : Key) (prop propReg : ℕ) : List Ins :=
  match key with
  | .literal _ => []
  | .expression => [.mov prop propReg]

/-- `LReference.generateLReference`, which takes the target out of its parentheses. -/
def generateLReference : Target V → Temps → List Ins × LReference V × Temps
  | .binding v, t => ([], ⟨.binding v, 0, 0⟩, t)
  | .member key, t =>
    let (obj, t) := t.getTemp
    let (prop, t) := t.getTemp
    let (objReg, t) := t.getTemp
    let (propReg, t) := t.getTemp
    (.compile .object t :: .sta objReg :: (compileProp key propReg t ++ .mov obj objReg ::
      moveProp key prop propReg), ⟨.member key, obj, prop⟩, t.freeTemps [objReg, propReg])
  | .superMember key, t =>
    let (obj, t) := t.getTemp
    let (prop, t) := t.getTemp
    let (objReg, t) := t.getTemp
    let (propReg, t) := t.getTemp
    (compileProp key propReg t ++ moveProp key prop propReg, ⟨.superMember key, obj, prop⟩,
      t.freeTemps [objReg, propReg])
  | .parenthesized target, t => generateLReference target t

variable (vars : Variables V)

/-- `loadObjProperty`. -/
def loadObjProperty (obj : ℕ) (key : Key) (prop : ℕ) (t : Temps) : List Ins :=
  match key with
  | .literal (.number bits false) =>
    let (propReg, _) := t.getTemp
    [.ldNumber bits, .sta propReg, .ldObj obj (.register propReg)]
  | .literal (.number bits true) => [.ldObj obj (.literal (.number bits true))]
  | .literal (.name s) => [.ldObj obj (.literal (.name s))]
  | .expression => [.ldObj obj (.register prop)]

/-- `storeObjProperty`. -/
def storeObjProperty (obj : ℕ) (key : Key) (prop : ℕ) (t : Temps) : List Ins :=
  match key with
  | .literal (.number bits false) =>
    let (valueReg, t) := t.getTemp
    let (propReg, _) := t.getTemp
    [.sta valueReg, .ldNumber bits, .sta propReg, .lda valueReg, .stObj obj (.register propReg)]
  | .literal (.number bits true) => [.stObj obj (.literal (.number bits true))]
  | .literal (.name s) => [.stObj obj (.literal (.name s))]
  | .expression => [.stObj obj (.register prop)]

/-- `storeSuperProperty`. -/
def storeSuperProperty (obj : ℕ) (key : Key) (prop : ℕ) (t : Temps) : List Ins :=
  match key with
  | .literal (.number bits _) =>
    let (propReg, _) := t.getTemp
    [.ldInteger bits, .sta propReg, .stSuper obj (.register propReg)]
  | .literal (.name s) => [.stSuper obj (.literal (.name s))]
  | .expression => [.stSuper obj (.register prop)]

/-- `LReference.getValue`. -/
def getValue (lref : LReference V) (t : Temps) : List Ins :=
  match lref.node with
  | .binding v => vars.load v
  | .member key | .superMember key => loadObjProperty lref.obj key lref.prop t
  | .parenthesized _ => []

/-- `getThis`: a variable in the environment goes through the accumulator, another one from its register. -/
def getThis (thisIsLexVar : Bool) (res : ℕ) : List Ins :=
  if thisIsLexVar then [.ldThis, .sta res] else [.movThis res]

/-- `LReference.setValue`. -/
def setValue (thisIsLexVar : Bool) (lref : LReference V) (t : Temps) : List Ins :=
  match lref.node with
  | .binding v => vars.store v
  | .member key => storeObjProperty lref.obj key lref.prop t
  | .superMember key =>
    let (thisReg, t) := t.getTemp
    getThis thisIsLexVar thisReg ++ storeSuperProperty thisReg key lref.prop t
  | .parenthesized _ => []

end Ts2panda

/-! ## Expressions with a target -/

/-- The references of a compiler. -/
structure LReferenceCode (V : Type) where
  create : Target V → Temps → List Ins × LReference V × Temps
  get : LReference V → Temps → List Ins
  set : LReference V → Temps → List Ins
  /-- What becomes of registers that are not needed any more. -/
  release : Temps → List ℕ → Temps

namespace LReferenceCode

variable (c : LReferenceCode V)

/-- An assignment with `=`: `AssignmentExpression::Compile`, `compileAssignmentExpression`. -/
def compileAssign (target : Target V) (t : Temps) : List Ins :=
  let (code, lref, t) := c.create target t
  code ++ .compile .right t :: c.set lref t

/-- An assignment with an operator. -/
def compileCompound (target : Target V) (t : Temps) : List Ins :=
  let (code, lref, t) := c.create target t
  let (lhs, t) := t.getTemp
  code ++ (c.get lref t ++ .sta lhs :: .compile .right t :: .binary lhs :: c.set lref (c.release t [lhs]))

/-- `UpdateExpression::Compile`, `compilePrefixUnaryExpression` and `compilePostfixUnaryExpression`. -/
def compileUpdate (isDecrement isPrefix : Bool) (target : Target V) (t : Temps) : List Ins :=
  let (operandReg, t) := t.getTemp
  let (code, lref, t) := c.create target t
  code ++ (c.get lref t ++ .sta operandReg ::
    (if isDecrement then .decdyn operandReg else .incdyn operandReg) ::
      (c.set lref t ++ if isPrefix then [] else [.tonumber operandReg]))

/-- An element of a pattern: what is done before its reference is made, what is done behind until there is a
value, and a default value. -/
def compileElement (before after : List ℕ) (value : ℕ) (hasInit : Bool) (target : Target V) (t : Temps) :
    List Ins :=
  let (code, lref, t') := c.create target t
  (before.map fun n => .compile (.piece n) t) ++ (code ++ ((after.map fun n => .compile (.piece n) t') ++
    .compile (.piece value) t' :: ((if hasInit then [.compileDefault .initializer t'] else []) ++
      c.set lref t')))

end LReferenceCode

def Es2panda.code (vars : Variables V) : LReferenceCode V where
  create := createLRef
  get := getValue vars
  set := setValue vars
  release t _ := t

def Ts2panda.code (vars : Variables V) (thisIsLexVar : Bool) : LReferenceCode V where
  create := generateLReference
  get := getValue vars
  set := setValue vars thisIsLexVar
  release := Temps.freeTemps

/-! ## What the code does -/

variable (rt : Runtime)

/-- The value of a key. -/
def evaluateKey : Key → Evaluation Part Reference JsValue
  | .literal k => pure (.primitive k.value)
  | .expression => rt.evaluate .key

/-- The parts of a target, from left to right. -/
def evaluateTarget : Target V → Evaluation Part Reference (Resolved V)
  | .binding v => pure (.binding v)
  | .member key => rt.evaluate .object >>= fun base => evaluateKey rt key >>= fun k =>
    pure (.property false base k)
  | .superMember key => evaluateKey rt key >>= fun k => pure (.property true rt.this k)
  | .parenthesized t => evaluateTarget t

/-- What `GetValue` does, where a property of `super` is read from some value. -/
def loadResolved (vars : Variables V) (g : JsValue) : Resolved V → Evaluation Part Reference JsValue
  | .binding v => rt.getValue (.binding (vars.place v))
  | .property isSuper base key => rt.property false (if isSuper then g else base) key >>= rt.getValue

/-- What `SetValue` does. -/
def storeResolved (vars : Variables V) (x : JsValue) : Resolved V → Evaluation Part Reference Unit
  | .binding v =>
    if vars.immutable v then Process.throwing rt.language.typeError
    else if vars.hole v then Process.throwing rt.language.referenceError
    else rt.putValue (.binding (vars.place v)) x
  | .property isSuper base key => rt.property isSuper base key >>= fun ref => rt.putValue ref x

variable {rt}

attribute [local simp] Registers.step in
theorem run_cons (i : Ins) (code : List Ins) (r : Registers) :
    run rt (i :: code) r = r.step rt i >>= fun r => run rt code r := by
  rw [run, Registers.exec, Process.bind_assoc]
  rfl

theorem run_nil (r : Registers) : run rt [] r = pure r.acc := rfl

theorem reg_update (reg : ℕ → JsValue) (k : ℕ) (x : JsValue) : Function.update reg k x k = x :=
  Function.update_self ..

theorem run_of_step {i : Ins} {r r' : Registers} (h : r.step rt i = pure r') (code : List Ins) :
    run rt (i :: code) r = run rt code r' := by
  rw [run_cons, h]
  rfl

theorem run_sta (k : ℕ) (code : List Ins) (r : Registers) :
    run rt (.sta k :: code) r = run rt code { r with reg := Function.update r.reg k r.acc } :=
  run_of_step rfl code

theorem run_lda (k : ℕ) (code : List Ins) (r : Registers) :
    run rt (.lda k :: code) r = run rt code { r with acc := r.reg k } :=
  run_of_step rfl code

theorem run_mov (vd vs : ℕ) (code : List Ins) (r : Registers) :
    run rt (.mov vd vs :: code) r = run rt code { r with reg := Function.update r.reg vd (r.reg vs) } :=
  run_of_step rfl code

theorem run_ldNumber (bits : BitVec 64) (code : List Ins) (r : Registers) :
    run rt (.ldNumber bits :: code) r = run rt code { r with acc := .primitive (.number bits) } :=
  run_of_step rfl code

theorem run_ldInteger (bits : BitVec 64) (code : List Ins) (r : Registers) :
    run rt (.ldInteger bits :: code) r =
      run rt code { r with acc := .primitive (.number (rt.integer bits)) } :=
  run_of_step rfl code

theorem run_ldThis (code : List Ins) (r : Registers) :
    run rt (.ldThis :: code) r = run rt code { r with acc := rt.this } :=
  run_of_step rfl code

theorem run_movThis (vd : ℕ) (code : List Ins) (r : Registers) :
    run rt (.movThis vd :: code) r = run rt code { r with reg := Function.update r.reg vd rt.this } :=
  run_of_step rfl code

theorem run_compile (part : Part) (t : Temps) (code : List Ins) (r : Registers) :
    run rt (.compile part t :: code) r =
      rt.evaluate part >>= fun v => run rt code (r.behind rt part t v) := by
  rw [run_cons, Registers.step, Process.bind_assoc]
  rfl

section

variable (obj : ℕ) (key : Operand) (code : List Ins) (r : Registers)
include obj key code r

theorem run_ldObj :
    run rt (.ldObj obj key :: code) r = rt.property false (r.reg obj) (r.operand key) >>= fun ref =>
      rt.getValue ref >>= fun v => run rt code { r with acc := v } := by
  rw [run_cons, Registers.step, Process.bind_assoc]
  simp only [Process.bind_assoc]
  rfl

theorem run_stObj :
    run rt (.stObj obj key :: code) r = rt.property false (r.reg obj) (r.operand key) >>= fun ref =>
      rt.putValue ref r.acc >>= fun _ => run rt code r := by
  rw [run_cons, Registers.step, Process.bind_assoc]
  simp only [Process.bind_assoc]
  rfl

theorem run_stSuper :
    run rt (.stSuper obj key :: code) r = rt.property true (r.reg obj) (r.operand key) >>= fun ref =>
      rt.putValue ref r.acc >>= fun _ => run rt code r := by
  rw [run_cons, Registers.step, Process.bind_assoc]
  simp only [Process.bind_assoc]
  rfl

end

/-! ## Variables -/

/-- Loads and stores of variables do what they should. -/
structure Variables.Lawful (vars : Variables V) : Prop where
  run_load : ∀ rt v code r, run rt (vars.load v ++ code) r =
    rt.getValue (.binding (vars.place v)) >>= fun x => run rt code { r with acc := x }
  run_store : ∀ rt v code r, run rt (vars.store v ++ code) r =
    storeResolved rt vars r.acc (.binding v) >>= fun _ => run rt code r

theorem run_load {i : Ins} {place : Place} (h : ∀ r : Registers, r.step rt i = r.load rt place)
    (code : List Ins) (r : Registers) : run rt (i :: code) r =
      rt.getValue (.binding place) >>= fun x => run rt code { r with acc := x } := by
  rw [run_cons, h, Registers.load, Process.bind_assoc]
  rfl

theorem run_store {i : Ins} {place : Place} (h : ∀ r : Registers, r.step rt i = r.store rt place)
    (code : List Ins) (r : Registers) : run rt (i :: code) r =
      rt.putValue (.binding place) r.acc >>= fun _ => run rt code r := by
  rw [run_cons, h, Registers.store, Process.bind_assoc]
  rfl

theorem run_throw {i : Ins} {e : JsValue} (h : ∀ r : Registers, r.step rt i = Process.throwing e)
    (code : List Ins) (r : Registers) : run rt (i :: code) r = Process.throwing e := by
  rw [run_cons, h]
  rfl

theorem storeResolved_variable {vars : Variables V} {v : V} (himmutable : vars.immutable v = false)
    (hhole : vars.hole v = false) (x : JsValue) :
    storeResolved rt vars x (.binding v) = rt.putValue (.binding (vars.place v)) x := by
  simp [storeResolved, himmutable, hhole]

theorem storeResolved_immutable {vars : Variables V} {v : V} (h : vars.immutable v = true) (x : JsValue) :
    storeResolved rt vars x (.binding v) = Process.throwing rt.language.typeError := by
  simp [storeResolved, h]

theorem storeResolved_hole {vars : Variables V} {v : V} (himmutable : vars.immutable v = false)
    (h : vars.hole v = true) (x : JsValue) :
    storeResolved rt vars x (.binding v) = Process.throwing rt.language.referenceError := by
  simp [storeResolved, himmutable, h]

theorem Es2panda.variableCode_lawful : Variables.Lawful Es2panda.variableCode where
  run_load rt v code r := by
    cases v with
    | unresolved name | globalVariable name | moduleVariable name | localVariable slot isConst =>
      exact run_load (fun _ => rfl) code r
  run_store rt v code r := by
    cases v with
    | unresolved name | globalVariable name =>
      rw [storeResolved_variable rfl rfl]
      exact run_store (fun _ => rfl) code r
    | moduleVariable name =>
      rw [storeResolved_immutable rfl]
      exact run_throw (fun _ => rfl) code r
    | localVariable slot isConst =>
      cases isConst with
      | true =>
        rw [storeResolved_immutable rfl]
        exact run_throw (fun _ => rfl) code r
      | false =>
        rw [storeResolved_variable rfl rfl]
        exact run_store (fun _ => rfl) code r

theorem Ts2panda.variableCode_lawful : Variables.Lawful Ts2panda.variableCode where
  run_load rt v code r := by
    cases v with
    | localVariable declKind name slot inClass =>
      cases slot <;> exact run_load (fun _ => rfl) code r
    | globalVariable declKind name isStrict =>
      show run rt ((if declKind = .none then _ else _) ++ code) r = _
      split <;> exact run_load (fun _ => rfl) code r
    | moduleVariable declKind name => exact run_load (fun _ => rfl) code r
  run_store rt v code r := by
    cases v with
    | localVariable declKind name slot inClass =>
      cases slot with
      | none =>
        show run rt ((if declKind = .let ∨ declKind = .const then _ else _) ++ code) r = _
        split
        next h =>
          rw [storeResolved_variable rfl (decide_eq_false (not_not.mpr h))]
          exact run_store (fun _ => rfl) code r
        next h =>
          rw [storeResolved_hole rfl (by simpa only [variableCode, decide_eq_true_eq] using h)]
          exact run_throw (fun _ => rfl) code r
      | some slot =>
        show run rt ((if declKind = .const ∨ declKind = .classKind ∧ inClass then _ else _) ++ code) r = _
        split
        next h =>
          rw [storeResolved_immutable (by simpa [variableCode] using h)]
          exact run_throw (fun _ => rfl) code r
        next h =>
          rw [storeResolved_variable (by simpa [variableCode] using h) rfl]
          exact run_store (fun _ => rfl) code r
    | globalVariable declKind name isStrict =>
      rw [storeResolved_variable rfl rfl]
      show run rt ((if declKind = .none ∧ isStrict then _ else _) ++ code) r = _
      split <;> exact run_store (fun _ => rfl) code r
    | moduleVariable declKind name =>
      show run rt ((if declKind = .const then _ else _) ++ code) r = _
      split
      next h =>
        rw [storeResolved_immutable (by simpa [variableCode] using h)]
        exact run_throw (fun _ => rfl) code r
      next h =>
        rw [storeResolved_variable (by simpa [variableCode] using h) rfl]
        exact run_store (fun _ => rfl) code r

end ArkTs2abc.References
