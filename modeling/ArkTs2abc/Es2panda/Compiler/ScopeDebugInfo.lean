import ArkTs2abc.Es2panda.Compiler.RegScope

/-!
# Variable ranges for the debugger

In debug mode a scope remembers the last instruction when it is opened and when it is closed; the scope of the
function remembers the first one instead. When all instructions are there, those of the prologue in front, the
emitter counts up to the two, and gives each variable of the scope that is in a register its range.

A block may be compiled several times, as the finalizer of a `try` statement is, but not within itself.

## Main definitions

* `Code` — what the compilation of a function does to its scopes.
* `compileFunction`, `genScopeVariableInfo` — scopes, instructions and records.
* `Describes` — the records of a scope are right.

## Main results

* `genLoop_range` — what the emitter finds between two nodes.
* `compile_last` — what a scope remembers in the end.
* `variableDebug_iff` — the scopes whose records are right.
-/

namespace ArkTs2abc.Es2panda.ScopeDebugInfo

/-- A variable, as the binder leaves it. -/
structure Variable where
  name : String
  isLocalVariable : Bool
  lexicalBound : Bool
  isParameterDecl : Bool
  deriving DecidableEq, Repr

/-- The variable gets a register. -/
def Variable.inRegister (v : Variable) : Bool := !v.lexicalBound && v.isLocalVariable

inductive ScopeId where
  | function
  | block (n : ℕ)
  deriving DecidableEq, Repr

/-- The bindings of a scope. -/
abbrev Bindings := ScopeId → List Variable

/-- A node of the list of instructions, labels among them: the number of nodes that were made before it. -/
abbrev IRNode := ℕ

/-- What the compilation of a function does. Other classes than `LocalRegScope` do not open a scope. -/
inductive Code where
  | skip
  | seq (first second : Code)
  /-- An instruction or a label. -/
  | emit
  | allocReg
  | regScope (body : Code)
  | localRegScope (n : ℕ) (body : Code)

structure PandaGen where
  insns : List IRNode
  regs : RegCounter
  /-- The registers of variables, by their scopes and names. -/
  vreg : ScopeId → String → VReg
  scopeStart : ScopeId → Option IRNode
  scopeEnd : ScopeId → Option IRNode
  variableDebugInfo : List ScopeId

namespace PandaGen

variable (pg : PandaGen)

def emit : PandaGen := { pg with insns := pg.insns ++ [pg.insns.length] }

def allocReg : PandaGen := { pg with regs := pg.regs.allocReg.2 }

/-- `BindVReg`. -/
def bindVReg (s : ScopeId) (name : String) (r : VReg) : PandaGen :=
  { pg with vreg := Function.update pg.vreg s (Function.update (pg.vreg s) name r) }

/-- Each variable that is to have a register gets a new one. -/
def bindVariables (s : ScopeId) : List Variable → PandaGen → PandaGen
  | [], pg => pg
  | v :: vs, pg =>
    bindVariables s vs (if v.inRegister then (pg.bindVReg s v.name pg.regs.allocReg.1).allocReg else pg)

/-- `RegScope::~RegScope`. -/
def closeRegs (regBase : UInt32) : PandaGen := { pg with regs := pg.regs.closeScope regBase }

/-- `LocalRegScope`. What `back` of an empty list is does not matter; here there is none. -/
def openLocalRegScope (bindings : Bindings) (n : ℕ) : PandaGen :=
  let pg := bindVariables (.block n) (bindings (.block n)) pg
  { pg with
    scopeStart := Function.update pg.scopeStart (.block n) pg.insns.getLast?
    variableDebugInfo := pg.variableDebugInfo ++ [.block n] }

/-- `DebuggerCloseScope`. -/
def debuggerCloseScope (s : ScopeId) : PandaGen :=
  { pg with scopeEnd := Function.update pg.scopeEnd s pg.insns.getLast? }

/-- The registers of parameters, captured ones included. -/
def bindParams : List Variable → PandaGen → PandaGen
  | [], pg => pg
  | v :: vs, pg =>
    let r := pg.regs.allocReg.1
    bindParams vs (if v.lexicalBound then pg.allocReg else pg.allocReg.bindVReg .function v.name r)

/-- `FunctionRegScope`: the parameters, the environment, and the other variables. -/
def openFunctionRegScope (bindings : Bindings) (params : List Variable) : PandaGen :=
  let pg := (bindParams params pg).allocReg
  let pg := bindVariables .function ((bindings .function).filter fun v => !v.isParameterDecl) pg
  { pg with variableDebugInfo := pg.variableDebugInfo ++ [.function] }

/-- `FunctionRegScope::~FunctionRegScope`. -/
def closeFunctionRegScope : PandaGen :=
  { pg with scopeStart := Function.update pg.scopeStart .function pg.insns.head? }.debuggerCloseScope .function

/-- `FrontAllocator`: new instructions go to the front. -/
def emitFront (k : ℕ) : PandaGen := { pg with insns := List.range' pg.insns.length k ++ pg.insns }

end PandaGen

def compile (bindings : Bindings) : Code → PandaGen → PandaGen
  | .skip, pg => pg
  | .seq a b, pg => compile bindings b (compile bindings a pg)
  | .emit, pg => pg.emit
  | .allocReg, pg => pg.allocReg
  | .regScope body, pg => (compile bindings body pg).closeRegs pg.regs.usedRegs
  | .localRegScope n body, pg =>
    ((compile bindings body (pg.openLocalRegScope bindings n)).debuggerCloseScope (.block n)).closeRegs
      pg.regs.usedRegs

namespace Code

/-- The scopes that are opened. -/
def scopes : Code → List ℕ
  | skip | emit | allocReg => []
  | seq a b => a.scopes ++ b.scopes
  | regScope body => body.scopes
  | localRegScope n body => n :: body.scopes

/-- No scope is opened within itself. -/
def Proper : Code → Prop
  | skip | emit | allocReg => True
  | seq a b => a.Proper ∧ b.Proper
  | regScope body => body.Proper
  | localRegScope n body => n ∉ body.scopes ∧ body.Proper

end Code

/-- A function. Its code has no block within itself. -/
structure FunctionCode where
  params : List Variable
  bindings : Bindings
  body : Code
  proper : body.Proper

/-- The instructions of `CopyFunctionArguments`. -/
def argumentNodes (params : List Variable) : ℕ :=
  (params.map fun v => if v.lexicalBound then 2 else 1).sum

/-- The state before anything is compiled. -/
def initial : PandaGen where
  insns := []
  regs := {}
  vreg _ _ := 0
  scopeStart _ := none
  scopeEnd _ := none
  variableDebugInfo := []

namespace FunctionCode

variable (f : FunctionCode)

def opened : PandaGen := initial.openFunctionRegScope f.bindings f.params

/-- `CompileFunctionOrProgram`. -/
def compiled : PandaGen := compile f.bindings f.body f.opened

/-- `Function::Compile`: `CopyFunctionArguments` and the two instructions of `InitializeLexEnv`. -/
def compileFunction : PandaGen := (f.compiled.closeFunctionRegScope.emitFront (argumentNodes f.params)).emitFront 2

end FunctionCode

/-! ## The emitter -/

/-- `local_variable_debug`. -/
structure LocalVariableDebug where
  name : String
  signature : String
  signatureType : String
  reg : VReg
  start : ℕ
  length : ℕ
  deriving DecidableEq, Repr

/-- The records of the variables, once both nodes are found. -/
def variableRecords (pg : PandaGen) (bindings : Bindings) (s : ScopeId) (start varsLength : ℕ) :
    List LocalVariableDebug :=
  ((bindings s).filter fun v => v.isLocalVariable && !v.lexicalBound).map fun v =>
    ⟨v.name, "any", "any", pg.vreg s v.name, start, varsLength⟩

/-- The loop of `GenScopeVariableInfo`. -/
def genLoop (startIns endIns : Option IRNode) (records : ℕ → ℕ → List LocalVariableDebug) :
    List IRNode → ℕ → ℕ → List LocalVariableDebug
  | [], _, _ => []
  | it :: rest, count, start =>
    if startIns = some it then genLoop startIns endIns records rest (count + 1) count
    else if endIns = some it then records start (count - start + 1)
    else genLoop startIns endIns records rest (count + 1) start

def genScopeVariableInfo (pg : PandaGen) (bindings : Bindings) (s : ScopeId) : List LocalVariableDebug :=
  genLoop (pg.scopeStart s) (pg.scopeEnd s) (variableRecords pg bindings s) pg.insns 0 0

/-- `GenVariablesDebugInfo`. -/
def FunctionCode.variableDebug (f : FunctionCode) : List LocalVariableDebug :=
  f.compileFunction.variableDebugInfo.flatMap (genScopeVariableInfo f.compileFunction f.bindings)

/-! ## What the records should be -/

/-- A scope while it is open: the registers of its variables, the nodes made before it and in it. -/
structure Opening where
  scope : ScopeId
  vreg : String → VReg
  first : ℕ
  count : ℕ

/-- The scopes that are opened, in their order. -/
def openings (bindings : Bindings) : Code → PandaGen → List Opening
  | .skip, _ | .emit, _ | .allocReg, _ => []
  | .seq a b, pg => openings bindings a pg ++ openings bindings b (compile bindings a pg)
  | .regScope body, pg => openings bindings body pg
  | .localRegScope n body, pg =>
    let pg' := pg.openLocalRegScope bindings n
    ⟨.block n, pg'.vreg (.block n), pg.insns.length,
      (compile bindings body pg').insns.length - pg.insns.length⟩ :: openings bindings body pg'

namespace FunctionCode

variable (f : FunctionCode)

def openings : List Opening :=
  ⟨.function, f.opened.vreg .function, 0, f.compiled.insns.length⟩ ::
    ScopeDebugInfo.openings f.bindings f.body f.opened

/-- The variables of a scope that should have a record. -/
def registerVariables (s : ScopeId) : List Variable := (f.bindings s).filter Variable.inRegister

/-- The number of instructions in front of those of the function's code. -/
def prologue : ℕ := 2 + argumentNodes f.params

/-- Every variable has one record with its register, and its range covers the nodes that were made while the
scope was open, and no others. -/
def Describes (o : Opening) (records : List LocalVariableDebug) : Prop :=
  (records.map fun r => (r.name, r.reg)) = ((f.registerVariables o.scope).map fun v => (v.name, o.vreg v.name)) ∧
    ∀ r ∈ records, ∀ i, r.start ≤ i ∧ i < r.start + r.length ↔
      f.prologue + o.first ≤ i ∧ i < f.prologue + o.first + o.count

end FunctionCode

/-! ## The loop of the emitter -/

section Loop

variable {startIns endIns : Option IRNode} {records : ℕ → ℕ → List LocalVariableDebug}

theorem genLoop_append {l : List IRNode} (hstart : ∀ it ∈ l, startIns ≠ some it)
    (hend : ∀ it ∈ l, endIns ≠ some it) (rest : List IRNode) (count start : ℕ) :
    genLoop startIns endIns records (l ++ rest) count start =
      genLoop startIns endIns records rest (count + l.length) start := by
  induction l generalizing count with
  | nil => rfl
  | cons it l ih =>
    rw [List.cons_append, genLoop, if_neg (hstart it List.mem_cons_self), if_neg (hend it List.mem_cons_self),
      ih (fun x hx => hstart x (List.mem_cons_of_mem it hx)) fun x hx => hend x (List.mem_cons_of_mem it hx)]
    congr 1
    simp only [List.length_cons]
    omega

theorem genLoop_same (l : List IRNode) (count start : ℕ) :
    genLoop startIns startIns records l count start = [] := by
  induction l generalizing count start with
  | nil => rfl
  | cons it l ih =>
    rw [genLoop]
    split
    · exact ih ..
    · exact ih ..

theorem genLoop_last {e k m : ℕ} (hstart : ∀ i, k ≤ i → startIns ≠ some i) (he : k ≤ e) (hm : e < k + m)
    (count start : ℕ) : genLoop startIns (some e) records (List.range' k m) (count + k) start =
      records start (count + e - start + 1) := by
  induction m generalizing k with
  | zero => omega
  | succ m ih =>
    rw [List.range'_succ, genLoop, if_neg (hstart k le_rfl)]
    by_cases hk : e = k
    · rw [hk, if_pos rfl]
    · rw [if_neg (by simpa using hk)]
      exact ih (fun i hi => hstart i (by omega)) (by omega) (by omega)

theorem genLoop_first {s e k m : ℕ} (hs : k ≤ s) (hse : s < e) (hm : e < k + m) (count start : ℕ) :
    genLoop (some s) (some e) records (List.range' k m) (count + k) start =
      records (count + s) (e - s + 1) := by
  induction m generalizing k with
  | zero => omega
  | succ m ih =>
    rw [List.range'_succ, genLoop]
    by_cases hk : s = k
    · subst hk
      rw [if_pos rfl]
      have hother : ∀ i, s + 1 ≤ i → (some s : Option IRNode) ≠ some i := fun i hi h =>
        Nat.ne_of_lt hi (Option.some.inj h)
      refine (genLoop_last hother hse (by omega) count _).trans ?_
      congr 1
      omega
    · have hek : (some e : Option IRNode) ≠ some k := fun h =>
        Nat.ne_of_gt (Nat.lt_of_le_of_lt hs hse) (Option.some.inj h)
      rw [if_neg (by simpa using hk), if_neg hek]
      exact ih (by omega) (by omega)

end Loop

/-- The last of the first nodes. -/
def lastNode (n : ℕ) : Option IRNode := (List.range n).getLast?

theorem lastNode_zero : lastNode 0 = none := rfl

theorem lastNode_succ (n : ℕ) : lastNode (n + 1) = some n := by
  rw [lastNode, List.range_succ, List.getLast?_concat]

/-- What the emitter finds: `p` nodes of the prologue are in front of `n` others. A range starts with the last
node of those before the scope, if there is one. -/
theorem genLoop_range {records : ℕ → ℕ → List LocalVariableDebug} {l : List IRNode} {n a b : ℕ}
    (hl : ∀ it ∈ l, n ≤ it) (hab : a ≤ b) (hb : b ≤ n) :
    genLoop (lastNode a) (lastNode b) records (l ++ List.range n) 0 0 =
      if a = b then [] else if a = 0 then records 0 (l.length + b)
      else records (l.length + (a - 1)) (b - a + 1) := by
  have hnot : ∀ c ≤ n, ∀ it ∈ l, lastNode c ≠ some it := by
    intro c hc it hit
    cases c with
    | zero => simp [lastNode_zero]
    | succ c =>
      rw [lastNode_succ]
      simp only [ne_eq, Option.some.injEq]
      have := hl it hit
      omega
  rw [genLoop_append (hnot a (hab.trans hb)) (hnot b hb), List.range_eq_range', Nat.zero_add]
  split_ifs with heq hzero
  · rw [heq, genLoop_same]
  · obtain ⟨b, rfl⟩ : ∃ b', b = b' + 1 := ⟨b - 1, by omega⟩
    rw [hzero, lastNode_zero, lastNode_succ]
    exact genLoop_last (by simp) (Nat.zero_le b) (by omega) l.length 0
  · obtain ⟨a, rfl⟩ : ∃ a', a = a' + 1 := ⟨a - 1, by omega⟩
    obtain ⟨b, rfl⟩ : ∃ b', b = b' + 1 := ⟨b - 1, by omega⟩
    rw [lastNode_succ, lastNode_succ]
    refine (genLoop_first (Nat.zero_le a) (by omega) (by omega) l.length 0).trans ?_
    congr 1
    omega

/-! ## What the compilation leaves -/

namespace PandaGen

section

variable (s : ScopeId) (vs : List Variable) (pg : PandaGen)
include s vs pg

@[simp] theorem insns_bindVariables :
    (bindVariables s vs pg).insns = pg.insns := by
  induction vs generalizing pg with
  | nil => rfl
  | cons v vs ih =>
    rw [bindVariables, ih]
    split <;> rfl

@[simp] theorem scopeStart_bindVariables :
    (bindVariables s vs pg).scopeStart = pg.scopeStart := by
  induction vs generalizing pg with
  | nil => rfl
  | cons v vs ih =>
    rw [bindVariables, ih]
    split <;> rfl

@[simp] theorem scopeEnd_bindVariables :
    (bindVariables s vs pg).scopeEnd = pg.scopeEnd := by
  induction vs generalizing pg with
  | nil => rfl
  | cons v vs ih =>
    rw [bindVariables, ih]
    split <;> rfl

@[simp] theorem variableDebugInfo_bindVariables :
    (bindVariables s vs pg).variableDebugInfo = pg.variableDebugInfo := by
  induction vs generalizing pg with
  | nil => rfl
  | cons v vs ih =>
    rw [bindVariables, ih]
    split <;> rfl

end

theorem vreg_bindVariables {s s' : ScopeId} (hs : s' ≠ s) (vs : List Variable) (pg : PandaGen) :
    (bindVariables s vs pg).vreg s' = pg.vreg s' := by
  induction vs generalizing pg with
  | nil => rfl
  | cons v vs ih =>
    rw [bindVariables, ih]
    split
    · exact Function.update_of_ne hs ..
    · rfl

@[simp] theorem insns_openLocalRegScope (pg : PandaGen) (bindings : Bindings) (n : ℕ) :
    (pg.openLocalRegScope bindings n).insns = pg.insns := by
  simp [openLocalRegScope]

@[simp] theorem insns_bindParams (vs : List Variable) (pg : PandaGen) : (bindParams vs pg).insns = pg.insns := by
  induction vs generalizing pg with
  | nil => rfl
  | cons v vs ih =>
    rw [bindParams, ih]
    split <;> rfl

@[simp] theorem variableDebugInfo_bindParams (vs : List Variable) (pg : PandaGen) :
    (bindParams vs pg).variableDebugInfo = pg.variableDebugInfo := by
  induction vs generalizing pg with
  | nil => rfl
  | cons v vs ih =>
    rw [bindParams, ih]
    split <;> rfl

end PandaGen

section Compile

variable (bindings : Bindings)

theorem compile_insns (c : Code) {pg : PandaGen} {n : ℕ} (h : pg.insns = List.range n) :
    ∃ m, n ≤ m ∧ (compile bindings c pg).insns = List.range m := by
  induction c generalizing pg n with
  | skip | allocReg => exact ⟨n, le_rfl, h⟩
  | emit =>
    refine ⟨n + 1, Nat.le_succ n, ?_⟩
    rw [compile, PandaGen.emit, h, List.length_range, List.range_succ]
  | seq a b iha ihb =>
    obtain ⟨m, hm, ha⟩ := iha h
    obtain ⟨k, hk, hb⟩ := ihb ha
    exact ⟨k, hm.trans hk, hb⟩
  | regScope body ih => exact ih h
  | localRegScope s body ih => exact ih ((PandaGen.insns_openLocalRegScope ..).trans h)

theorem length_le_compile (c : Code) (pg : PandaGen) : pg.insns.length ≤ (compile bindings c pg).insns.length := by
  induction c generalizing pg with
  | skip | allocReg => exact le_rfl
  | emit => simp [compile, PandaGen.emit]
  | seq a b iha ihb => exact (iha pg).trans (ihb _)
  | regScope body ih => exact ih pg
  | localRegScope s body ih =>
    have h := ih (pg.openLocalRegScope bindings s)
    rwa [PandaGen.insns_openLocalRegScope] at h

theorem compile_frame (c : Code) {s : ScopeId} (hs : ∀ n ∈ c.scopes, s ≠ .block n) (pg : PandaGen) :
    (compile bindings c pg).scopeStart s = pg.scopeStart s ∧
      (compile bindings c pg).scopeEnd s = pg.scopeEnd s ∧ (compile bindings c pg).vreg s = pg.vreg s := by
  induction c generalizing pg with
  | skip | allocReg | emit => exact ⟨rfl, rfl, rfl⟩
  | seq a b iha ihb =>
    obtain ⟨hstart, hend, hreg⟩ := iha (fun n hn => hs n (List.mem_append_left _ hn)) pg
    obtain ⟨hstart', hend', hreg'⟩ := ihb (fun n hn => hs n (List.mem_append_right _ hn)) (compile bindings a pg)
    exact ⟨hstart'.trans hstart, hend'.trans hend, hreg'.trans hreg⟩
  | regScope body ih => exact ih hs pg
  | localRegScope n body ih =>
    have hne : s ≠ .block n := hs n List.mem_cons_self
    obtain ⟨hstart, hend, hreg⟩ := ih (fun k hk => hs k (List.mem_cons_of_mem n hk)) (pg.openLocalRegScope bindings n)
    refine ⟨hstart.trans ?_, (Function.update_of_ne hne ..).trans (hend.trans ?_), hreg.trans ?_⟩
    · simp [PandaGen.openLocalRegScope, Function.update_of_ne hne]
    · simp [PandaGen.openLocalRegScope]
    · exact PandaGen.vreg_bindVariables hne ..

theorem compile_variableDebugInfo (c : Code) (pg : PandaGen) : (compile bindings c pg).variableDebugInfo =
    pg.variableDebugInfo ++ (openings bindings c pg).map Opening.scope := by
  induction c generalizing pg with
  | skip | allocReg | emit => exact (List.append_nil _).symm
  | seq a b iha ihb => rw [compile, ihb, iha, openings, List.map_append, List.append_assoc]
  | regScope body ih => exact ih pg
  | localRegScope n body ih =>
    refine (ih _).trans ?_
    simp [PandaGen.openLocalRegScope, openings]

theorem openings_bounds (c : Code) {pg : PandaGen} {o : Opening} (ho : o ∈ openings bindings c pg) :
    (∃ n ∈ c.scopes, o.scope = .block n) ∧ pg.insns.length ≤ o.first ∧
      o.first + o.count ≤ (compile bindings c pg).insns.length := by
  induction c generalizing pg with
  | skip | allocReg | emit => cases ho
  | seq a b iha ihb =>
    rcases List.mem_append.mp ho with ho | ho
    · obtain ⟨⟨n, hn, hscope⟩, hfirst, hlast⟩ := iha ho
      exact ⟨⟨n, List.mem_append_left _ hn, hscope⟩, hfirst, hlast.trans (length_le_compile bindings b _)⟩
    · obtain ⟨⟨n, hn, hscope⟩, hfirst, hlast⟩ := ihb ho
      exact ⟨⟨n, List.mem_append_right _ hn, hscope⟩, (length_le_compile bindings a pg).trans hfirst, hlast⟩
  | regScope body ih => exact ih ho
  | localRegScope n body ih =>
    have hle := length_le_compile bindings body (pg.openLocalRegScope bindings n)
    rw [PandaGen.insns_openLocalRegScope] at hle
    rcases List.mem_cons.mp ho with rfl | ho
    · exact ⟨⟨n, List.mem_cons_self, rfl⟩, le_rfl, Nat.le_of_eq (Nat.add_sub_cancel' hle)⟩
    · obtain ⟨⟨k, hk, hscope⟩, hfirst, hlast⟩ := ih ho
      rw [PandaGen.insns_openLocalRegScope] at hfirst
      exact ⟨⟨k, List.mem_cons_of_mem n hk, hscope⟩, hfirst, hlast⟩

theorem getLast?_insns {pg : PandaGen} {n : ℕ} (h : pg.insns = List.range n) :
    pg.insns.getLast? = lastNode pg.insns.length := by
  rw [h, List.length_range, lastNode]

/-- What a block remembers is from its last opening; the others are over by then. -/
theorem compile_last {c : Code} (hc : c.Proper) {pg : PandaGen} {k : ℕ} (hpg : pg.insns = List.range k) {n : ℕ}
    (hn : n ∈ c.scopes) : ∃ o ∈ openings bindings c pg,
      (compile bindings c pg).scopeStart (.block n) = lastNode o.first ∧
      (compile bindings c pg).scopeEnd (.block n) = lastNode (o.first + o.count) ∧
      ∀ o' ∈ openings bindings c pg, o'.scope = .block n → o' = o ∨ o'.first + o'.count ≤ o.first := by
  induction c generalizing pg k with
  | skip | allocReg | emit => cases hn
  | regScope body ih => exact ih hc hpg hn
  | seq a b iha ihb =>
    obtain ⟨m, -, ha⟩ := compile_insns bindings a hpg
    by_cases hb : n ∈ b.scopes
    · obtain ⟨o, ho, hstart, hend, hlast⟩ := ihb hc.2 ha hb
      refine ⟨o, List.mem_append_right _ ho, hstart, hend, fun o' ho' hscope => ?_⟩
      rcases List.mem_append.mp ho' with ho' | ho'
      · exact .inr ((openings_bounds bindings a ho').2.2.trans (openings_bounds bindings b ho).2.1)
      · exact hlast o' ho' hscope
    · obtain ⟨o, ho, hstart, hend, hlast⟩ := iha hc.1 hpg ((List.mem_append.mp hn).resolve_right hb)
      have hne : ∀ k ∈ b.scopes, ScopeId.block n ≠ .block k := by
        rintro k hk ⟨⟩
        exact hb hk
      obtain ⟨hstart', hend', -⟩ := compile_frame bindings b hne (compile bindings a pg)
      refine ⟨o, List.mem_append_left _ ho, hstart'.trans hstart, hend'.trans hend, fun o' ho' hscope => ?_⟩
      rcases List.mem_append.mp ho' with ho' | ho'
      · exact hlast o' ho' hscope
      · obtain ⟨k, hk, hk'⟩ := (openings_bounds bindings b ho').1
        exact absurd (hscope.symm.trans hk') (hne k hk)
  | localRegScope s body ih =>
    have hopen : (pg.openLocalRegScope bindings s).insns = List.range k :=
      (PandaGen.insns_openLocalRegScope ..).trans hpg
    obtain ⟨m, -, hbody⟩ := compile_insns bindings body hopen
    by_cases hs : n = s
    · subst hs
      have hne : ∀ k ∈ body.scopes, ScopeId.block n ≠ .block k := by
        rintro k hk ⟨⟩
        exact hc.1 hk
      have hle := length_le_compile bindings body (pg.openLocalRegScope bindings n)
      rw [PandaGen.insns_openLocalRegScope] at hle
      refine ⟨_, List.mem_cons_self, ?_, ?_, fun o' ho' hscope => ?_⟩
      · refine (compile_frame bindings body hne _).1.trans ?_
        refine (Function.update_self ..).trans ?_
        rw [PandaGen.insns_bindVariables, getLast?_insns hpg]
      · refine (Function.update_self ..).trans ?_
        rw [getLast?_insns hbody, Nat.add_sub_cancel' hle]
      · rcases List.mem_cons.mp ho' with rfl | ho'
        · exact .inl rfl
        · obtain ⟨k, hk, hk'⟩ := (openings_bounds bindings body ho').1
          exact absurd (hscope.symm.trans hk') (hne k hk)
    · have hblock : ScopeId.block n ≠ .block s := by
        rintro ⟨⟩
        exact hs rfl
      obtain ⟨o, ho, hstart, hend, hlast⟩ := ih hc.2 hopen ((List.mem_cons.mp hn).resolve_left hs)
      refine ⟨o, List.mem_cons_of_mem _ ho, hstart, (Function.update_of_ne hblock ..).trans hend,
        fun o' ho' hscope => ?_⟩
      rcases List.mem_cons.mp ho' with rfl | ho'
      · exact absurd hscope.symm hblock
      · exact hlast o' ho' hscope

end Compile

/-! ## The records of a function -/

namespace FunctionCode

variable (f : FunctionCode)

theorem insns_opened : f.opened.insns = List.range 0 := by
  simp [opened, PandaGen.openFunctionRegScope, PandaGen.allocReg, initial]

theorem insns_compileFunction : ∃ l n, f.compileFunction.insns = l ++ List.range n ∧ l.length = f.prologue ∧
    (∀ it ∈ l, n ≤ it) ∧ f.compiled.insns = List.range n := by
  obtain ⟨n, -, hn⟩ := compile_insns f.bindings f.body f.insns_opened
  have hn' : f.compiled.closeFunctionRegScope.insns = List.range n := hn
  refine ⟨List.range' (argumentNodes f.params + n) 2 ++ List.range' n (argumentNodes f.params), n, ?_, ?_, ?_, hn⟩
  · simp [compileFunction, PandaGen.emitFront, hn', List.append_assoc]
  · simp [prologue]
  · intro it hit
    simp only [List.mem_append, List.mem_range'_1] at hit
    omega

theorem map_variableRecords (pg : PandaGen) (s : ScopeId) (start length : ℕ) :
    ((variableRecords pg f.bindings s start length).map fun r => (r.name, r.reg)) =
      (f.registerVariables s).map fun v => (v.name, pg.vreg s v.name) := by
  have hfilter : (fun v : Variable => v.isLocalVariable && !v.lexicalBound) = Variable.inRegister :=
    funext fun v => Bool.and_comm ..
  rw [variableRecords, hfilter, List.map_map]
  rfl

theorem exists_record {pg : PandaGen} {s : ScopeId} (hvars : f.registerVariables s ≠ []) (start length : ℕ) :
    ∃ r ∈ variableRecords pg f.bindings s start length, r.start = start ∧ r.length = length := by
  obtain ⟨v, hv⟩ := List.exists_mem_of_ne_nil _ hvars
  obtain ⟨hmem, hin⟩ := List.mem_filter.mp hv
  refine ⟨_, List.mem_map_of_mem (List.mem_filter.mpr ⟨hmem, ?_⟩), rfl, rfl⟩
  exact (Bool.and_comm ..).trans hin

theorem range_of_mem {pg : PandaGen} {s : ScopeId} {start length : ℕ} {r : LocalVariableDebug}
    (hr : r ∈ variableRecords pg f.bindings s start length) : r.start = start ∧ r.length = length := by
  obtain ⟨v, -, rfl⟩ := List.mem_map.mp hr
  exact ⟨rfl, rfl⟩

theorem not_describes_nil {o : Opening} (hvars : f.registerVariables o.scope ≠ []) : ¬ f.Describes o [] := by
  rintro ⟨hmap, -⟩
  exact hvars (List.map_eq_nil_iff.mp hmap.symm)

theorem describes_of_no_variables {o : Opening} (hvars : f.registerVariables o.scope = []) :
    f.Describes o (genScopeVariableInfo f.compileFunction f.bindings o.scope) := by
  have hrecords : ∀ start length, variableRecords f.compileFunction f.bindings o.scope start length = [] := by
    intro start length
    refine List.map_eq_nil_iff.mp ((f.map_variableRecords _ _ start length).trans ?_)
    rw [hvars, List.map_nil]
  have hnil : ∀ l count start, genLoop (f.compileFunction.scopeStart o.scope) (f.compileFunction.scopeEnd o.scope)
      (variableRecords f.compileFunction f.bindings o.scope) l count start = [] := by
    intro l
    induction l with
    | nil => exact fun _ _ => rfl
    | cons it l ih =>
      intro count start
      rw [genLoop]
      split_ifs
      · exact ih ..
      · exact hrecords ..
      · exact ih ..
  rw [genScopeVariableInfo, hnil]
  refine ⟨?_, by simp⟩
  rw [hvars]
  rfl

/-- The range of a block starts too early, or the block has none. -/
theorem not_describes_block {o : Opening} (ho : o ∈ ScopeDebugInfo.openings f.bindings f.body f.opened)
    (hvars : f.registerVariables o.scope ≠ []) :
    ¬ f.Describes o (genScopeVariableInfo f.compileFunction f.bindings o.scope) := by
  obtain ⟨⟨n, hn, hscope⟩, -, -⟩ := openings_bounds f.bindings f.body ho
  obtain ⟨last, hmem, hstart, hend, hlast⟩ := compile_last f.bindings f.proper f.insns_opened hn
  obtain ⟨l, m, hinsns, hlength, hl, hm⟩ := f.insns_compileFunction
  have hle : last.first + last.count ≤ m := by
    have h := (openings_bounds f.bindings f.body hmem).2.2
    rwa [show compile f.bindings f.body f.opened = f.compiled from rfl, hm, List.length_range] at h
  have hfunction : ScopeId.block n ≠ .function := by simp
  have hrecords : genScopeVariableInfo f.compileFunction f.bindings o.scope =
      genLoop (lastNode last.first) (lastNode (last.first + last.count))
        (variableRecords f.compileFunction f.bindings o.scope) (l ++ List.range m) 0 0 := by
    have hstart' : f.compileFunction.scopeStart (.block n) = lastNode last.first :=
      (Function.update_of_ne hfunction f.compiled.insns.head? f.compiled.scopeStart).trans hstart
    have hend' : f.compileFunction.scopeEnd (.block n) = lastNode (last.first + last.count) :=
      (Function.update_of_ne hfunction f.compiled.insns.getLast? f.compiled.scopeEnd).trans hend
    rw [genScopeVariableInfo, hinsns, hscope, hstart', hend']
  rw [hrecords, genLoop_range hl (Nat.le_add_right ..) hle]
  have hprologue : 2 ≤ f.prologue := Nat.le_add_right 2 _
  split_ifs with hempty hzero
  · exact f.not_describes_nil hvars
  · rintro ⟨-, hrange⟩
    obtain ⟨r, hr, hrstart, hrlength⟩ := f.exists_record hvars 0 (l.length + (last.first + last.count))
    have := (hrange r hr 0).mp (by omega)
    omega
  · rintro ⟨-, hrange⟩
    obtain ⟨r, hr, hrstart, hrlength⟩ := f.exists_record hvars (l.length + (last.first - 1))
      (last.first + last.count - last.first + 1)
    have hfirst := (hrange r hr (l.length + (last.first - 1))).mp (by omega)
    have hfinal := (hrange r hr (l.length + (last.first + last.count - 1))).mp (by omega)
    obtain rfl | hover := hlast o ho hscope
    · omega
    · omega

/-- The function's own scope has its range, if it has two nodes at least. -/
theorem describes_function_iff (hvars : f.registerVariables .function ≠ []) :
    f.Describes ⟨.function, f.opened.vreg .function, 0, f.compiled.insns.length⟩
      (genScopeVariableInfo f.compileFunction f.bindings .function) ↔ 2 ≤ f.compiled.insns.length := by
  obtain ⟨l, m, hinsns, hlength, hl, hm⟩ := f.insns_compileFunction
  have hstart : f.compileFunction.scopeStart .function = lastNode (min 1 m) := by
    show Function.update f.compiled.scopeStart .function f.compiled.insns.head? .function = _
    rw [Function.update_self, hm]
    cases m with
    | zero => rfl
    | succ m => simp [lastNode, List.range_succ_eq_map]
  have hend : f.compileFunction.scopeEnd .function = lastNode m := by
    show Function.update f.compiled.scopeEnd .function f.compiled.insns.getLast? .function = _
    rw [Function.update_self, hm, lastNode]
  have hvreg : f.compileFunction.vreg .function = f.opened.vreg .function :=
    (compile_frame f.bindings f.body (fun _ _ => by simp) f.opened).2.2
  rw [genScopeVariableInfo, hinsns, hstart, hend, genLoop_range hl (Nat.min_le_right ..) le_rfl, hm,
    List.length_range]
  split_ifs with hempty hzero
  · refine iff_of_false (f.not_describes_nil hvars) ?_
    omega
  · omega
  · refine iff_of_true ⟨?_, fun r hr i => ?_⟩ (by omega)
    · rw [f.map_variableRecords, hvreg]
    · obtain ⟨hrstart, hrlength⟩ := f.range_of_mem hr
      rw [hrstart, hrlength]
      show _ ↔ f.prologue + 0 ≤ i ∧ i < f.prologue + 0 + m
      omega

/-- The emitter goes through the scopes in the order of their openings. The records of a scope are right if
none of its variables is in a register, or if it is the scope of the function and not a single node. -/
theorem variableDebug_iff : (f.variableDebug = f.openings.flatMap fun o =>
      genScopeVariableInfo f.compileFunction f.bindings o.scope) ∧
    ∀ o ∈ f.openings, f.Describes o (genScopeVariableInfo f.compileFunction f.bindings o.scope) ↔
      f.registerVariables o.scope = [] ∨ o.scope = .function ∧ 2 ≤ o.count := by
  constructor
  · have hscopes : f.compileFunction.variableDebugInfo = f.openings.map Opening.scope := by
      refine (compile_variableDebugInfo f.bindings f.body f.opened).trans ?_
      simp [opened, PandaGen.openFunctionRegScope, PandaGen.allocReg, initial, openings]
    rw [variableDebug, hscopes, List.flatMap_map]
  · intro o ho
    by_cases hvars : f.registerVariables o.scope = []
    · exact iff_of_true (f.describes_of_no_variables hvars) (.inl hvars)
    · rw [or_iff_right hvars]
      rcases List.mem_cons.mp ho with rfl | ho
      · exact (f.describes_function_iff hvars).trans (and_iff_right rfl).symm
      · refine iff_of_false (f.not_describes_block ho hvars) ?_
        obtain ⟨⟨n, -, hscope⟩, -⟩ := openings_bounds f.bindings f.body ho
        simp [hscope]

end FunctionCode

/-- A function without parameters: an instruction, and a block with a variable. -/
def blockFunction (inside : Code) (h : inside.scopes = [] ∧ inside.Proper) : FunctionCode where
  params := []
  bindings
    | .function => []
    | .block _ => [⟨"x", true, false, false⟩]
  body := .seq .emit (.localRegScope 0 inside)
  proper := ⟨trivial, by simp [h.1], h.2⟩

/-- `{ let x; }` with one instruction. -/
def singleBlock : FunctionCode := blockFunction .emit ⟨rfl, trivial⟩

/-- `{ let x; }` without any. -/
def emptyBlock : FunctionCode := blockFunction .skip ⟨rfl, trivial⟩

/-- The block of one instruction has a range of two, and the empty block has no record. -/
theorem block_not_described :
    (∃ o ∈ singleBlock.openings, ¬ singleBlock.Describes o
      (genScopeVariableInfo singleBlock.compileFunction singleBlock.bindings o.scope)) ∧
    ∃ o ∈ emptyBlock.openings, ¬ emptyBlock.Describes o
      (genScopeVariableInfo emptyBlock.compileFunction emptyBlock.bindings o.scope) := by
  refine ⟨⟨_, List.mem_cons_of_mem _ List.mem_cons_self, ?_⟩, ⟨_, List.mem_cons_of_mem _ List.mem_cons_self, ?_⟩⟩
  · rintro ⟨-, hrange⟩
    have hrecord : (⟨"x", "any", "any", 1, 2, 2⟩ : LocalVariableDebug) ∈ genScopeVariableInfo
        singleBlock.compileFunction singleBlock.bindings (.block 0) := by decide
    have hfirst := (hrange _ hrecord 2).mp ⟨le_rfl, by decide⟩
    exact absurd hfirst.1 (by decide)
  · rintro ⟨hmap, -⟩
    exact absurd hmap (by decide)

end ArkTs2abc.Es2panda.ScopeDebugInfo
