import ArkTs2abc.Es2panda.Compiler.SpillSimulation

/-!
# The function prologue

`Function::Compile` first compiles the body and only then prepends, through a
`FrontAllocator`, the moves of the incoming arguments and, before these, the
initialisation of the lexical environment. The argument registers follow the
registers of the function. By then the register scope of the function is closed:
a spill in the prologue takes its scratch registers from register 0 on.

## Main definitions

* `FunctionFrame` — what the prologue is generated from.
* `FunctionFrame.prologue` — the code in front of the body.
* `PrologueCorrect` — every parameter reaches its home.
* `PrologueSafe` — when that is so.
-/

namespace ArkTs2abc.Es2panda

/-- The instructions of the prologue that name registers. -/
inductive Mnemonic where
  | ldaDyn | staDyn | movDyn
  deriving DecidableEq, Repr

abbrev Mnemonic.kinds : Mnemonic → List OperandKind
  | ldaDyn => [.SRC_VREG]
  | staDyn => [.DST_VREG]
  | movDyn => [.DST_VREG, .SRC_VREG]

/-- The registered formats of these instructions. `Spill` and `Restore` push their moves back
unchecked, so that one format of `mov` encodes any register. -/
structure PrologueIsa where
  opcode : Mnemonic → Opcode
  kinds_eq : ∀ mn, (opcode mn).kinds = mn.kinds
  mov_wide : ∃ f ∈ (opcode .movDyn).formats, ∀ item ∈ f, item.kind.isVReg → item.bitwidth = 16

def PrologueIsa.ins (isa : PrologueIsa) (mn : Mnemonic) (regs : List VReg)
    (h : regs.length = mn.kinds.length) : IRNode where
  op := isa.opcode mn
  registers := regs
  length_eq := by rw [h, isa.kinds_eq]

/-- A parameter: its slot in the environment of the function when it is `LexicalBound`. -/
structure Param where
  lexIdx : Option ℕ := none
  deriving DecidableEq, Repr

/-- The function once its body is compiled: the parameters, the slots of its environment, and the
high-water mark of its registers. `FunctionRegScope` took one register for each parameter and
one for the environment. -/
structure FunctionFrame where
  params : List Param
  lexicalSlots : ℕ
  totalRegs : UInt32
  lt_totalRegs : params.length < totalRegs.toNat

/-- `count` calls of `AllocReg`. -/
def RegCounter.allocRegs (c : RegCounter) : ℕ → List VReg × RegCounter
  | 0 => ([], c)
  | n + 1 =>
    let (reg, c) := c.allocReg
    let (regs, c) := c.allocRegs n
    (reg :: regs, c)

inductive PrologueInsn where
  | reg (mn : Mnemonic) (e : Emitted)
  | newLexEnv (num : ℕ)
  | ldLexEnv
  | stLexVar (level slot : ℕ)

namespace FunctionFrame

variable (isa : PrologueIsa) (f : FunctionFrame)

/-- `NeedLexEnv`. -/
def needLexEnv : Bool := f.lexicalSlots != 0

/-- The registers `FunctionRegScope` takes for the parameters; a parameter in a slot leaves its
own unused. -/
def vregs : List VReg := (RegCounter.allocRegs {} f.params.length).1

/-- The register `FunctionRegScope` takes next, for the environment. -/
def lexEnv : VReg := (RegCounter.allocRegs {} f.params.length).2.allocReg.1

/-- `ra_.Emit` of a register instruction. -/
def emit (counter : RegCounter) (mn : Mnemonic) (regs : List VReg)
    (h : regs.length = mn.kinds.length) : List PrologueInsn × RegCounter :=
  let (code, counter) := RegAllocator.run counter (isa.ins mn regs h)
  (code.map (.reg mn), counter)

/-- `CopyFunctionArguments`. -/
def copyFunctionArguments (counter : RegCounter) : List (Param × VReg) → VReg →
    List PrologueInsn × RegCounter
  | [], _ => ([], counter)
  | (param, vreg) :: params, targetReg =>
    let (code, counter) :=
      match param.lexIdx with
      | some lexIdx =>
        let (code, counter) := emit isa counter .ldaDyn [targetReg] rfl
        (code ++ [.stLexVar 0 lexIdx], counter)
      | none => emit isa counter .movDyn [vreg, targetReg] rfl
    let (rest, counter) := copyFunctionArguments counter params (targetReg + 1)
    (code ++ rest, counter)

/-- `InitializeLexEnv`. -/
def initializeLexEnv (counter : RegCounter) : List PrologueInsn × RegCounter :=
  let code := if f.needLexEnv then [.newLexEnv f.lexicalSlots] else [.ldLexEnv]
  let (store, counter) := emit isa counter .staDyn [f.lexEnv] rfl
  (code ++ store, counter)

/-- What `Function::Compile` puts in front of the body: the arguments are copied by code emitted
first, and prepended to by the initialisation of the environment. -/
def prologue : List PrologueInsn :=
  let counter : RegCounter := { usedRegs := 0, totalRegs := f.totalRegs }
  let (copy, counter) :=
    copyFunctionArguments isa counter (f.params.zip f.vregs) counter.totalRegs.toUInt16
  (initializeLexEnv isa f counter).1 ++ copy

end FunctionFrame

/-! ## Execution -/

/-- A lexical environment. -/
structure LexEnv (V : Type) where
  parent : Option ℕ
  slots : List V

/-- Registers, the environments made so far and the current one. -/
structure EnvState (V : Type) where
  file : RegFile V
  heap : List (LexEnv V)
  curEnv : ℕ

def Mnemonic.sem {V : Type} : Mnemonic → InsnSem V
  | ldaDyn, acc, sources => some (sources.headD acc, fun _ => acc)
  | staDyn, acc, _ => some (acc, fun _ => acc)
  | movDyn, acc, sources => some (acc, fun _ => sources.headD acc)

namespace EnvState

variable {V : Type}

/-- The environment `level` hops out. -/
def envAt (heap : List (LexEnv V)) : ℕ → ℕ → Option ℕ
  | 0, env => some env
  | level + 1, env => do envAt heap level (← (← heap[env]?).parent)

/-- A store to a slot the environment does not have does not complete. -/
def step (hole : V) (envRef : ℕ → V) (s : EnvState V) : PrologueInsn → Option (EnvState V)
  | .reg mn e => (exec mn.sem [e] s.file).map fun file => { s with file }
  | .newLexEnv num =>
    some { file := { s.file with acc := envRef s.heap.length }
           heap := s.heap ++ [⟨some s.curEnv, List.replicate num hole⟩]
           curEnv := s.heap.length }
  | .ldLexEnv => some { s with file := { s.file with acc := envRef s.curEnv } }
  | .stLexVar level slot => do
    let env ← envAt s.heap level s.curEnv
    let e ← s.heap[env]?
    if slot < e.slots.length then
      some { s with heap := s.heap.set env { e with slots := e.slots.set slot s.file.acc } }
    else none

def run (hole : V) (envRef : ℕ → V) (s : EnvState V) (code : List PrologueInsn) :
    Option (EnvState V) :=
  code.foldlM (step hole envRef) s

/-- The slots of the current environment. -/
def slots (s : EnvState V) : List V := (s.heap[s.curEnv]?.map LexEnv.slots).getD []

end EnvState

/-- The state a function is entered in: the `i`-th argument is in register `totalRegs + i`, if
there is such a register. -/
structure Entered {V : Type} (f : FunctionFrame) (args : ℕ → V) (s : EnvState V) : Prop where
  args_eq : ∀ r : VReg, f.totalRegs.toNat ≤ r.toNat →
    s.file.regs r = args (r.toNat - f.totalRegs.toNat)
  curEnv_lt : s.curEnv < s.heap.length

/-- The home of the `i`-th parameter holds `v`. -/
def FunctionFrame.HomeHolds {V : Type} (f : FunctionFrame) (s : EnvState V) (i : ℕ) (param : Param)
    (v : V) : Prop :=
  match param.lexIdx with
  | some slot => s.slots[slot]? = some v
  | none => ∃ vreg, f.vregs[i]? = some vreg ∧ s.file.regs vreg = v

/-- What the prologue is for. -/
structure PrologueResult {V : Type} (f : FunctionFrame) (envRef : ℕ → V) (args : ℕ → V)
    (s s' : EnvState V) : Prop where
  homes : ∀ i param, f.params[i]? = some param → f.HomeHolds s' i param (args i)
  lexEnv : s'.file.regs f.lexEnv = envRef s'.curEnv
  curEnv : s'.curEnv = if f.needLexEnv then s.heap.length else s.curEnv

/-- From every entry state the prologue completes with all parameters at home and the environment
of the function in its register, and on the way it overwrites no argument. -/
def PrologueCorrect (isa : PrologueIsa) (f : FunctionFrame) : Prop :=
  ∀ (V : Type) (hole : V) (envRef args : ℕ → V) (s : EnvState V), Entered f args s →
    (∃ s', s.run hole envRef (f.prologue isa) = some s' ∧ PrologueResult f envRef args s s') ∧
    ∀ pre s', pre <+: f.prologue isa → s.run hole envRef pre = some s' →
      ∀ r : VReg, f.totalRegs.toNat ≤ r.toNat → s'.file.regs r = s.file.regs r

/-- The register the `i`-th argument is read from. -/
def FunctionFrame.argReg (f : FunctionFrame) (i : ℕ) : VReg := UInt16.ofNat (f.totalRegs.toNat + i)

/-- The functions whose prologue is right: `sta` reaches the environment register, `VReg` numbers
the arguments, no load of an argument is spilled while register 0 is the home of the first
parameter, and the captured parameters have slots of their own. -/
structure PrologueSafe (isa : PrologueIsa) (f : FunctionFrame) : Prop where
  sta_fits : (isa.ins .staDyn [f.lexEnv] rfl).fits
  args_numbered : ∀ i < f.params.length, f.totalRegs.toNat + i < 2 ^ 16
  lda_fits : (∃ param, f.params[0]? = some param ∧ param.lexIdx = none) →
    ∀ i param slot, f.params[i]? = some param → param.lexIdx = some slot →
      (isa.ins .ldaDyn [f.argReg i] rfl).fits
  slots_lt : ∀ param ∈ f.params, ∀ slot, param.lexIdx = some slot → slot < f.lexicalSlots
  slots_nodup : (f.params.filterMap Param.lexIdx).Nodup

/-! ## The prologue in closed form -/

theorem RegAllocator.run_usedRegs (counter : RegCounter) (ins : IRNode) :
    (RegAllocator.run counter ins).2.usedRegs = counter.usedRegs := by
  unfold RegAllocator.run
  split <;> rfl

theorem RegAllocator.run_congr {counter counter' : RegCounter} (ins : IRNode)
    (h : counter.usedRegs = counter'.usedRegs) :
    (RegAllocator.run counter ins).1 = (RegAllocator.run counter' ins).1 := by
  cases hfit : ins.fits with
  | true => rw [run_of_fits _ hfit, run_of_fits _ hfit]
  | false => rw [run_of_not_fits _ hfit, run_of_not_fits _ hfit, h]

namespace FunctionFrame

variable (isa : PrologueIsa) (f : FunctionFrame)

/-- What is emitted for a register instruction once the register scope of the function is
closed. -/
def regCode (mn : Mnemonic) (regs : List VReg) (h : regs.length = mn.kinds.length) :
    List PrologueInsn :=
  (emit isa {} mn regs h).1

theorem regCode_eq (mn : Mnemonic) (regs : List VReg) (h : regs.length = mn.kinds.length) :
    regCode isa mn regs h = (RegAllocator.run {} (isa.ins mn regs h)).1.map (.reg mn) := rfl

theorem emit_eq {counter : RegCounter} (hc : counter.usedRegs = 0) (mn : Mnemonic)
    (regs : List VReg) (h : regs.length = mn.kinds.length) :
    (emit isa counter mn regs h).1 = regCode isa mn regs h ∧
      (emit isa counter mn regs h).2.usedRegs = 0 :=
  ⟨congrArg (List.map _) (RegAllocator.run_congr _ hc),
    (RegAllocator.run_usedRegs _ _).trans hc⟩

/-- The code that brings one argument home. -/
def copyOne (param : Param) (vreg targetReg : VReg) : List PrologueInsn :=
  match param.lexIdx with
  | some lexIdx => regCode isa .ldaDyn [targetReg] rfl ++ [.stLexVar 0 lexIdx]
  | none => regCode isa .movDyn [vreg, targetReg] rfl

def copyCode : List (Param × VReg) → VReg → List PrologueInsn
  | [], _ => []
  | (param, vreg) :: params, targetReg =>
    copyOne isa param vreg targetReg ++ copyCode params (targetReg + 1)

def initCode : List PrologueInsn :=
  (if f.needLexEnv then [.newLexEnv f.lexicalSlots] else [.ldLexEnv]) ++
    regCode isa .staDyn [f.lexEnv] rfl

theorem copyFunctionArguments_eq (counter : RegCounter) (hc : counter.usedRegs = 0)
    (params : List (Param × VReg)) (targetReg : VReg) :
    (copyFunctionArguments isa counter params targetReg).1 = copyCode isa params targetReg ∧
      (copyFunctionArguments isa counter params targetReg).2.usedRegs = 0 := by
  induction params generalizing counter targetReg with
  | nil => exact ⟨rfl, hc⟩
  | cons p params ih =>
    obtain ⟨⟨lexIdx⟩, vreg⟩ := p
    cases lexIdx with
    | none =>
      obtain ⟨hcode, hused⟩ := emit_eq isa hc .movDyn [vreg, targetReg] rfl
      obtain ⟨hrest, hused'⟩ := ih _ hused (targetReg + 1)
      simp only [copyFunctionArguments, copyCode, copyOne, hrest, hused', hcode, and_self]
    | some slot =>
      obtain ⟨hcode, hused⟩ := emit_eq isa hc .ldaDyn [targetReg] rfl
      obtain ⟨hrest, hused'⟩ := ih _ hused (targetReg + 1)
      simp only [copyFunctionArguments, copyCode, copyOne, hrest, hused', hcode, and_self]

theorem allocRegs_eq (n : ℕ) (c : RegCounter) :
    c.allocRegs n = ((List.range n).map fun i => scratch c.usedRegs i,
      { c with usedRegs := c.usedRegs + UInt32.ofNat n }) := by
  induction n generalizing c with
  | zero => simp [RegCounter.allocRegs]
  | succ n ih =>
    have hnext (i : ℕ) : scratch (c.usedRegs + 1) i = scratch c.usedRegs (i + 1) := by
      apply UInt16.toNat_inj.mp
      simp [scratch, UInt32.toNat_add]
      omega
    rw [RegCounter.allocRegs, allocReg_add c c.usedRegs 0 (by simp)]
    simp only [ih, Nat.zero_add, List.range_succ_eq_map, List.map_cons, List.map_map]
    refine Prod.ext ?_ ?_
    · simp [Function.comp_def, ← hnext]
    · simp [UInt32.ofNat_add, UInt32.add_assoc, UInt32.add_comm 1]

theorem vregs_eq : f.vregs = (List.range f.params.length).map UInt16.ofNat := by
  simp [vregs, allocRegs_eq, scratch]

theorem lexEnv_eq : f.lexEnv = UInt16.ofNat f.params.length := by
  simp [lexEnv, allocRegs_eq, RegCounter.allocReg]

theorem prologue_eq :
    f.prologue isa = f.initCode isa ++ copyCode isa (f.params.zip f.vregs) (f.argReg 0) := by
  have hreg : f.totalRegs.toUInt16 = f.argReg 0 := by
    apply UInt16.toNat_inj.mp
    simp [argReg]
  obtain ⟨hcopy, hused⟩ := copyFunctionArguments_eq isa
    { usedRegs := 0, totalRegs := f.totalRegs } rfl (f.params.zip f.vregs)
    f.totalRegs.toUInt16
  obtain ⟨hstore, -⟩ := emit_eq isa hused .staDyn [f.lexEnv] rfl
  rw [← hreg, ← hcopy, initCode, ← hstore]
  rfl

end FunctionFrame

/-! ## What each piece does -/

theorem checkRegIndices_of_wide {regs : List VReg} {formats : List Format} {limit : ℕ}
    (h : ∃ f ∈ formats, ∀ item ∈ f, item.kind.isVReg → item.bitwidth = 16)
    (hv : ∀ f ∈ formats, f.vregKinds ≠ []) : (checkRegIndices regs limit formats).1 = true := by
  induction formats generalizing limit with
  | nil => simp at h
  | cons f formats ih =>
    rw [checkRegIndices]
    split
    · rfl
    · next hall =>
      obtain ⟨g, hg, hwide⟩ := h
      rcases List.mem_cons.mp hg with rfl | hg
      · refine absurd ?_ hall
        have hne := hv g List.mem_cons_self
        have hlimit : formatLimit limit g = 2 ^ 16 := by
          unfold formatLimit
          split
          · next item hfind =>
            rw [hwide item (List.mem_of_find?_eq_some hfind) (by simpa using List.find?_some hfind)]
          · next hfind =>
            exact absurd (by simpa [Format.vregKinds, List.filter_eq_nil_iff] using hfind) hne
        rw [hlimit]
        simpa [isRegisterCorrect] using fun r _ => r.toNat_lt
      · exact ih ⟨g, hg, hwide⟩ fun f' hf' => hv f' (List.mem_cons_of_mem _ hf')

theorem PrologueIsa.movDyn_fits (isa : PrologueIsa) (vd vs : VReg) :
    (isa.ins .movDyn [vd, vs] rfl).fits := by
  refine checkRegIndices_of_wide isa.mov_wide fun f hf => ?_
  rw [(isa.opcode .movDyn).vregKinds_eq f hf, isa.kinds_eq]
  exact List.cons_ne_nil _ _

theorem PrologueIsa.operands_ins (isa : PrologueIsa) (mn : Mnemonic) (regs : List VReg)
    (h : regs.length = mn.kinds.length) : (isa.ins mn regs h).operands = mn.kinds.zip regs := by
  rw [IRNode.operands]
  exact congrArg (·.zip regs) (isa.kinds_eq mn)

section

variable {isa : PrologueIsa} {mn : Mnemonic} {v : VReg} (h : [v].length = mn.kinds.length) (hfit : (isa.ins mn [v] h).fits = false)
include h hfit

/-- A spilled instruction with one operand, while no register is in use: everything goes through
register 0. -/
theorem run_spilled :
    ∃ ins : IRNode, ins.operands = mn.kinds.zip [0] ∧
      (RegAllocator.run {} (isa.ins mn [v] h)).1 =
        [.movDyn 0 0, .movDyn 0 v, .node ins, .movDyn 0 0] := by
  have hregs : (isa.ins mn [v] h).registers = [v] := rfl
  obtain ⟨r, hr, hle⟩ := IRNode.exists_over_limit hfit
  obtain rfl : r = v := by simpa [hregs] using hr
  have hcorrect : isRegisterCorrect (isa.ins mn [r] h).limit r = false := by
    simpa [isRegisterCorrect] using hle
  have hspilled : (isa.ins mn [r] h).spilled = [r] := by
    simp [IRNode.spilled, overLimit, hregs, hcorrect]
  refine ⟨(isa.ins mn [r] h).renumbered, ?_, ?_⟩
  · have : (isa.ins mn [r] h).renumbered.operands =
        (isa.opcode mn).kinds.zip (renumber (isa.ins mn [r] h).limit 0 [r]) := rfl
    rw [this, isa.kinds_eq]
    simp [renumber, hcorrect]
  · rw [RegAllocator.run_of_not_fits _ hfit, hspilled]
    rfl

theorem exec_spilled {V : Type} (sem : InsnSem V) (m : RegFile V) :
    exec sem (RegAllocator.run {} (isa.ins mn [v] h)).1 m =
      (m.set 0 (m.regs v)).execNode sem (mn.kinds.zip [0]) := by
  have hself (m : RegFile V) : m.set 0 (m.regs 0) = m := by
    simp [RegFile.set]
  obtain ⟨ins, hoperands, hcode⟩ := run_spilled h hfit
  rw [hcode]
  simp only [exec, hself, hoperands, Option.bind_fun_some]

end

namespace EnvState

variable {V : Type} {hole : V} {envRef : ℕ → V}

theorem run_append (s : EnvState V) (code code' : List PrologueInsn) :
    s.run hole envRef (code ++ code') = (s.run hole envRef code).bind (·.run hole envRef code') :=
  List.foldlM_append ..

theorem run_cons (s : EnvState V) (e : PrologueInsn) (code : List PrologueInsn) :
    s.run hole envRef (e :: code) = (s.step hole envRef e).bind (·.run hole envRef code) := rfl

theorem run_regs (mn : Mnemonic) (code : List Emitted) (s : EnvState V) :
    s.run hole envRef (code.map (.reg mn)) =
      (exec mn.sem code s.file).map fun file => { s with file } := by
  induction code generalizing s with
  | nil => rfl
  | cons e code ih =>
    have hexec : exec mn.sem (e :: code) s.file =
        (exec mn.sem [e] s.file).bind (exec mn.sem code) := by
      cases e with
      | movDyn vd vs => rfl
      | node ins => simp only [exec, Option.bind_assoc, Option.bind_some]
    rw [List.map_cons, run_cons, hexec, step]
    cases exec mn.sem [e] s.file with
    | none => rfl
    | some file => exact ih _

section Pieces

variable (isa : PrologueIsa) (s : EnvState V)

theorem run_movDyn (vd vs : VReg) :
    s.run hole envRef (FunctionFrame.regCode isa .movDyn [vd, vs] rfl) =
      some { s with file := s.file.set vd (s.file.regs vs) } := by
  rw [FunctionFrame.regCode_eq, run_regs,
    RegAllocator.run_of_fits _ (isa.movDyn_fits vd vs), exec, RegFile.execNode, isa.operands_ins]
  rfl

/-- The register file after a load, which takes register 0 along when it is spilled. -/
def loaded (v : VReg) : RegFile V :=
  { acc := s.file.regs v
    regs := if (isa.ins .ldaDyn [v] rfl).fits then s.file.regs
      else Function.update s.file.regs 0 (s.file.regs v) }

theorem run_ldaDyn (v : VReg) :
    s.run hole envRef (FunctionFrame.regCode isa .ldaDyn [v] rfl) =
      some { s with file := s.loaded isa v } := by
  rw [FunctionFrame.regCode_eq, run_regs]
  cases hfit : (isa.ins .ldaDyn [v] rfl).fits with
  | true =>
    rw [RegAllocator.run_of_fits _ hfit, exec, RegFile.execNode, isa.operands_ins]
    simp [loaded, hfit, Mnemonic.kinds, RegFile.sources, OperandKind.isSrc, Mnemonic.sem,
      RegFile.writeDsts, OperandKind.isDst, exec]
  | false =>
    rw [exec_spilled _ hfit, RegFile.execNode]
    simp [loaded, hfit, Mnemonic.kinds, RegFile.sources, OperandKind.isSrc, Mnemonic.sem,
      RegFile.writeDsts, OperandKind.isDst, RegFile.set]

/-- The register file after a store, which reaches register 0 instead when it is spilled. -/
def stored (v : VReg) : RegFile V :=
  s.file.set (if (isa.ins .staDyn [v] rfl).fits then v else 0) s.file.acc

theorem run_staDyn (v : VReg) :
    s.run hole envRef (FunctionFrame.regCode isa .staDyn [v] rfl) =
      some { s with file := s.stored isa v } := by
  rw [FunctionFrame.regCode_eq, run_regs]
  cases hfit : (isa.ins .staDyn [v] rfl).fits with
  | true =>
    rw [RegAllocator.run_of_fits _ hfit, exec, RegFile.execNode, isa.operands_ins]
    simp [stored, hfit, Mnemonic.kinds, Mnemonic.sem, RegFile.writeDsts, OperandKind.isDst, exec,
      RegFile.set]
  | false =>
    rw [exec_spilled _ hfit, RegFile.execNode]
    simp [stored, hfit, Mnemonic.kinds, Mnemonic.sem, RegFile.writeDsts, OperandKind.isDst,
      RegFile.set]

end Pieces

end EnvState

end ArkTs2abc.Es2panda
