import ArkTs2abc.FlatCode.Forward
import Mathlib.Data.List.Nodup
import Mathlib.Logic.Function.Basic

/-!
# Binding the parameters of a function

The arguments arrive behind the registers of the frame. The prologue copies each of them to the
register of its parameter, or to the slot of the lexical environment when a closure captures the
parameter. What is left over, default values, patterns and the rest parameter, is done by code
that follows the parameters from left to right.

An initialiser and a step of a pattern are expressions of their own: they are an `Evaluation`,
which reaches the parameters by their names. `Meaning` says what they do, and what the values
are. The same evaluation is run on the frame, by the code, and on bindings that may not be
initialised yet, by the language.

## Main definitions

* `Function` — parameters, and where the compiler puts them.
* `Function.code` — the prologue, hoisted declarations and the code of the parameters.
* `Meaning.functionDeclarationInstantiation` — how the language binds parameters.
* `Function.BindsParameters` — the code binds them the same way.
-/

namespace ArkTs2abc.Es2panda.ParameterBinding

open FlatCode.Forward

/-- What an expression does until it has its value: `act` is anything but the use of a
parameter. -/
inductive Evaluation (V W : Type) where
  | done (value : V)
  | throwing (error : V)
  | act (effect : W → V × W) (rest : V → Evaluation V W)
  | read (name : String) (rest : V → Evaluation V W)
  | assign (name : String) (value : V) (rest : Evaluation V W)

/-- The names of parameters that an expression reads and assigns. -/
structure Accesses where
  reads : List String
  assigns : List String
  deriving DecidableEq, Repr

variable {V W σ τ : Type}

namespace Evaluation

/-- The evaluation uses no other names. -/
def Within (accesses : Accesses) : Evaluation V W → Prop
  | done _ => True
  | throwing _ => True
  | act _ rest => ∀ value, (rest value).Within accesses
  | read name rest => name ∈ accesses.reads ∧ ∀ value, (rest value).Within accesses
  | assign name _ rest => name ∈ accesses.assigns ∧ rest.Within accesses

/-- Where names are looked up. A lookup without a result is a `ReferenceError`. -/
structure Scope (V σ : Type) where
  load : σ → String → Option V
  store : σ → String → V → Option σ
  referenceError : String → V

def eval (scope : Scope V σ) : Evaluation V W → σ → W → Except (V × W) (V × σ × W)
  | done value, s, w => .ok (value, s, w)
  | throwing error, _, w => .error (error, w)
  | act effect rest, s, w => (rest (effect w).1).eval scope s (effect w).2
  | read name rest, s, w =>
    match scope.load s name with
    | some value => (rest value).eval scope s w
    | none => .error (scope.referenceError name, w)
  | assign name value rest, s, w =>
    match scope.store s name value with
    | some s' => rest.eval scope s' w
    | none => .error (scope.referenceError name, w)

end Evaluation

/-- A step of a pattern. What it gets goes to the name, if it has one. -/
structure Element where
  target : Option String
  accesses : Accesses
  deriving DecidableEq, Repr

inductive Target where
  | identifier (name : String)
  | pattern (elements : List Element)
  deriving DecidableEq, Repr

inductive Parameter where
  | plain (target : Target)
  | assignmentPattern (left : Target) (right : Accesses)
  | restElement (argument : Target)
  deriving DecidableEq, Repr

/-- A variable of the function. A pattern has one that is named by its index, the environment
and the value that is taken apart have registers like variables. -/
inductive Cell where
  | name (name : String)
  | parameter (index : ℕ)
  | environment
  | scratch
  deriving DecidableEq, Repr

/-- A declaration of the body that has the name of a parameter. -/
inductive Hoisted where
  | var (name : String)
  | function (name : String)
  deriving DecidableEq, Repr

def Hoisted.name : Hoisted → String
  | var name => name
  | function name => name

namespace Target

def names : Target → List String
  | identifier name => [name]
  | pattern elements => elements.filterMap Element.target

def patternNames : Target → List String
  | identifier _ => []
  | pattern elements => elements.filterMap Element.target

/-- `Helpers::ParamName` -/
def paramName (index : ℕ) : Target → Cell
  | identifier name => .name name
  | pattern _ => .parameter index

/-- The accesses of the steps of a pattern. -/
def accesses : Target → List Accesses
  | identifier _ => []
  | pattern elements => elements.map Element.accesses

end Target

namespace Parameter

def target : Parameter → Target
  | plain target => target
  | assignmentPattern left _ => left
  | restElement argument => argument

def names (param : Parameter) : List String := param.target.names

def accesses : Parameter → List Accesses
  | plain target => target.accesses
  | assignmentPattern left right => right :: left.accesses
  | restElement argument => argument.accesses

end Parameter

/-- The number of the mandatory parameters. -/
def MANDATORY_PARAMS_NUMBER : ℕ := 3

/-- The register of a parameter, unless it is captured. -/
def paramReg (index : ℕ) : ℕ := MANDATORY_PARAMS_NUMBER + index

/-- What the compiler knows about the variables of a function. `lexIdx` is the slot of a captured
variable, `locals` are the variables that are not captured and not parameters. -/
structure Signature where
  mandatory : List String
  params : List Parameter
  locals : List String
  lexIdx : String → Option ℕ
  lexicalSlots : ℕ
  hoisted : List Hoisted
  totalRegs : ℕ

namespace Signature

variable (F : Signature)

def names : List String := F.params.flatMap Parameter.names

def patternNames : List String := F.params.flatMap fun param => param.target.patternNames

/-- The parameters of the scope, the mandatory ones first. -/
def paramCells : List Cell :=
  F.mandatory.map .name ++ F.params.zipIdx.map fun (param, index) => param.target.paramName index

/-- `FunctionRegScope`: the registers in the order in which they are allocated. -/
def registers : List Cell :=
  F.paramCells ++ [.environment] ++ F.locals.map .name ++ [.scratch]

def vreg (cell : Cell) : ℕ := F.registers.idxOf cell

/-- The slot of the variable, when it is `LexicalBound`. -/
def slot : Cell → Option ℕ
  | .name name => F.lexIdx name
  | _ => none

end Signature

/-- A function that the parser and the binder have accepted. -/
structure Function extends Signature where
  mandatory_length : mandatory.length = MANDATORY_PARAMS_NUMBER
  registers_nodup : toSignature.registers.Nodup
  names_nodup : toSignature.names.Nodup
  mandatory_disjoint : ∀ name ∈ mandatory, name ∉ toSignature.names
  mem_registers : ∀ name ∈ toSignature.names, lexIdx name = none →
    .name name ∈ toSignature.registers
  lexIdx_lt : ∀ name slot, lexIdx name = some slot → slot < lexicalSlots
  lexIdx_injective : ∀ name name' slot, lexIdx name = some slot → lexIdx name' = some slot →
    name = name'
  registers_le : toSignature.registers.length ≤ totalRegs
  rest_last : ∀ i argument, params[i]? = some (.restElement argument) → i + 1 = params.length
  accesses_subset : ∀ param ∈ params, ∀ accesses ∈ param.accesses,
    accesses.reads ⊆ toSignature.names ∧ accesses.assigns ⊆ toSignature.names
  hoisted_subset : hoisted.map Hoisted.name ⊆ toSignature.patternNames
  hoisted_nodup : (hoisted.map Hoisted.name).Nodup

/-- The labels of the parameter with this index. -/
inductive Label where
  | nonDefaultLabel (index : ℕ)
  | loadParamLabel (index : ℕ)
  deriving DecidableEq, Repr

/-- `evaluate` stands for the code of an initialiser, `extract` for that of a step of a
pattern. -/
inductive Instruction where
  | lda (reg : ℕ)
  | sta (reg : ℕ)
  | mov (dst src : ℕ)
  | ldundefined
  | newlexenv (slots : ℕ)
  | ldlexenv
  | stlexvar (slot : ℕ)
  | definefunc (name : String)
  | isundefined
  | jfalse (target : Label)
  | jmp (target : Label)
  | copyrestargs (index : ℕ)
  | evaluate (index : ℕ)
  | extract (index step : ℕ)
  deriving DecidableEq, Repr

abbrev Code := List (Item Instruction Label)

namespace Signature

variable (F : Signature)

def initializeLexEnv : Code :=
  [if 0 < F.lexicalSlots then .insn (.newlexenv F.lexicalSlots) else .insn .ldlexenv,
    .insn (.sta (F.vreg .environment))]

/-- `PandaGen::CopyFunctionArguments` from this parameter on. -/
def copyFunctionArguments : List Cell → ℕ → Code
  | [], _ => []
  | param :: params, targetReg =>
    (match F.slot param with
    | some slot => [.insn (.lda targetReg), .insn (.stlexvar slot)]
    | none => [.insn (.mov (F.vreg param) targetReg)]) ++
      copyFunctionArguments params (targetReg + 1)

/-- Storing the accumulator to a variable that is being declared. -/
def storeVar (cell : Cell) : Code :=
  match F.slot cell with
  | some slot => [.insn (.stlexvar slot)]
  | none => [.insn (.sta (F.vreg cell))]

/-- `Hoisting::Hoist` -/
def hoist : List Hoisted → Code
  | [] => []
  | .var name :: hoisted => .insn .ldundefined :: F.storeVar (.name name) ++ hoist hoisted
  | .function name :: hoisted =>
    .insn (.definefunc name) :: F.storeVar (.name name) ++ hoist hoisted

/-- `Destructuring::Compile` from this step on. -/
def destructure (index : ℕ) : List Element → ℕ → Code
  | [], _ => []
  | element :: elements, step =>
    .insn (.extract index step) ::
      ((element.target.elim [] fun name => F.storeVar (.name name)) ++
        destructure index elements (step + 1))

/-- `LReference::SetValue` -/
def setValue (index : ℕ) : Target → Code
  | .identifier name => F.storeVar (.name name)
  | .pattern elements => .insn (.sta (F.vreg .scratch)) :: F.destructure index elements 0

/-- What `CompileFunctionParameterDeclaration` does for one parameter. -/
def compileParameter (index : ℕ) : Parameter → Code
  | .assignmentPattern (.pattern elements) _ =>
    [.insn (.lda (paramReg index)), .insn .isundefined, .insn (.jfalse (.loadParamLabel index)),
      .insn (.evaluate index), .insn (.jmp (.nonDefaultLabel index)),
      .label (.loadParamLabel index), .insn (.lda (paramReg index)),
      .label (.nonDefaultLabel index)] ++ F.setValue index (.pattern elements)
  | .assignmentPattern (.identifier name) _ =>
    [.insn (.lda (paramReg index)), .insn .isundefined, .insn (.jfalse (.nonDefaultLabel index)),
      .insn (.evaluate index)] ++ F.setValue index (.identifier name) ++
      [.label (.nonDefaultLabel index)]
  | .restElement argument =>
    .insn (.copyrestargs (F.params.length - 1)) :: F.setValue index argument
  | .plain (.pattern elements) =>
    .insn (.lda (paramReg index)) :: F.setValue index (.pattern elements)
  | .plain (.identifier _) => []

def compileFunctionParameterDeclaration : List Parameter → ℕ → Code
  | [], _ => []
  | param :: params, index =>
    F.compileParameter index param ++ compileFunctionParameterDeclaration params (index + 1)

/-- `Function::Compile` puts what it emits last in front. -/
def code : Code :=
  F.initializeLexEnv ++ (F.copyFunctionArguments F.paramCells F.totalRegs ++
    (F.hoist F.hoisted ++ F.compileFunctionParameterDeclaration F.params 0))

end Signature

/-- The registers and the slots of the environment. A slot may hold the hole. -/
structure Memory (V : Type) where
  registers : ℕ → V
  slots : ℕ → Option V

structure State (V W : Type) where
  acc : V
  memory : Memory V
  world : W

namespace Signature

variable (F : Signature)

/-- What a variable holds. -/
def load (memory : Memory V) (cell : Cell) : Option V :=
  match F.slot cell with
  | some slot => memory.slots slot
  | none => some (memory.registers (F.vreg cell))

def store (memory : Memory V) (cell : Cell) (value : V) : Memory V :=
  match F.slot cell with
  | some slot => { memory with slots := Function.update memory.slots slot (some value) }
  | none => { memory with registers := Function.update memory.registers (F.vreg cell) value }

end Signature

/-- Bindings of parameters. There is no value as long as one is not initialised. -/
abbrev Bindings (V : Type) := String → Option V

/-- The values, and what the initialisers and the steps of the patterns do. -/
structure Meaning (F : Function) (V W : Type) where
  undefined : V
  ofBool : Bool → V
  ofBool_ne : ofBool true ≠ ofBool false
  referenceError : String → V
  lexEnvironment : V
  closure : String → V
  restArray : List V → V
  initialiser : ℕ → Evaluation V W
  element : ℕ → ℕ → V → Evaluation V W
  initialiser_within : ∀ i left right, F.params[i]? = some (.assignmentPattern left right) →
    (initialiser i).Within right
  element_within : ∀ i param elements step element', F.params[i]? = some param →
    param.target = .pattern elements → elements[step]? = some element' →
    ∀ value, (element i step value).Within element'.accesses

namespace Meaning

variable {F : Function} (M : Meaning F V W)

/-- The parameters in the frame, for the code. Reading the hole is an error, storing is not. -/
def frame : Evaluation.Scope V (Memory V) where
  load memory name := F.load memory (.name name)
  store memory name value := some (F.store memory (.name name) value)
  referenceError := M.referenceError

/-- The parameters in the language: a binding that is not initialised is not there yet. -/
def environment : Evaluation.Scope V (Bindings V) where
  load env name := env name
  store env name value := (env name).map fun _ => Function.update env name (some value)
  referenceError := M.referenceError

/-- The argument for a parameter. -/
def argument (args : List V) (index : ℕ) : V := args.getD index M.undefined

/-- Running the code of an expression, which leaves its value in the accumulator. -/
def execEvaluation (evaluation : Evaluation V W) (s : State V W) :
    Except (V × W) (Transfer Label × State V W) := do
  let (value, memory, world) ← evaluation.eval M.frame s.memory s.world
  return (.next, ⟨value, memory, world⟩)

def exec [DecidableEq V] (args : List V) :
    Instruction → State V W → Except (V × W) (Transfer Label × State V W)
  | .lda reg, s => .ok (.next, { s with acc := s.memory.registers reg })
  | .sta reg, s =>
    .ok (.next, { s with memory.registers := Function.update s.memory.registers reg s.acc })
  | .mov dst src, s =>
    .ok (.next, { s with
      memory.registers := Function.update s.memory.registers dst (s.memory.registers src) })
  | .ldundefined, s => .ok (.next, { s with acc := M.undefined })
  | .newlexenv _, s =>
    .ok (.next, { s with acc := M.lexEnvironment, memory.slots := fun _ => none })
  | .ldlexenv, s => .ok (.next, { s with acc := M.lexEnvironment })
  | .stlexvar slot, s =>
    .ok (.next, { s with memory.slots := Function.update s.memory.slots slot (some s.acc) })
  | .definefunc name, s => .ok (.next, { s with acc := M.closure name })
  | .isundefined, s => .ok (.next, { s with acc := M.ofBool (s.acc = M.undefined) })
  | .jfalse target, s =>
    if s.acc = M.ofBool false then .ok (.jump target, s) else .ok (.next, s)
  | .jmp target, s => .ok (.jump target, s)
  | .copyrestargs index, s => .ok (.next, { s with acc := M.restArray (args.drop index) })
  | .evaluate index, s => M.execEvaluation (M.initialiser index) s
  | .extract index step, s =>
    M.execEvaluation (M.element index step (s.memory.registers (F.vreg .scratch))) s

/-- The arguments stand behind the registers, missing ones are undefined. -/
def Entry (args : List V) (s : State V W) : Prop :=
  ∀ i < F.params.length,
    s.memory.registers (F.totalRegs + MANDATORY_PARAMS_NUMBER + i) = M.argument args i

/-- The function is entered. -/
def call [DecidableEq V] (args : List V) (s : State V W) : Except (V × W) (State V W) :=
  run (M.exec args) F.code s

section Language

/-- The steps of a pattern, from this one on. -/
def bindElements (index : ℕ) (value : V) :
    List Element → ℕ → Bindings V → W → Except (V × W) (Bindings V × W)
  | [], _, env, w => .ok (env, w)
  | element :: elements, step, env, w => do
    let (v, env, w) ← (M.element index step value).eval M.environment env w
    bindElements index value elements (step + 1)
      (element.target.elim env fun name => Function.update env name (some v)) w

def bindTarget (index : ℕ) (value : V) :
    Target → Bindings V → W → Except (V × W) (Bindings V × W)
  | .identifier name, env, w => .ok (Function.update env name (some value), w)
  | .pattern elements, env, w => M.bindElements index value elements 0 env w

def bindParameter [DecidableEq V] (args : List V) (index : ℕ) :
    Parameter → Bindings V → W → Except (V × W) (Bindings V × W)
  | .plain target, env, w => M.bindTarget index (M.argument args index) target env w
  | .assignmentPattern left _, env, w =>
    if M.argument args index = M.undefined then do
      let (value, env, w) ← (M.initialiser index).eval M.environment env w
      M.bindTarget index value left env w
    else M.bindTarget index (M.argument args index) left env w
  | .restElement argument, env, w =>
    M.bindTarget index (M.restArray (args.drop index)) argument env w

def bindParameters [DecidableEq V] (args : List V) :
    List Parameter → ℕ → Bindings V → W → Except (V × W) (Bindings V × W)
  | [], _, env, w => .ok (env, w)
  | param :: params, index, env, w => do
    let (env, w) ← M.bindParameter args index param env w
    bindParameters args params (index + 1) env w

/-- The functions of the body come last. -/
def instantiateFunctions (env : Bindings V) : Bindings V := fun name =>
  if .function name ∈ F.hoisted then some (M.closure name) else env name

/-- How the language binds the parameters, as the body finds them. -/
def functionDeclarationInstantiation [DecidableEq V] (args : List V) (w : W) :
    Except (V × W) (Bindings V × W) := do
  let (env, w) ← M.bindParameters args F.params 0 (fun _ => none) w
  return (M.instantiateFunctions env, w)

end Language

/-- The same error, or the same value of each parameter, and the same effects. -/
def Agrees (F : Function) : Except (V × W) (State V W) → Except (V × W) (Bindings V × W) → Prop
  | .error e, .error e' => e = e'
  | .ok s, .ok (env, w) => s.world = w ∧ ∀ name ∈ F.names, F.load s.memory (.name name) = env name
  | _, _ => False

end Meaning

/-- Whatever the initialisers and patterns do, for every list of arguments and every frame the
function is entered in, its code binds the parameters as the language does. -/
def Function.BindsParameters (F : Function) : Prop :=
  ∀ (V W : Type) [DecidableEq V] (M : Meaning F V W) (args : List V) (s : State V W),
    M.Entry args s →
    Meaning.Agrees F (M.call args s) (M.functionDeclarationInstantiation args s.world)

end ArkTs2abc.Es2panda.ParameterBinding
