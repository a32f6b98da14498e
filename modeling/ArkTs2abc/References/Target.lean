import ArkTs2abc.Conversions
import ArkTs2abc.Ts2panda.PropertyAccess

/-!
# Assignment targets

What can be assigned to: variables, properties of objects and those that `super` finds. The parts of a target
are evaluated before the rest of the expression; a reference is what is then read and written.

Subexpressions are user code. The value of `this` does not change, and variables are initialised.

## Main definitions

* `Target`, `Reference` — targets in the tree, and what they denote.
* `Ins`, `Registers.exec` — instructions and what they do.
* `Variables` — how a compiler handles variables.
-/

namespace ArkTs2abc.References

open StructuredCode Conversions
open Ts2panda.PropertyAccess (Temps)

/-! ## Targets -/

abbrev Name := List Char

/-- Where the value of a variable is. -/
inductive Place where
  | global (name : Name)
  | module (name : Name)
  | local (slot : ℕ)
  deriving DecidableEq, Repr

/-- A key that is a literal: a name, or a number and whether it can be the index of an instruction. -/
inductive Literal where
  | name (s : Units)
  | number (bits : BitVec 64) (isInteger : Bool)
  deriving DecidableEq, Repr

def Literal.value : Literal → Primitive
  | name s => .string s
  | number bits _ => .number bits

/-- A key by what the compiler makes of it. -/
inductive Key where
  | literal (k : Literal)
  | expression
  deriving DecidableEq, Repr

inductive Target (V : Type) where
  | binding (v : V)
  | member (key : Key)
  | superMember (key : Key)
  | parenthesized (t : Target V)

/-- The target in the parentheses. -/
def Target.inner {V : Type} : Target V → Target V
  | parenthesized t => t.inner
  | t => t

/-- The parts of an expression with a target. -/
inductive Part where
  | object
  | key
  | right
  /-- The operation of a compound assignment. -/
  | operation
  /-- A step of a pattern: the next value of an iterator, a property. -/
  | piece (n : ℕ)
  | initializer
  deriving DecidableEq, Repr

/-- What is read and written. -/
inductive Reference where
  | binding (place : Place)
  | property (isSuper : Bool) (base : JsValue) (key : Primitive)
  deriving DecidableEq, Repr

abbrev ReferenceWorld := World Part Reference

abbrev History := List (Event Part Reference)

/-- A target whose parts are evaluated. -/
inductive Resolved (V : Type) where
  | binding (v : V)
  | property (isSuper : Bool) (base key : JsValue)

/-! ## Instructions -/

inductive Operand where
  | register (r : ℕ)
  | literal (k : Literal)
  deriving DecidableEq, Repr

inductive Ins where
  | lda (r : ℕ)
  | sta (r : ℕ)
  | mov (vd vs : ℕ)
  | ldNumber (bits : BitVec 64)
  /-- `ldai` of any number. -/
  | ldInteger (bits : BitVec 64)
  | ldThis
  /-- `mov` from the register of `this`. -/
  | movThis (vd : ℕ)
  /-- The code of a part, with the registers that are in use around it. -/
  | compile (part : Part) (temps : Temps)
  /-- A default value, where the accumulator is undefined. -/
  | compileDefault (part : Part) (temps : Temps)
  | tryLdGlobalByName (name : Name)
  | ldGlobalVar (name : Name)
  | ldModuleVar (name : Name)
  | ldLocal (slot : ℕ)
  | tryStGlobalByName (name : Name)
  | stGlobalVar (name : Name)
  | stModuleVar (name : Name)
  | stLocal (slot : ℕ)
  | throwConstAssignment
  /-- `throwundefinedifhole` of a hole. -/
  | throwHole
  | ldObj (obj : ℕ) (key : Operand)
  | stObj (obj : ℕ) (key : Operand)
  | stSuper (obj : ℕ) (key : Operand)
  | binary (lhs : ℕ)
  | incdyn (operand : ℕ)
  | decdyn (operand : ℕ)
  | tonumber (operand : ℕ)

structure Registers where
  acc : JsValue
  reg : ℕ → JsValue

/-- What the instructions do to primitives. -/
structure Machine where
  language : Language
  /-- What `ldai` makes of a number. -/
  integer : BitVec 64 → BitVec 64
  /-- What `tonumber` makes of a big integer. -/
  tonumberBigInt : ℤ → Except JsValue Primitive

/-- What the code is run with. -/
structure Runtime extends Machine where
  world : ReferenceWorld
  this : JsValue
  /-- What the code of a part leaves in registers that are not in use. -/
  scratch : Part → ℕ → JsValue

instance (t : Temps) (r : ℕ) : Decidable (t.InUse r) := inferInstanceAs (Decidable (_ ∧ _))

namespace Machine

variable (m : Machine)

/-- The operand of `incdyn` and `decdyn`, plus or minus one. -/
def step (isDecrement : Bool) : Primitive → Primitive
  | .bigint i => .bigint (if isDecrement then i - 1 else i + 1)
  | .number bits => .number (if isDecrement then m.language.decrement bits else m.language.increment bits)
  | p => p

/-- The result of `tonumber`. -/
def tonumber (p : Primitive) : Except JsValue Primitive :=
  match p with
  | .bigint i => m.tonumberBigInt i
  | p => m.language.numericOf p

end Machine

namespace Runtime

variable (rt : Runtime)

def evaluate (part : Part) : Evaluation Part Reference JsValue := rt.world.act (.evaluate part)

def getValue (ref : Reference) : Evaluation Part Reference JsValue := rt.world.act (.getValue ref)

/-- The answer to a store is of no use, unless it throws. -/
def putValue (ref : Reference) (v : JsValue) : Evaluation Part Reference Unit :=
  rt.world.act (.putValue ref v) >>= fun _ => pure ()

/-- The property under the value of a key. -/
def property (isSuper : Bool) (base key : JsValue) : Evaluation Part Reference Reference :=
  rt.language.toPropertyKey rt.world key >>= fun k => pure (.property isSuper base k)

end Runtime

namespace Registers

variable (rt : Runtime) (r : Registers)

def operand : Operand → JsValue
  | .register k => r.reg k
  | .literal k => .primitive k.value

/-- The registers behind the code of a part. -/
def behind (part : Part) (temps : Temps) (v : JsValue) : Registers :=
  ⟨v, fun k => if temps.InUse k then r.reg k else rt.scratch part k⟩

def load (place : Place) : Evaluation Part Reference Registers :=
  rt.getValue (.binding place) >>= fun v => pure { r with acc := v }

def store (place : Place) : Evaluation Part Reference Registers :=
  rt.putValue (.binding place) r.acc >>= fun _ => pure r

def step : Ins → Evaluation Part Reference Registers
  | .lda k => pure { r with acc := r.reg k }
  | .sta k => pure { r with reg := Function.update r.reg k r.acc }
  | .mov vd vs => pure { r with reg := Function.update r.reg vd (r.reg vs) }
  | .ldNumber bits => pure { r with acc := .primitive (.number bits) }
  | .ldInteger bits => pure { r with acc := .primitive (.number (rt.integer bits)) }
  | .ldThis => pure { r with acc := rt.this }
  | .movThis vd => pure { r with reg := Function.update r.reg vd rt.this }
  | .compile part temps => rt.evaluate part >>= fun v => pure (r.behind rt part temps v)
  | .compileDefault part temps =>
    if r.acc = .primitive .undefined then
      rt.evaluate part >>= fun v => pure (r.behind rt part temps v)
    else pure r
  | .tryLdGlobalByName name | .ldGlobalVar name => r.load rt (.global name)
  | .ldModuleVar name => r.load rt (.module name)
  | .ldLocal slot => r.load rt (.local slot)
  | .tryStGlobalByName name | .stGlobalVar name => r.store rt (.global name)
  | .stModuleVar name => r.store rt (.module name)
  | .stLocal slot => r.store rt (.local slot)
  | .throwConstAssignment => Process.throwing rt.language.typeError
  | .throwHole => Process.throwing rt.language.referenceError
  | .ldObj obj key => do
    let ref ← rt.property false (r.reg obj) (r.operand key)
    let v ← rt.getValue ref
    pure { r with acc := v }
  | .stObj obj key => do
    let ref ← rt.property false (r.reg obj) (r.operand key)
    rt.putValue ref r.acc
    pure r
  | .stSuper obj key => do
    let ref ← rt.property true (r.reg obj) (r.operand key)
    rt.putValue ref r.acc
    pure r
  | .binary _ => rt.evaluate .operation >>= fun v => pure { r with acc := v }
  | .incdyn k => do
    let p ← rt.language.toNumeric rt.world (r.reg k)
    pure { r with acc := .primitive (rt.step false p) }
  | .decdyn k => do
    let p ← rt.language.toNumeric rt.world (r.reg k)
    pure { r with acc := .primitive (rt.step true p) }
  | .tonumber k => do
    let p ← rt.world.toPrimitive .number (r.reg k)
    let q ← completion (rt.tonumber p)
    pure { r with acc := .primitive q }

def exec (r : Registers) : List Ins → Evaluation Part Reference Registers
  | [] => pure r
  | i :: code => r.step rt i >>= fun r => exec r code

end Registers

/-- What is in the accumulator behind the code. -/
def run (rt : Runtime) (code : List Ins) (r : Registers) : Evaluation Part Reference JsValue :=
  r.exec rt code >>= fun r => pure r.acc

/-! ## Variables -/

/-- How a compiler handles its variables. -/
structure Variables (V : Type) where
  place : V → Place
  /-- An assignment throws a TypeError. -/
  immutable : V → Bool
  /-- A variable that the code does not take for initialised. -/
  hole : V → Bool
  load : V → List Ins
  store : V → List Ins

namespace Es2panda

/-- `binder::Variable`, as `ScopeFindResult` has it. -/
inductive Variable where
  | unresolved (name : Name)
  | globalVariable (name : Name)
  | moduleVariable (exoticName : Name)
  | localVariable (slot : ℕ) (isConstDecl : Bool)

/-- `PandaGen::LoadVar`. -/
def loadVar : Variable → List Ins
  | .unresolved name => [.tryLdGlobalByName name]
  | .globalVariable name => [.ldGlobalVar name]
  | .moduleVariable name => [.ldModuleVar name]
  | .localVariable slot _ => [.ldLocal slot]

/-- `PandaGen::StoreVar`, for no declaration. -/
def storeVar : Variable → List Ins
  | .unresolved name => [.tryStGlobalByName name]
  | .globalVariable name => [.stGlobalVar name]
  | .moduleVariable _ => [.throwConstAssignment]
  | .localVariable slot isConstDecl => if isConstDecl then [.throwConstAssignment] else [.stLocal slot]

def variableCode : Variables Variable where
  place
    | .unresolved name | .globalVariable name => .global name
    | .moduleVariable name => .module name
    | .localVariable slot _ => .local slot
  immutable
    | .unresolved _ | .globalVariable _ => false
    | .moduleVariable _ => true
    | .localVariable _ isConstDecl => isConstDecl
  hole _ := false
  load := loadVar
  store := storeVar

end Es2panda

namespace Ts2panda

/-- `VarDeclarationKind`, as far as variables differ by it. -/
inductive VarDeclarationKind where
  | none
  | let
  | const
  | classKind
  | var
  deriving DecidableEq, Repr

/-- A variable is in the global scope, or in a slot of another one. An assignment may stand in the class of
the name. -/
inductive Variable where
  | localVariable (declKind : VarDeclarationKind) (name : Name) (slot : Option ℕ) (inClass : Bool)
  | globalVariable (declKind : VarDeclarationKind) (name : Name) (isStrict : Bool)
  | moduleVariable (declKind : VarDeclarationKind) (name : Name)

/-- `loadTarget`. In a CommonJS module nothing is declared in the global scope. -/
def loadTarget : Variable → List Ins
  | .localVariable _ name none _ => [.tryLdGlobalByName name]
  | .localVariable _ _ (some slot) _ => [.ldLocal slot]
  | .globalVariable declKind name _ =>
    if declKind = .none then [.tryLdGlobalByName name] else [.ldGlobalVar name]
  | .moduleVariable _ name => [.ldModuleVar name]

/-- `storeTarget`, for no declaration. A class of the global scope goes to the global record when it is
declared, and its variable is never marked as initialised. -/
def storeTarget : Variable → List Ins
  | .localVariable declKind name none _ =>
    if declKind = .let ∨ declKind = .const then [.tryStGlobalByName name] else [.throwHole]
  | .localVariable declKind _ (some slot) inClass =>
    if declKind = .const ∨ declKind = .classKind ∧ inClass then [.throwConstAssignment] else [.stLocal slot]
  | .globalVariable declKind name isStrict =>
    if declKind = .none ∧ isStrict then [.tryStGlobalByName name] else [.stGlobalVar name]
  | .moduleVariable declKind name => if declKind = .const then [.throwConstAssignment] else [.stModuleVar name]

/-- Only `let`, `const` and `class` make variables of the global scope that are no global variables. -/
def variableCode : Variables Variable where
  place
    | .localVariable _ name none _ => .global name
    | .localVariable _ _ (some slot) _ => .local slot
    | .globalVariable _ name _ => .global name
    | .moduleVariable _ name => .module name
  immutable
    | .localVariable _ _ none _ => false
    | .localVariable declKind _ (some _) inClass => declKind = .const ∨ declKind = .classKind ∧ inClass
    | .globalVariable _ _ _ => false
    | .moduleVariable declKind _ => declKind = .const
  hole
    | .localVariable declKind _ none _ => ¬ (declKind = .let ∨ declKind = .const)
    | .localVariable _ _ (some _) _ | .globalVariable _ _ _ | .moduleVariable _ _ => false
  load := loadTarget
  store := storeTarget

end Ts2panda

end ArkTs2abc.References
