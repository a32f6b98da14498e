import ArkTs2abc.Es2panda.ObjectLiteral.Expression

/-!
# The code of an object literal

`CompileStaticProperties` puts the properties with constant keys into a literal buffer, each name once and
with what its last property has, up to the first new name behind a computed property. Constants and methods
are done with that; `CompileRemainingProperties` emits code for the others.

## Main definitions

* `staticLoop`, `compileProperty`, `compile` — as in the source.
* `Machine.exec` — what the code does.
* `ObjectExpression.Right` — the code makes the object of ECMAScript.
-/

namespace ArkTs2abc.Es2panda.ObjectLiteral

open PropertyTable (Side Change Slot)

/-! ## The literal buffer -/

/-- `Helpers::IsConstantPropertyKey`. -/
def isConstantPropertyKey : Key → Bool
  | .identifier _ | .stringLiteral _ _ | .numberLiteral _ _ _ _ | .booleanLiteral _ | .nullLiteral => true
  | .bigIntLiteral _ | .expression => false

/-- `Helpers::LiteralToPropName`, which does not expect a boolean. -/
def literalToPropName : Key → Option Name
  | .identifier name => some name
  | .stringLiteral str _ => some str
  | .numberLiteral text _ _ _ => some text
  | .nullLiteral => some "null".toList
  | .booleanLiteral _ | .bigIntLiteral _ | .expression => none

inductive MethodTag where
  | method | generatorMethod | asyncGeneratorMethod
  deriving DecidableEq, Repr

/-- A literal of the buffer. A method is named by its function. -/
inductive Entry where
  | literal (l : Literal)
  | accessor
  | method (tag : MethodTag) (node : ℕ)
  | null
  deriving DecidableEq, Repr

/-- `CreateLiteral`, and whether the property is marked as compiled. -/
def createLiteral : Property → Entry × Bool
  | .init _ _ (.constant l) => (.literal l, true)
  | .init node _ (.method isGenerator isAsync) =>
    (.method (if isGenerator then (if isAsync then .asyncGeneratorMethod else .generatorMethod)
      else .method) node, true)
  | .init _ _ .function | .init _ _ .expression => (.null, false)
  | .accessor _ _ _ => (.accessor, false)
  | .spread _ | .proto _ _ => (.null, false)

/-- The key of a property that the first pass looks at. -/
def Property.staticKey : Property → Option Key
  | init _ key _ | accessor _ _ key => if isConstantPropertyKey key then some key else none
  | spread _ | proto _ _ => none

def Property.isMethod : Property → Bool
  | init _ _ (.method _ _) => true
  | init _ _ (.constant _) | init _ _ .function | init _ _ .expression | accessor _ _ _ | spread _
  | proto _ _ => false

/-- The buffer, a name and its literal at a time. Its names are those of `propNameMap`. -/
abbrev LiteralBuffer := List (Name × Entry)

/-- `ResetLiteral` behind the name, which is added if it is new. -/
def LiteralBuffer.reset (name : Name) (entry : Entry) : LiteralBuffer → LiteralBuffer
  | [] => [(name, entry)]
  | (n, e) :: buf => if n = name then (n, entry) :: buf else (n, e) :: LiteralBuffer.reset name entry buf

def LiteralBuffer.names (buf : LiteralBuffer) : List Name := buf.map Prod.fst

/-- The variables of `CompileStaticProperties`. -/
structure StaticProperties where
  buf : LiteralBuffer := []
  hasMethod : Bool := false
  seenComputed : Bool := false

/-- The loop of `CompileStaticProperties`, with the bits of `compiled` for the properties. -/
def staticLoop (st : StaticProperties) : List Property → Option (StaticProperties × List Bool)
  | [] => some (st, [])
  | p :: ps =>
    match p.staticKey with
    | none => (staticLoop { st with seenComputed := true } ps).map fun r => (r.1, false :: r.2)
    | some key =>
      match literalToPropName key with
      | none => none
      | some name =>
        if name ∉ st.buf.names ∧ st.seenComputed then some (st, (p :: ps).map fun _ => false)
        else
          (staticLoop { st with
              buf := st.buf.reset name (createLiteral p).1
              hasMethod := st.hasMethod || p.isMethod } ps).map
            fun r => (r.1, (createLiteral p).2 :: r.2)

/-! ## The other properties -/

/-- `Operand`. -/
inductive Operand where
  | register
  | name (name : Name)
  deriving DecidableEq, Repr

/-- `PandaGen::ToNamedPropertyKey`. An index is the name that it has as a key. -/
def toNamedPropertyKey : Key → Operand
  | .identifier name => .name name
  | .stringLiteral str true => if str = "__proto__".toList then .register else .name str
  | .numberLiteral text name isIndex true => .name (if isIndex then name else text)
  | .stringLiteral _ false | .numberLiteral _ _ _ false | .bigIntLiteral _ | .booleanLiteral _
  | .nullLiteral | .expression => .register

/-- Instructions, and calls that compile a subexpression. -/
inductive Ins where
  /-- A literal in the register of the key. -/
  | loadKey (name : Name)
  | evaluateKey (node : ℕ)
  | compileValue (node : ℕ) (value : Value)
  | evaluateSpread (node : ℕ)
  | copyDataProperties (node : ℕ)
  | storeOwnProperty (prop : Operand)
  | defineGetterSetterByValue (side : Side)
  | setObjectWithProto

/-- The key compiled into a register. A big integer is not implemented, and an identifier has a name. -/
def compileKey (node : ℕ) : Key → Option (List Ins)
  | .stringLiteral str _ => some [.loadKey str]
  | .numberLiteral _ name _ _ => some [.loadKey name]
  | .booleanLiteral b => some [.loadKey (if b then "true".toList else "false".toList)]
  | .nullLiteral => some [.loadKey "null".toList]
  | .expression => some [.evaluateKey node]
  | .identifier _ | .bigIntLiteral _ => none

/-- `PandaGen::ToPropertyKey`. -/
def toPropertyKey (node : ℕ) (key : Key) : Option (Operand × List Ins) :=
  match toNamedPropertyKey key with
  | .name name => some (.name name, [])
  | .register => (compileKey node key).map fun code => (.register, code)

/-- `PandaGen::LoadPropertyKey`. -/
def loadPropertyKey (node : ℕ) (key : Key) : Option (List Ins) :=
  match toNamedPropertyKey key with
  | .name name => some [.loadKey name]
  | .register => compileKey node key

/-- The body of the loop of `CompileRemainingProperties`. -/
def compileProperty : Property → Option (List Ins)
  | .spread node => some [.evaluateSpread node, .copyDataProperties node]
  | .accessor node side key =>
    (loadPropertyKey node key).map fun code =>
      code ++ [.compileValue node .function, .defineGetterSetterByValue side]
  | .init node key value =>
    (toPropertyKey node key).map fun r =>
      r.2 ++ [.compileValue node value, .storeOwnProperty r.1]
  | .proto node value => some [.compileValue node value, .setObjectWithProto]

/-- `CompileRemainingProperties`. -/
def compileRemaining : List (Property × Bool) → Option (List Ins)
  | [] => some []
  | (_, true) :: ps => compileRemaining ps
  | (p, false) :: ps => do
    let code ← compileProperty p
    let rest ← compileRemaining ps
    some (code ++ rest)

/-- The object that is created first, and the code behind it. -/
structure Compiled where
  buf : LiteralBuffer
  hasMethod : Bool
  code : List Ins

/-- `ObjectExpression::Compile`. -/
def compile (properties : List Property) : Option Compiled :=
  if properties = [] then some ⟨[], false, []⟩
  else do
    let (st, compiled) ← staticLoop {} properties
    let code ← compileRemaining (properties.zip compiled)
    some ⟨st.buf, st.hasMethod, code⟩

/-! ## What the code does -/

/-- The property that an entry stands for. Methods need an instruction of their own. -/
def Entry.slot (hasMethod : Bool) : Entry → Slot JsValue JsValue
  | literal l => .data (.literal l)
  | accessor => .accessor none none
  | method _ node => .data (if hasMethod then .closure node else .literal .null)
  | null => .data (.literal .null)

/-- `createemptyobject`, `createobjectwithbuffer` and `createobjecthavingmethod`. -/
def createObject (buf : LiteralBuffer) (hasMethod : Bool) : Object where
  keys := buf.names.map .own
  slot
    | .own name => (buf.lookup name).map (Entry.slot hasMethod)
    | .proto => none

/-- What the register of the key holds: a name, or the value of a key still to be converted. -/
inductive KeyRegister where
  | name (name : Name)
  | value (node : ℕ)

/-- The registers of `CompileRemainingProperties`, the accumulator and what has happened. -/
structure Machine where
  object : Object
  history : List Event := []
  key : KeyRegister := .name []
  acc : JsValue := .literal .null

namespace Machine

variable (u : UserCode)

/-- An event, and whether it completes. -/
def perform (m : Machine) (e : Event) : Machine × Bool :=
  ({ m with history := m.history ++ [e] }, u.completes (m.history ++ [e]))

/-- A definition under the key of the register, which is converted now. -/
def defineByValue (m : Machine) (change : Change JsValue JsValue) : Machine × Bool :=
  match m.key with
  | .name name => ({ m with object := m.object.define (.own name, change) }, true)
  | .value node =>
    let r := m.perform u (.toPropertyKey node)
    if r.2 then
      ({ r.1 with object := m.object.define (.own (u.name r.1.history), change) }, true)
    else r

def step (m : Machine) : Ins → Machine × Bool
  | .loadKey name => ({ m with key := .name name }, true)
  | .evaluateKey node =>
    let r := m.perform u (.evaluateKey node)
    ({ r.1 with key := .value node }, r.2)
  | .compileValue node value =>
    match value with
    | .constant l => ({ m with acc := .literal l }, true)
    | .method _ _ | .function => ({ m with acc := .closure node }, true)
    | .expression =>
      let r := m.perform u (.evaluateValue node)
      ({ r.1 with acc := u.value r.1.history }, r.2)
  | .evaluateSpread node => m.perform u (.evaluateSpread node)
  | .copyDataProperties node =>
    let r := m.perform u (.copyProperties node)
    if r.2 then
      ({ r.1 with object := m.object.defineAll (copies (u.source r.1.history)) }, true)
    else r
  | .storeOwnProperty (.name name) => ({ m with object := m.object.define (.own name, .data m.acc) }, true)
  | .storeOwnProperty .register => m.defineByValue u (.data m.acc)
  | .defineGetterSetterByValue side => m.defineByValue u (.accessor side m.acc)
  | .setObjectWithProto => ({ m with object := m.object.define (.proto, .data m.acc) }, true)

/-- Instructions up to the first that does not complete. -/
def exec (m : Machine) : List Ins → Machine × Bool
  | [] => (m, true)
  | ins :: code =>
    match m.step u ins with
    | (m', true) => exec m' code
    | (m', false) => (m', false)

end Machine

/-- What has happened when the code is through, and the object if it gets there. -/
def Compiled.run (u : UserCode) (c : Compiled) : List Event × Option Object :=
  match Machine.exec u { object := createObject c.buf c.hasMethod } c.code with
  | (m, true) => (m.history, some m.object)
  | (m, false) => (m.history, none)

/-- The literal is compiled, and with any user code its code evaluates the same subexpressions as ECMAScript
does, in the same order, and makes the same object. -/
def ObjectExpression.Right (e : ObjectExpression) : Prop :=
  ∃ c, compile e.properties = some c ∧ ∀ u, c.run u = e.evaluate u

end ArkTs2abc.Es2panda.ObjectLiteral
