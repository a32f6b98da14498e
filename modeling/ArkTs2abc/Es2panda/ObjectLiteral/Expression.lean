import ArkTs2abc.PropertyTable

/-!
# Object literals

The properties of an object literal, and the object that ECMAScript makes of them from left to right. What
subexpressions do is user code: it answers an event by what has happened so far.

## Main definitions

* `Property` — as in the tree.
* `UserCode`, `Event` — what happens while a literal is evaluated.
* `evaluate` — the object of ECMAScript.
-/

namespace ArkTs2abc.Es2panda.ObjectLiteral

open PropertyTable (Side Change Table)

abbrev Name := List Char

/-! ## The tree -/

inductive Literal where
  | null
  | boolean (b : Bool)
  | number (text : Name)
  | string (str : Name)
  deriving DecidableEq, Repr

/-- The key of a property. What is in brackets is computed, and booleans, `null` and other expressions
always are. -/
inductive Key where
  | identifier (name : Name)
  | stringLiteral (str : Name) (isComputed : Bool)
  /-- The text of the token, the name that the number has as a key, and whether it is an index. -/
  | numberLiteral (text name : Name) (isIndex isComputed : Bool)
  | bigIntLiteral (name : Name)
  | booleanLiteral (b : Bool)
  | nullLiteral
  | expression
  deriving DecidableEq, Repr

/-- The value of a property. -/
inductive Value where
  | constant (l : Literal)
  | method (isGenerator isAsync : Bool)
  /-- A function that is no method. -/
  | function
  | expression
  deriving DecidableEq, Repr

/-- The properties by their kinds: `init`, `get` and `set`, and `proto`. -/
inductive Property where
  | spread (node : ℕ)
  | init (node : ℕ) (key : Key) (value : Value)
  | accessor (node : ℕ) (side : Side) (key : Key)
  | proto (node : ℕ) (value : Value)

/-- The node that stands for the property. -/
def Property.node : Property → ℕ
  | spread node | init node _ _ | accessor node _ _ | proto node _ => node

/-- The properties are different nodes. -/
structure ObjectExpression where
  properties : List Property
  nodup : (properties.map Property.node).Nodup

/-! ## Values and user code -/

/-- What a property can hold: a literal, the closure of a property, and anything else. -/
inductive JsValue where
  | literal (l : Literal)
  | closure (node : ℕ)
  | user (n : ℕ)
  deriving DecidableEq, Repr

/-- Where an object keeps something: its own properties, and its prototype. -/
inductive Place where
  | own (name : Name)
  | proto
  deriving DecidableEq, Repr

abbrev Definition := Place × Change JsValue JsValue

/-- All properties that a literal defines can be written, enumerated and configured. -/
abbrev Object := Table Place JsValue JsValue

/-- What user code can observe, with the node of the property. -/
inductive Event where
  | evaluateKey (node : ℕ)
  | toPropertyKey (node : ℕ)
  | evaluateValue (node : ℕ)
  | evaluateSpread (node : ℕ)
  | copyProperties (node : ℕ)
  deriving DecidableEq, Repr

/-- The answers to the last event of a history: whether it completes, and with which key, value, or
properties of a source. -/
structure UserCode where
  completes : List Event → Bool
  name : List Event → Name
  value : List Event → JsValue
  source : List Event → List (Name × JsValue)

/-- Events up to the first that does not complete. -/
def UserCode.perform (u : UserCode) (history : List Event) : List Event → List Event × Bool
  | [] => (history, true)
  | e :: events =>
    if u.completes (history ++ [e]) then u.perform (history ++ [e]) events else (history ++ [e], false)

/-! ## Evaluation -/

/-- The name that a literal has as a property key. -/
def Key.name : Key → Option Name
  | identifier name => some name
  | stringLiteral str _ => some str
  | numberLiteral _ name _ _ => some name
  | bigIntLiteral name => some name
  | booleanLiteral b => some (if b then "true".toList else "false".toList)
  | nullLiteral => some "null".toList
  | expression => none

/-- The events of a key. It is a property key before the value is looked at. -/
def Key.events (node : ℕ) : Key → List Event
  | expression => [.evaluateKey node, .toPropertyKey node]
  | identifier _ | stringLiteral _ _ | numberLiteral _ _ _ _ | bigIntLiteral _ | booleanLiteral _
  | nullLiteral => []

/-- The property key, where the history ends with its events. -/
def Key.place (u : UserCode) (history : List Event) (key : Key) : Place :=
  .own (key.name.getD (u.name history))

def Value.events (node : ℕ) : Value → List Event
  | expression => [.evaluateValue node]
  | constant _ | method _ _ | function => []

/-- The value, where the history ends with its events. -/
def Value.result (u : UserCode) (node : ℕ) (history : List Event) : Value → JsValue
  | constant l => .literal l
  | method _ _ | function => .closure node
  | expression => u.value history

/-- The definitions that copy the properties of a source. -/
def copies (source : List (Name × JsValue)) : List Definition :=
  source.map fun p => (.own p.1, .data p.2)

/-- Events, and the definitions that follow them, by what has happened before. -/
structure Evaluation where
  events : List Event
  definitions : List Event → List Definition

/-- The evaluation of a property definition. -/
def Property.evaluation (u : UserCode) : Property → Evaluation
  | spread node =>
    ⟨[.evaluateSpread node, .copyProperties node],
      fun h => copies (u.source (h ++ [.evaluateSpread node, .copyProperties node]))⟩
  | init node key value =>
    ⟨key.events node ++ value.events node, fun h =>
      [(key.place u (h ++ key.events node),
        .data (value.result u node (h ++ key.events node ++ value.events node)))]⟩
  | accessor node side key =>
    ⟨key.events node, fun h => [(key.place u (h ++ key.events node), .accessor side (.closure node))]⟩
  | proto node value =>
    ⟨value.events node, fun h => [(.proto, .data (value.result u node (h ++ value.events node)))]⟩

/-- Evaluations one after the other: what has happened, and the object if all of them complete. -/
def evaluateAll (u : UserCode) (history : List Event) (object : Object) :
    List Evaluation → List Event × Option Object
  | [] => (history, some object)
  | e :: es =>
    match u.perform history e.events with
    | (history', true) => evaluateAll u history' (object.defineAll (e.definitions history)) es
    | (history', false) => (history', none)

/-- The evaluation of the literal. -/
def ObjectExpression.evaluate (u : UserCode) (e : ObjectExpression) : List Event × Option Object :=
  evaluateAll u [] .empty (e.properties.map (Property.evaluation u))

end ArkTs2abc.Es2panda.ObjectLiteral
