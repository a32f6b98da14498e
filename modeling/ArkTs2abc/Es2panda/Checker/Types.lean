import Mathlib.Data.Finset.Lattice.Fold
import Mathlib.Data.Rat.Defs

/-!
# The types of the checker

The nodes of the graph of types. The type `τ` is that of pointers to types; what a pointer leads to is
a `TypeNode`. Only what the relations, the union constructor and the operators read is kept: names
that are printed are left out.

## Main definitions

* `TypeFlag`, `VariableFlag` — the bits that types and members carry.
* `Signature`, `IndexInfo`, `ObjectDescriptor`, `Interface`, `ObjectType` — what objects are made of.
* `TypeNode` — a type, with pointers to its parts.
-/

namespace Es2panda.Checker

/-- The bits of `enum class TypeFlag` that the constructors of types set, and the mark that the
elaboration of object literals leaves. -/
inductive TypeFlag where
  | number
  | string
  | boolean
  | void
  | nullType
  | undefined
  | unknown
  | never
  | union
  | object
  | bigint
  | booleanLiteral
  | numberLiteral
  | stringLiteral
  | bigintLiteral
  | enum
  | enumLiteral
  | any
  | array
  | nonPrimitive
  | relationChecked
  | typeReference
  deriving DecidableEq

/-- The bits of `enum class VariableFlags` that members of types carry. -/
inductive VariableFlag where
  | optional
  | property
  | method
  | readonly
  | computed
  | computedIdent
  | computedIndex
  | indexName
  deriving DecidableEq

/-- A double, the two zeros being one as `==` has it. -/
inductive Number where
  | nan
  | infinity (negative : Bool)
  | finite (value : ℚ)
  deriving DecidableEq

/-- The value of a member of an enum. -/
inductive EnumValue where
  | none
  | number (value : Number)
  | string (value : List Char)
  deriving DecidableEq

/-- A member of an object type, `binder::LocalVariable`. -/
structure Property (τ : Type) where
  name : List Char
  tsType : τ
  flags : Finset VariableFlag

def Property.hasFlag {τ : Type} (p : Property τ) (flag : VariableFlag) : Bool := flag ∈ p.flags

/-- A signature with its address. Only parameters that are not optional count for `minArgCount`. -/
structure Signature (τ : Type) where
  address : ℕ
  funcParams : List τ
  minArgCount : ℕ
  restVar : Option τ
  returnType : τ
  minArgCount_le : minArgCount ≤ funcParams.length

def Signature.optionalArgCount {τ : Type} (s : Signature τ) : ℕ := s.funcParams.length - s.minArgCount

/-- An index signature with its address. -/
structure IndexInfo (τ : Type) where
  address : ℕ
  infoType : τ

structure ObjectDescriptor (τ : Type) where
  properties : List (Property τ)
  callSignatures : List (Signature τ)
  constructSignatures : List (Signature τ)
  stringIndexInfo : Option (IndexInfo τ)
  numberIndexInfo : Option (IndexInfo τ)

namespace ObjectDescriptor

variable {τ : Type}

def findProperty (desc : ObjectDescriptor τ) (name : List Char) : Option (Property τ) :=
  desc.properties.find? fun p => p.name = name

def signatures (desc : ObjectDescriptor τ) (call : Bool) : List (Signature τ) :=
  if call then desc.callSignatures else desc.constructSignatures

def indexInfo (desc : ObjectDescriptor τ) (number : Bool) : Option (IndexInfo τ) :=
  if number then desc.numberIndexInfo else desc.stringIndexInfo

end ObjectDescriptor

/-- An interface as far as the interfaces that extend it read it. An interface that extends itself is
refused when it is declared, so the bases are a tree. -/
inductive Interface (τ : Type) where
  | mk (desc : ObjectDescriptor τ) (bases : List (Interface τ))

namespace Interface

variable {τ : Type}

def collectOwnProperties : List (Property τ) → List (Property τ) → List (Property τ)
  | [], collected => collected
  | p :: ps, collected =>
    if collected.any fun c => p.name = c.name then collectOwnProperties ps collected
    else collectOwnProperties ps (collected ++ [p])

mutual

def collectProperties : Interface τ → List (Property τ) → List (Property τ)
  | .mk desc bases, collected =>
    collectPropertiesOfBases bases (collectOwnProperties desc.properties collected)

def collectPropertiesOfBases : List (Interface τ) → List (Property τ) → List (Property τ)
  | [], collected => collected
  | base :: bases, collected => collectPropertiesOfBases bases (base.collectProperties collected)

end

mutual

def collectSignatures (call : Bool) : Interface τ → List (Signature τ)
  | .mk desc bases => desc.signatures call ++ collectSignaturesOfBases call bases

def collectSignaturesOfBases (call : Bool) : List (Interface τ) → List (Signature τ)
  | [] => []
  | base :: bases => base.collectSignatures call ++ collectSignaturesOfBases call bases

end

mutual

def findIndexInfo (number : Bool) : Interface τ → Option (IndexInfo τ)
  | .mk desc bases =>
    match desc.indexInfo number with
    | some info => some info
    | none => findIndexInfoInBases number bases

def findIndexInfoInBases (number : Bool) : List (Interface τ) → Option (IndexInfo τ)
  | [] => none
  | base :: bases =>
    match base.findIndexInfo number with
    | some info => some info
    | none => findIndexInfoInBases number bases

end

mutual

def getProperty (name : List Char) : Interface τ → Option (Property τ)
  | .mk desc bases =>
    match desc.findProperty name with
    | some p => some p
    | none => getPropertyOfBases name bases

def getPropertyOfBases (name : List Char) : List (Interface τ) → Option (Property τ)
  | [] => none
  | base :: bases =>
    match base.getProperty name with
    | some p => some p
    | none => getPropertyOfBases name bases

end

end Interface

/-- What the classes of object types have besides the descriptor. Constructor types are of the kind of
functions. -/
inductive ObjectTypeKind (τ : Type) where
  | literal
  | interface (bases : List (Interface τ))
  | tuple (minLength fixedLength : ℕ)
  | function

namespace ObjectTypeKind

variable {τ : Type}

def isInterfaceType : ObjectTypeKind τ → Bool
  | interface _ => true
  | _ => false

def isTupleType : ObjectTypeKind τ → Bool
  | tuple _ _ => true
  | _ => false

/-- The comparison of `kind_` with `Kind()`. -/
def same : ObjectTypeKind τ → ObjectTypeKind τ → Bool
  | literal, literal => true
  | interface _, interface _ => true
  | tuple _ _, tuple _ _ => true
  | function, function => true
  | _, _ => false

end ObjectTypeKind

structure ObjectType (τ : Type) where
  kind : ObjectTypeKind τ
  desc : ObjectDescriptor τ
  checkExcessProps : Bool

namespace ObjectType

variable {τ : Type}

/-- What an object type has itself and from its bases: `CollectProperties` of an interface, the
properties of the others. -/
def allProperties (o : ObjectType τ) : List (Property τ) :=
  match o.kind with
  | .interface bases => (Interface.mk o.desc bases).collectProperties []
  | _ => o.desc.properties

def allSignatures (o : ObjectType τ) (call : Bool) : List (Signature τ) :=
  match o.kind with
  | .interface bases => (Interface.mk o.desc bases).collectSignatures call
  | _ => o.desc.signatures call

def anyIndexInfo (o : ObjectType τ) (number : Bool) : Option (IndexInfo τ) :=
  match o.kind with
  | .interface bases => (Interface.mk o.desc bases).findIndexInfo number
  | _ => o.desc.indexInfo number

def getProperty (o : ObjectType τ) (name : List Char) : Option (Property τ) :=
  match o.kind with
  | .interface bases => (Interface.mk o.desc bases).getProperty name
  | _ => o.desc.findProperty name

end ObjectType

/-- A type. A type reference leads to what its type parameter stands for at the moment. -/
inductive TypeNode (τ : Type) where
  | any
  | unknown
  | never
  | void
  | null
  | undefined
  | number
  | string
  | boolean
  | bigint
  | nonPrimitive
  | numberLiteral (value : Number)
  | stringLiteral (value : List Char)
  | bigintLiteral (value : List Char) (negative : Bool)
  | booleanLiteral (value : Bool)
  | enumLiteral (variableOfType : Option ℕ)
  | enumType (enumVar : ℕ) (value : EnumValue)
  | array (element : τ)
  | union (constituentTypes : List τ) (constituentFlags : Finset TypeFlag)
  | object (type : ObjectType τ)
  | typeReference (ref : Option τ)

namespace TypeNode

variable {τ : Type}

/-- The flag that the constructor of the class sets. -/
def typeFlag : TypeNode τ → TypeFlag
  | any => .any
  | unknown => .unknown
  | never => .never
  | void => .void
  | null => .nullType
  | undefined => .undefined
  | number => .number
  | string => .string
  | boolean => .boolean
  | bigint => .bigint
  | nonPrimitive => .nonPrimitive
  | numberLiteral _ => .numberLiteral
  | stringLiteral _ => .stringLiteral
  | bigintLiteral _ _ => .bigintLiteral
  | booleanLiteral _ => .booleanLiteral
  | enumLiteral _ => .enumLiteral
  | enumType _ _ => .enum
  | array _ => .array
  | union _ _ => .union
  | object _ => .object
  | typeReference _ => .typeReference

def isNeverType (t : TypeNode τ) : Bool := t.typeFlag = .never

def isNumberLiteralType (t : TypeNode τ) : Bool := t.typeFlag = .numberLiteral

def isStringLiteralType (t : TypeNode τ) : Bool := t.typeFlag = .stringLiteral

def isBigintLiteralType (t : TypeNode τ) : Bool := t.typeFlag = .bigintLiteral

def isBooleanLiteralType (t : TypeNode τ) : Bool := t.typeFlag = .booleanLiteral

def isObjectType (t : TypeNode τ) : Bool := t.typeFlag = .object

end TypeNode

end Es2panda.Checker
