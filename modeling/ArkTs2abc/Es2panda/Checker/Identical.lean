import ArkTs2abc.MemoizedCalls
import ArkTs2abc.Es2panda.Checker.Types

/-!
# Identity of types

The methods `Identical` of the classes of types, as trees of the comparisons they call for. The
register `result_` of the relation is handed from one comparison to the next.

## Main definitions

* `Identity` — a comparison in progress, with the register.
* `TypeNode.identical` — the virtual method `Identical`.
* `identityTree` — what a comparison calls for, without the memory of earlier results.
* `Identical` — the method answers that two types are identical.
-/

namespace Es2panda.Checker

open NestedCalls

/-- The register `result_`. -/
inductive RelationResult where
  | true
  | false
  | unknown
  | maybe
  | cacheMiss
  deriving DecidableEq

def RelationResult.ofBool (b : Bool) : RelationResult := bif b then .true else .false

/-- The calls for identity: of `IsIdenticalTo`, and of the method `Identical` of a type that a type
reference leads to. -/
inductive IdentityQuery (τ : Type) where
  | isIdenticalTo (result : RelationResult) (source target : τ)
  | identical (result : RelationResult) (target other : τ)

abbrev Identity (τ α : Type) : Type :=
  StateT RelationResult (Tree (IdentityQuery τ) RelationResult) α

variable {τ : Type}

namespace Identity

def result (b : Bool) : Identity τ Unit := set (RelationResult.ofBool b)

def isTrue : Identity τ Bool := do return (← get) = .true

def isIdenticalTo (source target : τ) : Identity τ Bool := fun result =>
  .call (.isIdenticalTo result source target) fun r => .ret (r = .true, r)

def identicalMethod (target other : τ) : Identity τ Unit := fun result =>
  .call (.identical result target other) fun r => .ret ((), r)

end Identity

open Identity

/-- The parameters of two signatures one by one, up to the first that are not identical. -/
def Signature.identicalParams : List τ → List τ → Identity τ Bool
  | p :: ps, o :: os => do
    if ← isIdenticalTo p o then identicalParams ps os else return false
  | _, _ => return true

def Signature.identical (this other : Signature τ) : Identity τ Unit := do
  if this.minArgCount ≠ other.minArgCount ∨ this.funcParams.length ≠ other.funcParams.length then
    result false
  else if ← isIdenticalTo this.returnType other.returnType then
    if ← identicalParams this.funcParams other.funcParams then
      match this.restVar, other.restVar with
      | some rest, some otherRest => discard <| isIdenticalTo rest otherRest
      | none, none => return ()
      | _, _ => result false

/-- `IsIdenticalTo` of signatures: the addresses are compared first. -/
def isIdenticalToSignature (source target : Signature τ) : Identity τ Bool := do
  if source.address = target.address then
    result true
    return true
  else
    result false
    target.identical source
    isTrue

/-- `IsIdenticalTo` of index signatures, of which either both or none are missing. -/
def isIdenticalToIndexInfo (source target : Option (IndexInfo τ)) : Identity τ Bool := do
  match source, target with
  | some source, some target =>
    if source.address = target.address then
      result true
      return true
    else
      result false
      isIdenticalTo target.infoType source.infoType
  | none, none =>
    result true
    return true
  | _, _ => return false

/-- Is the source signature identical to one of the targets? The first such is taken out. -/
def ObjectType.signatureRelatedToSomeSignature (source : Signature τ) :
    List (Signature τ) → Identity τ (Bool × List (Signature τ))
  | [] => return (false, [])
  | target :: targets => do
    if ← isIdenticalToSignature source target then
      return (true, targets)
    else
      let (found, rest) ← signatureRelatedToSomeSignature source targets
      return (found, target :: rest)

def ObjectType.eachSignatureRelatedToSomeSignature :
    List (Signature τ) → List (Signature τ) → Identity τ Bool
  | [], _ => return true
  | source :: sources, targets => do
    let (found, rest) ← signatureRelatedToSomeSignature source targets
    if found then eachSignatureRelatedToSomeSignature sources rest else return false

/-- Both lists of signatures cover each other. -/
def ObjectType.sameSignatures (ours others : List (Signature τ)) : Identity τ Bool := do
  if ← eachSignatureRelatedToSomeSignature ours others then
    eachSignatureRelatedToSomeSignature others ours
  else
    return false

/-- The properties of an object type against those of the other with the same names. -/
def ObjectType.identicalProperties (others : ObjectDescriptor τ) : List (Property τ) → Identity τ Bool
  | [] => return true
  | it :: rest => do
    match others.findProperty it.name with
    | none =>
      result false
      return false
    | some found =>
      if ← isIdenticalTo it.tsType found.tsType then
        if it.flags ≠ found.flags then
          result false
          return false
        else
          identicalProperties others rest
      else
        return false

def ObjectType.identical (this : ObjectType τ) (other : TypeNode τ) : Identity τ Unit := do
  let .object otherObj := other | return ()
  if ¬ this.kind.same otherObj.kind then return ()
  else if this.desc.properties.length ≠ otherObj.desc.properties.length ∨
      this.desc.callSignatures.length ≠ otherObj.desc.callSignatures.length ∨
      this.desc.constructSignatures.length ≠ otherObj.desc.constructSignatures.length ∨
      this.desc.numberIndexInfo.isSome ≠ otherObj.desc.numberIndexInfo.isSome ∨
      this.desc.stringIndexInfo.isSome ≠ otherObj.desc.stringIndexInfo.isSome then
    result false
  else if ← identicalProperties otherObj.desc this.desc.properties then
    if ← sameSignatures this.desc.callSignatures otherObj.desc.callSignatures then
      if ← sameSignatures this.desc.constructSignatures otherObj.desc.constructSignatures then
        if this.desc.numberIndexInfo.isNone ||
            (← isIdenticalToIndexInfo this.desc.numberIndexInfo otherObj.desc.numberIndexInfo) then
          if this.desc.stringIndexInfo.isSome then
            discard <| isIdenticalToIndexInfo this.desc.stringIndexInfo otherObj.desc.stringIndexInfo

/-- Has some property of the source the name of the target's and an identical type? -/
def InterfaceType.foundProp (targetProp : Property τ) : List (Property τ) → Identity τ Bool
  | [] => return false
  | sourceProp :: rest => do
    if targetProp.name = sourceProp.name then
      if ← isIdenticalTo targetProp.tsType sourceProp.tsType then return true
      else foundProp targetProp rest
    else
      foundProp targetProp rest

def InterfaceType.identicalProperties (sourceProperties : List (Property τ)) :
    List (Property τ) → Identity τ Bool
  | [] => return true
  | targetProp :: rest => do
    if ← foundProp targetProp sourceProperties then
      identicalProperties sourceProperties rest
    else
      result false
      return false

/-- The call or the construct signatures of two interfaces. -/
def InterfaceType.identicalSignatures (targets sources : List (Signature τ)) : Identity τ Bool := do
  if targets.length ≠ sources.length then
    result false
    return false
  else
    ObjectType.sameSignatures targets sources

/-- An index signature that only one of two interfaces has makes them different. -/
def InterfaceType.identicalIndexInfo (target source : Option (IndexInfo τ)) : Identity τ Bool := do
  if target.isSome ≠ source.isSome then
    result false
    return false
  else
    isIdenticalToIndexInfo target source

def InterfaceType.identical (this : ObjectType τ) (other : TypeNode τ) : Identity τ Unit := do
  let .object otherObj := other | return ()
  if ¬ otherObj.kind.isInterfaceType then return ()
  else if this.allProperties.length ≠ otherObj.allProperties.length then
    result false
  else if ← identicalProperties otherObj.allProperties this.allProperties then
    if ← identicalSignatures (this.allSignatures true) (otherObj.allSignatures true) then
      if ← identicalSignatures (this.allSignatures false) (otherObj.allSignatures false) then
        if ← identicalIndexInfo (this.anyIndexInfo true) (otherObj.anyIndexInfo true) then
          discard <| identicalIndexInfo (this.anyIndexInfo false) (otherObj.anyIndexInfo false)

/-- The elements of two tuples of one length. -/
def TupleType.identicalProperties : List (Property τ) → List (Property τ) → Identity τ Unit
  | targetProp :: targets, sourceProp :: sources => do
    if targetProp.flags ≠ sourceProp.flags then
      result false
    else if ← isIdenticalTo targetProp.tsType sourceProp.tsType then
      identicalProperties targets sources
  | _, _ => result true

def TupleType.identical (this : ObjectType τ) (other : TypeNode τ) : Identity τ Unit := do
  let .object otherTuple := other | return ()
  if otherTuple.kind.isTupleType ∧
      this.desc.properties.length = otherTuple.desc.properties.length then
    identicalProperties this.desc.properties otherTuple.desc.properties

def UnionType.typeRelatedToSomeType (source : τ) : List τ → Identity τ Bool
  | [] => return false
  | t :: ts => do
    if ← isIdenticalTo source t then return true else typeRelatedToSomeType source ts

def UnionType.eachTypeRelatedToSomeType : List τ → List τ → Identity τ Bool
  | [], _ => return true
  | s :: ss, targets => do
    if ← typeRelatedToSomeType s targets then eachTypeRelatedToSomeType ss targets else return false

def UnionType.identical (this : List τ) (other : TypeNode τ) : Identity τ Unit := do
  let .union others _ := other | result false
  if ← eachTypeRelatedToSomeType this others then
    result (← eachTypeRelatedToSomeType others this)
  else
    result false

/-- `Identical` of the classes that have one type only. -/
def identicalKind (flag : TypeFlag) (other : TypeNode τ) : Identity τ Unit := do
  if other.typeFlag = flag then result true

variable (node : τ → TypeNode τ)

/-- The virtual method `Identical`. Enum types and enum literal types have none yet. -/
def TypeNode.identical (this : TypeNode τ) (other : τ) : Identity τ Unit := do
  match this with
  | .any => identicalKind .any (node other)
  | .unknown => identicalKind .unknown (node other)
  | .never => identicalKind .never (node other)
  | .void => identicalKind .void (node other)
  | .null => identicalKind .nullType (node other)
  | .undefined => identicalKind .undefined (node other)
  | .number => identicalKind .number (node other)
  | .string => identicalKind .string (node other)
  | .boolean => identicalKind .boolean (node other)
  | .bigint => identicalKind .bigint (node other)
  | .nonPrimitive => identicalKind .nonPrimitive (node other)
  | .numberLiteral value =>
    if let .numberLiteral otherValue := node other then result (value = otherValue)
  | .stringLiteral value =>
    if let .stringLiteral otherValue := node other then result (value = otherValue)
  | .bigintLiteral value negative =>
    if let .bigintLiteral otherValue otherNegative := node other then
      if negative = otherNegative then result (value = otherValue)
  | .booleanLiteral _ =>
    if let .booleanLiteral otherValue := node other then result otherValue
  | .enumLiteral _ => return ()
  | .enumType _ _ => return ()
  | .array element =>
    if let .array otherElement := node other then discard <| isIdenticalTo element otherElement
  | .union constituentTypes _ => UnionType.identical constituentTypes (node other)
  | .object type =>
    match type.kind with
    | .interface _ => InterfaceType.identical type (node other)
    | .tuple _ _ => TupleType.identical type (node other)
    | _ => type.identical (node other)
  | .typeReference (some ref) => identicalMethod ref other
  | .typeReference none => return ()

/-- The register behind a method. -/
def Identity.register {α : Type} (m : Identity τ α) (result : RelationResult) :
    Tree (IdentityQuery τ) RelationResult RelationResult := do
  return (← m result).2

/-- A comparison without the memory of earlier results. -/
def identityTree [DecidableEq τ] :
    IdentityQuery τ → Tree (IdentityQuery τ) RelationResult RelationResult
  | .isIdenticalTo _ source target =>
    if source = target then .ret .true
    else ((node target).identical node source).register .false
  | .identical result target other => ((node target).identical node other).register result

end Es2panda.Checker
