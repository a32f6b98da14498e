import ArkTs2abc.Es2panda.Checker.Identical

/-!
# Assignability of types

The methods `AssignmentSource` and `AssignmentTarget` of the classes of types, and the relation with
its memory of earlier results.

## Main definitions

* `Relation` — the memory of the relation and the marks of elaborated object literals.
* `Signature.assignmentTarget` — the comparison of two signatures.
* `TypeNode.assignmentTarget` — the virtual method `AssignmentTarget`.
* `relationBody` — `IsIdenticalTo` and `IsAssignableTo`.
-/

namespace Es2panda.Checker

open NestedCalls

variable {τ : Type}

/-- The results that were found earlier, and the types with the flag `RELATION_CHECKED`. -/
structure Relation (τ : Type) where
  identicalResults : τ → τ → Option RelationResult
  assignableResults : τ → τ → Option RelationResult
  relationChecked : τ → Bool

namespace Relation

def empty : Relation τ := ⟨fun _ _ => none, fun _ _ => none, fun _ => false⟩

variable [DecidableEq τ]

/-- A result that is there already is kept. -/
def insertResult (cached : τ → τ → Option RelationResult) (source target : τ) (r : RelationResult) :
    τ → τ → Option RelationResult := fun s t =>
  if s = source ∧ t = target then (cached s t).or (some r) else cached s t

def insertIdentical (source target : τ) (r : RelationResult) (st : Relation τ) : Relation τ :=
  { st with identicalResults := insertResult st.identicalResults source target r }

def insertAssignable (source target : τ) (r : RelationResult) (st : Relation τ) : Relation τ :=
  { st with assignableResults := insertResult st.assignableResults source target r }

def addRelationChecked (t : τ) (st : Relation τ) : Relation τ :=
  { st with relationChecked := Function.update st.relationChecked t true }

def removeRelationChecked (t : τ) (st : Relation τ) : Relation τ :=
  { st with relationChecked := Function.update st.relationChecked t false }

end Relation

/-- Where the register says that the last lookup missed, nothing is looked up. -/
def cacheLookup (result : RelationResult) (cached : Option RelationResult) : RelationResult :=
  if result = .cacheMiss then result
  else
    match cached with
    | some .true => .true
    | some .false => .false
    | _ => .cacheMiss

/-- A call of `IsAssignableTo`. -/
structure AssignabilityQuery (τ : Type) where
  result : RelationResult
  source : τ
  target : τ

/-- The calls of the relation. -/
inductive Query (τ : Type) where
  | identity (q : IdentityQuery τ)
  | isAssignableTo (q : AssignabilityQuery τ)
  | assignmentTarget (result : RelationResult) (target source : τ)

/-- A comparison of signatures in progress, with the register. -/
abbrev SignatureRelating (τ α : Type) : Type :=
  StateT RelationResult (Tree (AssignabilityQuery τ) RelationResult) α

namespace SignatureRelating

def result (b : Bool) : SignatureRelating τ Unit := set (RelationResult.ofBool b)

def isAssignableTo (source target : τ) : SignatureRelating τ Bool := fun result =>
  .call ⟨result, source, target⟩ fun r => .ret (r = .true, r)

end SignatureRelating

open SignatureRelating in
/-- The loop over the parameters of the source, with those of the target that are left. -/
def Signature.assignParams (targetRest : Option τ) : List τ → List τ → SignatureRelating τ Bool
  | [], _ => return true
  | p :: ps, targets =>
    match targetRest with
    | some rest => do
      if ← isAssignableTo p rest then assignParams targetRest ps targets else return false
    | none =>
      match targets with
      | [] => return true
      | t :: ts => do
        if ← isAssignableTo p t then assignParams targetRest ps ts else return false

open SignatureRelating in
def Signature.assignmentTarget (this source : Signature τ) : SignatureRelating τ Unit := do
  if this.restVar = none ∧
      source.funcParams.length - source.optionalArgCount > this.funcParams.length then
    result false
  else if ← assignParams this.restVar source.funcParams this.funcParams then
    if ← isAssignableTo source.returnType this.returnType then
      match this.restVar, source.restVar with
      | some rest, some sourceRest => discard <| isAssignableTo sourceRest rest
      | _, _ => return ()

/-- A comparison for assignability in progress, with the register. -/
abbrev Relating (τ α : Type) : Type :=
  StateT RelationResult (Computation (Query τ) RelationResult (Relation τ)) α

namespace Relating

def result (b : Bool) : Relating τ Unit := set (RelationResult.ofBool b)

def isTrue : Relating τ Bool := do return (← get) = .true

def isAssignableTo (source target : τ) : Relating τ Bool := fun result =>
  .call (.isAssignableTo ⟨result, source, target⟩) fun r => .ret (r = .true, r)

def assignmentTargetMethod (target source : τ) : Relating τ Unit := fun result =>
  .call (.assignmentTarget result target source) fun r => .ret ((), r)

def ofSignatures {α : Type} (m : SignatureRelating τ α) : Relating τ α := fun result =>
  (m result).lift .isAssignableTo

def isRelationChecked (t : τ) : Relating τ Bool := fun result =>
  .read fun st => .ret (st.relationChecked t, result)

def removeRelationChecked [DecidableEq τ] (t : τ) : Relating τ Unit := fun result =>
  .read fun st => .write (st.removeRelationChecked t) (.ret ((), result))

end Relating

open Relating

/-- `AssignmentSource` of a union, for the constituents in turn. -/
def UnionType.assignmentSource (target : τ) : List τ → Relating τ Bool
  | [] => do
    result true
    return true
  | it :: rest => do
    if ← isAssignableTo it target then assignmentSource target rest else return false

def UnionType.assignmentTarget (source : τ) : List τ → Relating τ Unit
  | [] => return ()
  | it :: rest => do
    if ← isAssignableTo source it then return () else assignmentTarget source rest

/-- The elements of a tuple against the element type of an array. -/
def ArrayType.assignElements (element : τ) : List (Property τ) → Relating τ Unit
  | [] => result true
  | it :: rest => do
    if ← isAssignableTo it.tsType element then assignElements element rest else return ()

/-- Is there an index signature to use for a property, with a type that does not fit? -/
def ObjectType.indexInfoMisses (info : Option (IndexInfo τ)) (used : Bool) (it : Property τ) :
    Relating τ Bool := do
  match info with
  | some info => if used then return !(← isAssignableTo info.infoType it.tsType) else return false
  | none => return false

/-- The loop over the properties of the target. -/
def ObjectType.assignProperties [DecidableEq τ] (source : ObjectType τ) (excessPropertyCheck : Bool)
    (numberInfo stringInfo : Option (IndexInfo τ)) : List (Property τ) → Relating τ Unit
  | [] => return ()
  | it :: rest => do
    match source.getProperty it.name with
    | some found =>
      if ← isRelationChecked found.tsType then
        removeRelationChecked found.tsType
        assignProperties source excessPropertyCheck numberInfo stringInfo rest
      else if ← isAssignableTo found.tsType it.tsType then
        if excessPropertyCheck ∧ found.hasFlag .optional ∧ ¬ it.hasFlag .optional then
          result false
        else
          assignProperties source excessPropertyCheck numberInfo stringInfo rest
    | none =>
      if ← indexInfoMisses numberInfo (it.hasFlag .computedIndex) it then return ()
      else if ← indexInfoMisses stringInfo true it then return ()
      else if excessPropertyCheck ∧ ¬ it.hasFlag .optional then
        result false
      else
        assignProperties source excessPropertyCheck numberInfo stringInfo rest

/-- Does some signature of the source fit the target's? -/
def ObjectType.foundCompatible (target : Signature τ) : List (Signature τ) → Relating τ Bool
  | [] => return false
  | source :: rest => do
    ofSignatures (target.assignmentTarget source)
    if ← isTrue then return true else foundCompatible target rest

def ObjectType.assignSignatures (sources : List (Signature τ)) : List (Signature τ) → Relating τ Unit
  | [] => return ()
  | target :: rest => do
    if ← foundCompatible target sources then assignSignatures sources rest else result false

def ObjectType.assignIndexInfo (target source : Option (IndexInfo τ)) : Relating τ Unit := do
  match target, source with
  | some target, some source => discard <| isAssignableTo source.infoType target.infoType
  | _, _ => return ()

def ObjectType.assignmentTarget [DecidableEq τ] (this : ObjectType τ) (source : TypeNode τ) :
    Relating τ Unit := do
  let .object sourceObj := source | result false
  result true
  assignProperties sourceObj this.checkExcessProps (this.anyIndexInfo true) (this.anyIndexInfo false)
    this.allProperties
  if ← isTrue then
    assignSignatures (sourceObj.allSignatures true) (this.allSignatures true)
    if ← isTrue then
      assignSignatures (sourceObj.allSignatures false) (this.allSignatures false)
      if ← isTrue then
        assignIndexInfo (this.anyIndexInfo true) (sourceObj.anyIndexInfo true)
        if ← isTrue then
          assignIndexInfo (this.anyIndexInfo false) (sourceObj.anyIndexInfo false)

/-- The loop over the elements of the target, with those of the source that are left. -/
def TupleType.assignElements : List (Property τ) → List (Property τ) → Relating τ Unit
  | [], _ => return ()
  | targetProp :: targets, sourceProp :: sources => do
    if ¬ targetProp.hasFlag .optional ∧ sourceProp.hasFlag .optional then
      result false
    else if ← isAssignableTo sourceProp.tsType targetProp.tsType then
      assignElements targets sources
  | targetProp :: targets, [] => do
    if targetProp.hasFlag .optional then assignElements targets [] else result false

def TupleType.assignmentTarget (this : ObjectType τ) (fixedLength : ℕ) (source : TypeNode τ) :
    Relating τ Unit := do
  let .object sourceTuple := source | result false
  let .tuple minLength _ := sourceTuple.kind | result false
  if fixedLength < minLength then
    result false
  else
    result true
    assignElements this.desc.properties sourceTuple.desc.properties
    if ← isTrue then
      ObjectType.assignIndexInfo this.desc.numberIndexInfo sourceTuple.desc.numberIndexInfo

variable (node : τ → TypeNode τ)

/-- The virtual method `AssignmentSource`. -/
def TypeNode.assignmentSource (this : TypeNode τ) (target : τ) : Relating τ Bool := do
  match this with
  | .any => result true; return true
  | .never => result true; return true
  | .null => result (¬ (node target).isNeverType); isTrue
  | .undefined => result (¬ (node target).isNeverType); isTrue
  | .union constituentTypes _ => UnionType.assignmentSource target constituentTypes
  | _ => return false

/-- The virtual method `AssignmentTarget`. -/
def TypeNode.assignmentTarget [DecidableEq τ] (this : TypeNode τ) (source : τ) : Relating τ Unit := do
  match this with
  | .any => result true
  | .unknown => result true
  | .never => result false
  | .void => return ()
  | .null => return ()
  | .undefined => return ()
  | .number =>
    match node source with
    | .numberLiteral _ => result true
    | .enumType _ (.number _) => result true
    | _ => return ()
  | .string => if (node source).isStringLiteralType then result true
  | .boolean => if (node source).isBooleanLiteralType then result true
  | .bigint => if (node source).isBigintLiteralType then result true
  | .nonPrimitive => if (node source).isObjectType then result true
  | .numberLiteral value =>
    if let .enumType _ (.number enumValue) := node source then
      if value = enumValue then result true
  | .stringLiteral _ => return ()
  | .bigintLiteral _ _ => return ()
  | .booleanLiteral _ => return ()
  | .enumLiteral variableOfType =>
    match node source with
    | .enumType enumVar _ => if variableOfType = some enumVar then result true
    | .number => result true
    | .numberLiteral _ => result true
    | _ => return ()
  | .enumType _ _ => if (node source).isNumberLiteralType then result true
  | .array element =>
    match node source with
    | .array sourceElement => discard <| isAssignableTo sourceElement element
    | .object sourceObj =>
      if sourceObj.kind.isTupleType then ArrayType.assignElements element sourceObj.desc.properties
    | _ => return ()
  | .union constituentTypes _ => UnionType.assignmentTarget source constituentTypes
  | .object type =>
    match type.kind with
    | .tuple _ fixedLength => TupleType.assignmentTarget type fixedLength (node source)
    | _ => type.assignmentTarget (node source)
  | .typeReference (some ref) =>
    match node source with
    | .typeReference (some sourceRef) => assignmentTargetMethod ref sourceRef
    | _ => assignmentTargetMethod ref source
  | .typeReference none => return ()

/-- What `IsAssignableTo` does for a pair of types that is not identical. -/
def relateAssignable [DecidableEq τ] (source target : τ) : Relating τ Unit := do
  unless ← (node source).assignmentSource node target do
    (node target).assignmentTarget node source

/-- `IsIdenticalTo`, `IsAssignableTo` and the methods that type references call. -/
def relationBody [DecidableEq τ] :
    Query τ → Computation (Query τ) RelationResult (Relation τ) RelationResult
  | .identity (.isIdenticalTo result source target) =>
    if source = target then .ret .true
    else .read fun st =>
      match cacheLookup result (st.identicalResults source target) with
      | .cacheMiss => do
        let r ← (identityTree node (.isIdenticalTo result source target)).lift .identity
        .read fun st => .write (st.insertIdentical source target r) (.ret r)
      | r => .ret r
  | .identity (.identical result target other) =>
    (identityTree node (.identical result target other)).lift .identity
  | .isAssignableTo ⟨result, source, target⟩ => .read fun st =>
    match cacheLookup result (st.assignableResults source target) with
    | .cacheMiss =>
      .call (.identity (.isIdenticalTo .cacheMiss source target)) fun
        | .true => .ret .true
        | _ => do
          let r ← relateAssignable node source target .false
          .read fun st => .write (st.insertAssignable source target r.2) (.ret r.2)
    | r => .ret r
  | .assignmentTarget result target source => do
    return (← (node target).assignmentTarget node source result).2

/-- `IsIdenticalTo` comes to an end. -/
def IsIdenticalToTerminates [DecidableEq τ] (st : Relation τ) (result : RelationResult)
    (source target : τ) : Prop :=
  Answered (relationBody node) (.identity (.isIdenticalTo result source target)) st

/-- `IsAssignableTo` comes to an end. -/
def IsAssignableToTerminates [DecidableEq τ] (st : Relation τ) (result : RelationResult)
    (source target : τ) : Prop :=
  Answered (relationBody node) (.isAssignableTo ⟨result, source, target⟩) st

end Es2panda.Checker
