import Mathlib.Data.List.Basic
import Mathlib.Tactic.Common

/-!
# Expressions as patterns

An array or object literal that turns out to be the target of an assignment is looked through again.
The conversions look for some kinds of nodes only and let the others pass, operators are not looked
at, and behind an assignment on the right of a default the answer for its left side is lost.

## Main definitions

* `convertibleElements`, `convertibleToRest`, … — as in the source.
* `allowed` — the grammar of assignment patterns.
* `faults` — what is wrong with a tree, and what of it the conversions see.

## Main results

* `convertsRight_iff` — the literals that are judged right.
-/

namespace ArkTs2abc.Es2panda.PatternConversion

/-! ## Trees -/

inductive Atom where
  | identifier
  | memberExpression
  | omittedExpression
  | metaProperty
  | chainExpression
  | sequenceExpression
  /-- A shorthand property with an initializer. -/
  | assignmentPattern
  | other
  deriving DecidableEq

mutual
inductive Node where
  | atom (a : Atom)
  | literal (isObject : Bool) (elements : Nodes) (trailingComma : Bool)
  | spreadElement (argument : Node)
  | assignmentExpression (isSubstitution : Bool) (left right : Node)
  | property (isAccessor isMethod : Bool) (value : Node)

inductive Nodes where
  | nil
  | cons (it : Node) (rest : Nodes)
end

def Node.isSpreadElement : Node → Bool
  | .spreadElement _ => true
  | _ => false

def Node.isAssignmentExpression : Node → Bool
  | .assignmentExpression .. => true
  | _ => false

def Nodes.isEmpty : Nodes → Bool
  | .nil => true
  | .cons .. => false

/-! ## The conversions -/

mutual
/-- The loop of both literals. -/
def convertibleElements (isObject trailingComma restFound : Bool) : Nodes → Bool
  | .nil => true
  | .cons it rest =>
    convertibleElement isObject (!restFound && rest.isEmpty && !trailingComma) it &&
      convertibleElements isObject trailingComma (restFound || it.isSpreadElement) rest

/-- The switch in it. -/
def convertibleElement (isObject canBeRest : Bool) : Node → Bool
  | .literal isObject' elements trailingComma =>
    convertibleElements isObject' trailingComma false elements
  | .spreadElement argument => canBeRest && convertibleToRest false (!isObject) argument
  | .assignmentExpression _ left right => convertibleRight (convertibleLeft true left) right
  | .property isAccessor isMethod value =>
    -- an array has no case for properties
    if isObject then if isAccessor || isMethod then false else convertibleValue value
    else true
  | .atom a => a ≠ .metaProperty ∧ a ≠ .chainExpression ∧ a ≠ .sequenceExpression

def convertibleToRest (isDeclaration allowPattern : Bool) : Node → Bool
  | .literal isObject elements trailingComma =>
    allowPattern && convertibleElements isObject trailingComma false elements
  | .assignmentExpression .. => false
  | .atom .memberExpression => !isDeclaration
  | .atom a => a ≠ .metaProperty ∧ a ≠ .chainExpression
  | .spreadElement _ | .property .. => true

/-- The switch on the left side in `ConvertibleToAssignmentPattern`. -/
def convertibleLeft (mustBePattern : Bool) : Node → Bool
  | .literal isObject elements trailingComma =>
    convertibleElements isObject trailingComma false elements
  | .spreadElement argument => mustBePattern && convertibleToRest false true argument
  | .assignmentExpression _ left right => convertibleRight (convertibleLeft mustBePattern left) right
  | .atom a => a ≠ .metaProperty ∧ a ≠ .chainExpression
  | .property .. => true

/-- The rest of `ConvertibleToAssignmentPattern`: only an assignment on the right side is looked at,
and its answer takes the place of that for the left side. -/
def convertibleRight (convResult : Bool) : Node → Bool
  | .assignmentExpression _ left right => convertibleRight (convertibleLeft false left) right
  | _ => convResult

/-- The switch in `ConventibleToPatternProperty`. -/
def convertibleValue : Node → Bool
  | .literal isObject elements trailingComma =>
    convertibleElements isObject trailingComma false elements
  | .assignmentExpression _ left right => convertibleRight (convertibleLeft true left) right
  | .atom a => a ≠ .metaProperty
  | .spreadElement _ | .property .. => true
end

/-- `ConvertibleToArrayPattern` and `ConvertibleToObjectPattern`. -/
def convertibleToPattern (isObject : Bool) (elements : Nodes) (trailingComma : Bool) : Bool :=
  convertibleElements isObject trailingComma false elements

/-! ## The grammar -/

/-- Where a node stands: in an array or object literal, perhaps at its end, as the value of a property,
behind the dots of a rest element, or on the left side of a default. -/
inductive Place where
  | element (isObject isLast : Bool)
  | value
  | rest (allowPattern : Bool)
  | left (mustBePattern : Bool)
  deriving DecidableEq

mutual
/-- The node is allowed in an assignment pattern. -/
def allowed : Place → Node → Bool
  | p, .atom .identifier | p, .atom .memberExpression => ∀ isLast, p ≠ .element true isLast
  | p, .atom .omittedExpression => ∃ isLast, p = .element false isLast
  | p, .atom .assignmentPattern => p = .value
  | _, .atom _ => false
  | .element true _, .literal .. | .rest false, .literal .. => false
  | _, .literal isObject elements trailingComma => allAllowed isObject trailingComma elements
  | .element isObject true, .spreadElement argument => allowed (.rest !isObject) argument
  | _, .spreadElement _ => false
  | .element false _, .assignmentExpression isSubstitution left _
  | .value, .assignmentExpression isSubstitution left _ => isSubstitution && allowed (.left true) left
  | _, .assignmentExpression .. => false
  | .element true _, .property isAccessor isMethod value =>
    !isAccessor && !isMethod && allowed .value value
  | _, .property .. => false

def allAllowed (isObject trailingComma : Bool) : Nodes → Bool
  | .nil => true
  | .cons it rest => allowed (.element isObject (rest.isEmpty && !trailingComma)) it &&
    allAllowed isObject trailingComma rest
end

/-- The conversion of a literal answers what the grammar says. -/
def ConvertsRight (isObject : Bool) (elements : Nodes) (trailingComma : Bool) : Prop :=
  convertibleToPattern isObject elements trailingComma = allAllowed isObject trailingComma elements

/-! ## Faults -/

/-- A fault is found or overlooked, or something is blamed that is none. -/
inductive Fault where
  | found
  | overlooked
  | blamed
  deriving DecidableEq

/-- The faults of another kind are of this one now. -/
def marked (kind other : Fault) (faults : List Fault) : List Fault :=
  (faults.filter (· ≠ other)).map fun _ => kind

def Atom.faults (a : Atom) : Place → List Fault
  | .element isObject _ =>
    if a ∈ [.metaProperty, .chainExpression, .sequenceExpression] then [.found]
    else if !isObject ∧ a ∈ [.identifier, .memberExpression, .omittedExpression] then []
    else [.overlooked]
  | .value =>
    if a = .metaProperty then [.found]
    else if a ∈ [.identifier, .memberExpression, .assignmentPattern] then [] else [.overlooked]
  | .rest _ | .left _ =>
    if a ∈ [.metaProperty, .chainExpression] then [.found]
    else if a ∈ [.identifier, .memberExpression] then [] else [.overlooked]

mutual
def faults : Place → Node → List Fault
  | p, .atom a => a.faults p
  | .rest false, .literal .. => [.found]
  | .element true _, .literal isObject elements trailingComma =>
    .overlooked :: allFaults isObject trailingComma elements
  | _, .literal isObject elements trailingComma => allFaults isObject trailingComma elements
  | .element isObject isLast, .spreadElement argument =>
    if isLast then faults (.rest !isObject) argument else [.found]
  | .left true, .spreadElement argument => .overlooked :: faults (.rest true) argument
  | .left false, .spreadElement _ => [.found]
  | _, .spreadElement _ => [.overlooked]
  | .rest _, .assignmentExpression .. => [.found]
  | p, .assignmentExpression isSubstitution left right =>
    (if isSubstitution ∧ (p = .value ∨ ∃ isLast, p = .element false isLast) then []
      else [.overlooked]) ++
    if right.isAssignmentExpression then
      marked .overlooked .blamed (faults (.left (p ≠ .left false)) left) ++ blamedFaults right
    else faults (.left (p ≠ .left false)) left
  | .element true _, .property isAccessor isMethod value =>
    if isAccessor || isMethod then [.found] else faults .value value
  | _, .property .. => [.overlooked]

/-- An assignment on the right side of a default is blamed for the left side of the innermost one. -/
def blamedFaults : Node → List Fault
  | .assignmentExpression _ left right =>
    if right.isAssignmentExpression then blamedFaults right
    else marked .blamed .overlooked (faults (.left false) left)
  | _ => []

def allFaults (isObject trailingComma : Bool) : Nodes → List Fault
  | .nil => []
  | .cons it rest => faults (.element isObject (rest.isEmpty && !trailingComma)) it ++
    allFaults isObject trailingComma rest
end

/-! ## What is seen, and what is wrong -/

/-- The conversion for a place. -/
def convertible : Place → Node → Bool
  | .element isObject isLast, node => convertibleElement isObject isLast node
  | .value, node => convertibleValue node
  | .rest allowPattern, node => convertibleToRest false allowPattern node
  | .left mustBePattern, node => convertibleLeft mustBePattern node

def only (kind : Fault) (faults : List Fault) : Bool := faults.all (· = kind)

@[simp] theorem only_nil (kind : Fault) : only kind [] = true := rfl

@[simp] theorem only_cons (kind f : Fault) (fs : List Fault) :
    only kind (f :: fs) = (decide (f = kind) && only kind fs) := rfl

@[simp] theorem only_append (kind : Fault) (fs gs : List Fault) :
    only kind (fs ++ gs) = (only kind fs && only kind gs) := List.all_append

@[simp] theorem only_marked_self (kind other : Fault) (fs : List Fault) :
    only kind (marked kind other fs) = true := by
  simp [only, marked]

@[simp] theorem only_marked {kind other : Fault} (h : kind ≠ other) (fs : List Fault) :
    only other (marked kind other fs) = only other fs := by
  induction fs with
  | nil => rfl
  | cons f fs ih => by_cases hf : f = other <;> simp_all [only, marked]

attribute [simp] convertible convertibleElement convertibleValue convertibleToRest convertibleLeft
  convertibleRight faults blamedFaults allowed

mutual
theorem convertible_eq (node : Node) :
    (∀ p, convertible p node = only .overlooked (faults p node)) ∧
      ∀ b, convertibleRight b node =
        if node.isAssignmentExpression then only .overlooked (blamedFaults node) else b := by
  cases node with
  | atom a =>
    refine ⟨?_, fun _ => rfl⟩
    rintro (⟨isObject, isLast⟩ | _ | _ | _)
    · cases isObject <;> cases a <;> rfl
    all_goals cases a <;> rfl
  | literal isObject elements trailingComma =>
    refine ⟨?_, fun _ => rfl⟩
    have h := convertibleElements_eq isObject trailingComma elements
    rintro (⟨_ | _, isLast⟩ | _ | ⟨_ | _⟩ | _) <;> simp [h]
  | spreadElement argument =>
    have hrest (allowPattern : Bool) := (convertible_eq argument).1 (.rest allowPattern)
    simp only [convertible] at hrest
    refine ⟨?_, fun _ => rfl⟩
    rintro (⟨isObject, _ | _⟩ | _ | ⟨_ | _⟩ | ⟨_ | _⟩) <;> simp [hrest]
  | assignmentExpression isSubstitution left right =>
    have hleft (mustBePattern : Bool) := (convertible_eq left).1 (.left mustBePattern)
    have hright := (convertible_eq right).2
    simp only [convertible] at hleft
    constructor
    · rintro (⟨_ | _, isLast⟩ | _ | _ | ⟨_ | _⟩) <;>
        cases hr : right.isAssignmentExpression <;> cases isSubstitution <;>
        simp [hleft, hright, hr]
    · intro b
      rw [convertibleRight, hright, blamedFaults, hleft]
      change _ = only .overlooked (if right.isAssignmentExpression = true then _ else _)
      split_ifs
      · rfl
      · rw [only_marked (by decide)]
  | property isAccessor isMethod value =>
    have hvalue := (convertible_eq value).1 .value
    simp only [convertible] at hvalue
    refine ⟨?_, fun _ => rfl⟩
    rintro (⟨_ | _, isLast⟩ | _ | ⟨_ | _⟩ | _) <;>
      cases isAccessor <;> cases isMethod <;> simp [hvalue]

theorem convertibleElements_eq (isObject trailingComma : Bool) (elements : Nodes) :
    convertibleElements isObject trailingComma false elements =
      only .overlooked (allFaults isObject trailingComma elements) := by
  cases elements with
  | nil => rfl
  | cons it rest =>
    have hit (canBeRest : Bool) := (convertible_eq it).1 (.element isObject canBeRest)
    have hrest := convertibleElements_eq isObject trailingComma rest
    simp only [convertible] at hit
    simp only [convertibleElements, allFaults, Bool.not_false, Bool.true_and, Bool.false_or, hit, only_append, ← hrest]
    cases hspread : it.isSpreadElement with
    | false => rfl
    | true =>
      cases rest with
      | nil => rfl
      | cons it' rest =>
        cases it with
        | spreadElement argument => rfl
        | _ => cases hspread
end

theorem harmless_blamedFaults (node : Node) : only .blamed (blamedFaults node) = true := by
  match node with
  | .assignmentExpression _ left right =>
    rw [blamedFaults]
    split_ifs
    · exact harmless_blamedFaults right
    · exact only_marked_self ..
  | .atom _ | .literal .. | .spreadElement _ | .property .. => rfl

mutual
theorem allowed_eq (node : Node) : ∀ p, allowed p node = only .blamed (faults p node) := by
  cases node with
  | atom a =>
    rintro (⟨isObject, isLast⟩ | _ | _ | _)
    · cases isObject <;> cases isLast <;> cases a <;> rfl
    all_goals cases a <;> rfl
  | literal isObject elements trailingComma =>
    have h := allAllowed_eq isObject trailingComma elements
    rintro (⟨_ | _, isLast⟩ | _ | ⟨_ | _⟩ | _) <;> simp [h]
  | spreadElement argument =>
    have h := allowed_eq argument
    rintro (⟨isObject, _ | _⟩ | _ | ⟨_ | _⟩ | ⟨_ | _⟩) <;> simp [h]
  | assignmentExpression isSubstitution left right =>
    have h := allowed_eq left
    have hright := harmless_blamedFaults right
    rintro (⟨_ | _, isLast⟩ | _ | _ | ⟨_ | _⟩) <;>
      cases hr : right.isAssignmentExpression <;> cases isSubstitution <;>
      simp [h, hr, hright]
  | property isAccessor isMethod value =>
    have h := allowed_eq value
    rintro (⟨_ | _, isLast⟩ | _ | ⟨_ | _⟩ | _) <;>
      cases isAccessor <;> cases isMethod <;> simp [h]

theorem allAllowed_eq (isObject trailingComma : Bool) (elements : Nodes) :
    allAllowed isObject trailingComma elements = only .blamed (allFaults isObject trailingComma elements) := by
  cases elements with
  | nil => rfl
  | cons it rest =>
    rw [allAllowed, allFaults, only_append, allowed_eq it, allAllowed_eq isObject trailingComma rest]
end

theorem only_eq_false (kind : Fault) (fs : List Fault) :
    only kind fs = false ↔ ∃ f ∈ fs, f ≠ kind := by
  simp [only]

end ArkTs2abc.Es2panda.PatternConversion
