import Mathlib.Data.List.Basic
import Mathlib.Tactic.Common

/-!
# Searches in syntax trees

The checker looks for a return or throw statement in the body of a function, and for a variable in
a chain of conditions and in the body behind it. Each search calls itself for the children and
drops the answer, so that it finds nothing below them.

## Main definitions

* `searchForReturnOrThrow`, `findVariableInBinaryExpressionChain`,
  `isVariableUsedInConditionBody` — as in the source.
* `Below` — a node at any depth.
* `SearchesRight` — the searches find what occurs at any depth.

## Main results

* `searchesRight_iff` — when they do.
-/

namespace ArkTs2abc.Es2panda.TreeSearch

/-- What the searches ask of a node. An identifier is a reference to a variable, or it is a name
only: of a property, or of a label. -/
inductive Kind where
  | identifier (name : String) (isReference : Bool)
  | memberExpression
  | returnStatement
  | throwStatement
  | scriptFunction
  | other
  deriving DecidableEq, Repr

/-- A node, with the children that `Iterate` calls back for. -/
inductive AstNode where
  | mk (kind : Kind) (children : List AstNode)

namespace AstNode

def kind : AstNode → Kind
  | mk kind _ => kind

def children : AstNode → List AstNode
  | mk _ children => children

end AstNode

mutual
/-- A search with a flag. The callback of `Iterate` gets a child, the answer of the search for that
child, and the flag. -/
def search (callback : AstNode → Bool → Bool → Bool) : AstNode → Bool
  | .mk _ children => iterate callback false children

def iterate (callback : AstNode → Bool → Bool → Bool) (found : Bool) : List AstNode → Bool
  | [] => found
  | childNode :: rest =>
    iterate callback (callback childNode (search callback childNode) found) rest
end

/-! ## The searches -/

def isReturnOrThrow (node : AstNode) : Bool :=
  node.kind = .throwStatement || node.kind = .returnStatement

def searchForReturnOrThrow : AstNode → Bool :=
  search fun childNode _dropped found =>
    if isReturnOrThrow childNode then true
    -- a nested function ends the search; for another child, the answer is dropped
    else found

/-- The variables that the scope finds for names, and those that member expressions resolve to. -/
structure Checker (Variable : Type) where
  find : String → Option Variable
  resolveNonComputedObjectProperty : AstNode → Option Variable

variable {Variable : Type} [DecidableEq Variable] (checker : Checker Variable)
  (searchVar : Variable)

def Checker.resultVar (node : AstNode) : Option Variable :=
  match node.kind with
  | .memberExpression => checker.resolveNonComputedObjectProperty node
  | .identifier name _ => checker.find name
  | _ => none

def isVariableUsedInConditionBody : AstNode → Bool :=
  search fun childNode _dropped found =>
    if checker.resultVar childNode = some searchVar then true
    else found

def Checker.isIdentifierOf (node : AstNode) : Bool :=
  match node.kind with
  | .identifier name _ => checker.find name = some searchVar
  | _ => false

def findVariableInBinaryExpressionChain : AstNode → Bool :=
  search fun childNode _dropped found =>
    if checker.isIdentifierOf searchVar childNode then true
    else found

/-! ## Occurrences -/

/-- The node is a reference to the variable. -/
def Checker.References (node : AstNode) : Prop :=
  match node.kind with
  | .memberExpression => checker.resolveNonComputedObjectProperty node = some searchVar
  | .identifier name true => checker.find name = some searchVar
  | _ => False

/-- A node is below another one, and none in between is closed. -/
inductive Below (closed : AstNode → Prop) (parent : AstNode) : AstNode → Prop where
  | child {node : AstNode} (h : node ∈ parent.children) : Below closed parent node
  | deeper {node descendant : AstNode} (h : Below closed parent node) (hopen : ¬ closed node)
      (hchild : descendant ∈ node.children) : Below closed parent descendant

/-- A search answers whether there is such a node at any depth. -/
def Finds (closed sought : AstNode → Prop) (parent : AstNode) (answer : Bool) : Prop :=
  answer = true ↔ ∃ node, Below closed parent node ∧ sought node

/-- Each search answers whether what it looks for occurs below, a return or throw outside of nested
functions. -/
structure SearchesRight (parent : AstNode) : Prop where
  returnOrThrow : Finds (fun node => node.kind = .scriptFunction) (fun node => isReturnOrThrow node)
    parent (searchForReturnOrThrow parent)
  conditionBody : Finds (fun _ => False) (checker.References searchVar) parent
    (isVariableUsedInConditionBody checker searchVar parent)
  conditionChain : Finds (fun _ => False) (checker.References searchVar) parent
    (findVariableInBinaryExpressionChain checker searchVar parent)

/-- One of the children is seen. -/
def SeenAmong (seen : AstNode → Bool) (parent : AstNode) : Prop :=
  ∃ child ∈ parent.children, seen child = true

/-- What is sought somewhere below comes with a child that is seen, and no child is seen for nothing. -/
def Shows (seen : AstNode → Bool) (closed sought : AstNode → Prop) (parent : AstNode) : Prop :=
  (∀ node, Below closed parent node → sought node → SeenAmong seen parent) ∧
    (SeenAmong seen parent → ∃ node, Below closed parent node ∧ sought node)

/-! ## What the searches find -/

theorem search_iff (seen : AstNode → Bool) (parent : AstNode) :
    search (fun childNode _ found => if seen childNode then true else found) parent = true ↔
      SeenAmong seen parent := by
  have hiterate (nodes : List AstNode) (found : Bool) :
      iterate (fun childNode _ found => if seen childNode then true else found) found nodes = true ↔
        found = true ∨ ∃ child ∈ nodes, seen child = true := by
    induction nodes generalizing found with
    | nil => simp [iterate]
    | cons node nodes ih =>
      rw [iterate, ih]
      cases h : seen node <;> simp [h]
  cases parent with
  | mk kind children =>
    rw [search, hiterate]
    simp [SeenAmong, AstNode.children]

theorem finds_iff {closed sought : AstNode → Prop} {seen : AstNode → Bool} {parent : AstNode}
    {answer : Bool} (hanswer : answer = true ↔ SeenAmong seen parent) :
    Finds closed sought parent answer ↔ Shows seen closed sought parent := by
  rw [Finds, hanswer]
  constructor
  · intro h
    exact ⟨fun node hbelow hsought => h.mpr ⟨node, hbelow, hsought⟩, h.mp⟩
  · rintro ⟨hmissed, hnothing⟩
    refine ⟨hnothing, ?_⟩
    rintro ⟨node, hbelow, hsought⟩
    exact hmissed node hbelow hsought

/-- A return or throw has to be a child if there is one. The body of a condition has to show each
variable that is referred to below among its children, and no name of a property or label may be
the name of the variable; so has a chain of conditions, in identifiers. -/
theorem searchesRight_iff (checker : Checker Variable) (searchVar : Variable) (parent : AstNode) :
    SearchesRight checker searchVar parent ↔
      (∀ node, Below (fun node => node.kind = .scriptFunction) parent node → isReturnOrThrow node →
        SeenAmong isReturnOrThrow parent) ∧
      Shows (fun node => checker.resultVar node = some searchVar) (fun _ => False)
        (checker.References searchVar) parent ∧
      Shows (checker.isIdentifierOf searchVar) (fun _ => False) (checker.References searchVar)
        parent := by
  have hreturn : searchForReturnOrThrow parent = true ↔ SeenAmong isReturnOrThrow parent :=
    search_iff isReturnOrThrow parent
  have hbody : isVariableUsedInConditionBody checker searchVar parent = true ↔ SeenAmong
      (fun node => checker.resultVar node = some searchVar) parent := by
    rw [← search_iff]
    simp only [isVariableUsedInConditionBody, decide_eq_true_eq]
  have hchain : findVariableInBinaryExpressionChain checker searchVar parent = true ↔ SeenAmong
      (checker.isIdentifierOf searchVar) parent := search_iff _ parent
  constructor
  · intro h
    refine ⟨?_, (finds_iff hbody).mp h.conditionBody, (finds_iff hchain).mp h.conditionChain⟩
    intro node hbelow hsought
    exact hreturn.mp (h.returnOrThrow.mpr ⟨node, hbelow, hsought⟩)
  · rintro ⟨hmissed, hbody', hchain'⟩
    refine ⟨(finds_iff hreturn).mpr ⟨hmissed, ?_⟩, (finds_iff hbody).mpr hbody',
      (finds_iff hchain).mpr hchain'⟩
    rintro ⟨child, hchild, hseen⟩
    exact ⟨child, .child hchild, hseen⟩

/-- A block with an `if` around a return. -/
def returnInsideIf : AstNode := .mk .other [.mk .other [.mk .returnStatement []]]

theorem return_inside_if_missed : ¬ SearchesRight ⟨fun _ => none, fun _ => none⟩ () returnInsideIf := by
  intro h
  have hbelow : Below (fun node => node.kind = .scriptFunction) returnInsideIf
      (.mk .returnStatement []) :=
    .deeper (.child List.mem_cons_self) (by decide) List.mem_cons_self
  exact absurd (h.returnOrThrow.mpr ⟨_, hbelow, rfl⟩) (by decide)

end ArkTs2abc.Es2panda.TreeSearch
