import ArkTs2abc.Es2panda.Checker.RelationMemory

/-!
# Union types

How the checker makes a union of a list of types, and what comes of it. Of the types that are
identical to each other only the copies of the first one in the list are removed.

## Main definitions

* `createUnionType` — `Checker::CreateUnionType`.
* `SaysIdentical`, `Comparable` — the method `Identical` of a type says yes, or says anything.
* `keptTypes` — the types that are left when the copies of the first one are dropped.

## Main results

* `createUnionType_results_iff` — what `createUnionType` returns.
* `finish_eq` — what is made of the types that are left.
-/

namespace Es2panda.Checker

open NestedCalls Identity

variable {τ : Type}

/-- The types that are made once. -/
structure GlobalTypes (node : τ → TypeNode τ) where
  globalAny : τ
  globalUnknown : τ
  node_any : node globalAny = .any
  node_unknown : node globalUnknown = .unknown

/-- A type that was there before, or a new union. -/
inductive Created (τ : Type) where
  | existing (t : τ)
  | fresh (constituentTypes : List τ) (constituentFlags : Finset TypeFlag)

/-- A union type in the making. -/
structure UnionType (τ : Type) where
  constituentTypes : List τ
  constituentFlags : Finset TypeFlag

section Code

variable (node : τ → TypeNode τ) (checked : τ → Bool)

/-- The flags of a type; `checked` are the types with the mark `RELATION_CHECKED`. -/
def typeFlags (t : τ) : Finset TypeFlag :=
  if checked t then {(node t).typeFlag, .relationChecked} else {(node t).typeFlag}

namespace UnionType

/-- The flags of all constituents, as the constructor adds them. -/
def flagsOf : List τ → Finset TypeFlag
  | [] => ∅
  | it :: rest => typeFlags node checked it ∪ flagsOf rest

def new (types : List τ) : UnionType τ := ⟨types, flagsOf node checked types⟩

def hasConstituentFlag (u : UnionType τ) (flag : TypeFlag) : Bool := flag ∈ u.constituentFlags

/-- The inner loop of `RemoveDuplicatedTypes`. -/
def removeDuplicatesOf (compare : τ) : List τ → Identity τ (List τ)
  | [] => return []
  | it :: rest => do
    result false
    identicalMethod compare it
    if ← isTrue then
      removeDuplicatesOf compare rest
    else
      return it :: (← removeDuplicatesOf compare rest)

/-- `RemoveDuplicatedTypes`. The outer loop goes on where the inner one has ended, at the end. -/
def removeDuplicatedTypes : List τ → Identity τ (List τ)
  | [] => return []
  | compare :: rest => return compare :: (← removeDuplicatesOf compare rest)

/-- The literals that are to be removed, by the flags of the union. -/
def isRedundant (u : UnionType τ) (t : τ) : Bool :=
  u.hasConstituentFlag .number && u.hasConstituentFlag .numberLiteral &&
      (node t).isNumberLiteralType ||
    u.hasConstituentFlag .string && u.hasConstituentFlag .stringLiteral &&
      (node t).isStringLiteralType ||
    u.hasConstituentFlag .bigint && u.hasConstituentFlag .bigintLiteral &&
      (node t).isBigintLiteralType ||
    u.hasConstituentFlag .boolean && u.hasConstituentFlag .booleanLiteral &&
      (node t).isBooleanLiteralType

/-- The loop of `RemoveRedundantLiteralTypesFromUnion`: what is left of the constituents and the
flags. -/
def removeLiterals (redundant : τ → Bool) : List τ → Finset TypeFlag → List τ × Finset TypeFlag
  | [], flags => ([], flags)
  | it :: rest, flags =>
    if redundant it then
      removeLiterals redundant rest (flags \ typeFlags node checked it)
    else
      let (types, flags) := removeLiterals redundant rest flags
      (it :: types, flags)

def removeRedundantLiteralTypesFromUnion (u : UnionType τ) : UnionType τ :=
  let (types, flags) :=
    removeLiterals node checked (u.isRedundant node) u.constituentTypes u.constituentFlags
  ⟨types, flags⟩

variable {node} (globals : GlobalTypes node)

def handleUnionType (u : UnionType τ) : Created τ :=
  if u.hasConstituentFlag .any then .existing globals.globalAny
  else if u.hasConstituentFlag .unknown then .existing globals.globalUnknown
  else
    let u := u.removeRedundantLiteralTypesFromUnion node checked
    match u.constituentTypes with
    | [t] => .existing t
    | types => .fresh types u.constituentFlags

/-- What is made of the types that are left. -/
def finish : List τ → Created τ
  | [t] => .existing t
  | types => handleUnionType checked globals (new node checked types)

end UnionType

variable {node} (globals : GlobalTypes node)

def createUnionType (types : List τ) : Identity τ (Created τ) := do
  return UnionType.finish checked globals (← UnionType.removeDuplicatedTypes types)

end Code

section Duplicates

theorem UnionType.removeDuplicatesOf_cons (compare it : τ) (rest : List τ)
    (result : RelationResult) :
    removeDuplicatesOf compare (it :: rest) result =
      .call (.identical .false compare it) fun r =>
        if r = .true then removeDuplicatesOf compare rest r
        else removeDuplicatesOf compare rest r >>= fun p => .ret (it :: p.1, p.2) := by
  show Tree.call _ _ = _
  congr
  funext r
  by_cases hr : r = .true
  · subst hr
    rfl
  · rw [if_neg hr]
    show (if decide (r = .true) = true then _ else _ : Identity τ (List τ)) r = _
    rw [if_neg (by simpa using hr)]
    rfl

variable [DecidableEq τ] (node : τ → TypeNode τ)

/-- The method `Identical` of `a` says that `b` is identical. -/
def SaysIdentical (a b : τ) : Prop := TreeAnswers (identityTree node) (.identical .false a b) .true

/-- The method `Identical` of `a` comes to an answer for `b`. -/
def Comparable (a b : τ) : Prop := ∃ r, TreeAnswers (identityTree node) (.identical .false a b) r

open Classical in
/-- The types that the first one does not take for copies of itself. -/
noncomputable def droppingCopies (first : τ) (rest : List τ) : List τ :=
  rest.filter fun t => ¬ SaysIdentical node first t

theorem droppingCopies_yes {first t : τ} {rest : List τ} (h : SaysIdentical node first t) :
    droppingCopies node first (t :: rest) = droppingCopies node first rest := by
  simp [droppingCopies, h]

theorem droppingCopies_no {first t : τ} {rest : List τ} (h : ¬ SaysIdentical node first t) :
    droppingCopies node first (t :: rest) = t :: droppingCopies node first rest := by
  simp [droppingCopies, h]

theorem mem_droppingCopies {first t : τ} {rest : List τ} :
    t ∈ droppingCopies node first rest ↔ t ∈ rest ∧ ¬ SaysIdentical node first t := by
  simp [droppingCopies]

/-- The types that are left when the copies of the first one are dropped. -/
noncomputable def keptTypes (first : τ) (rest : List τ) : List τ :=
  first :: droppingCopies node first rest

namespace UnionType

theorem removeDuplicatesOf_results_iff (first : τ) (rest : List τ) (result : RelationResult)
    (out : List τ) :
    (∃ r, TreeResults (identityTree node) (removeDuplicatesOf first rest result) (out, r)) ↔
      (∀ t ∈ rest, Comparable node first t) ∧ out = droppingCopies node first rest := by
  induction rest generalizing result out with
  | nil =>
    constructor
    · rintro ⟨r, h⟩
      cases h
      simp [droppingCopies]
    · rintro ⟨-, rfl⟩
      exact ⟨result, .ret _⟩
  | cons it rest ih =>
    rw [removeDuplicatesOf_cons]
    constructor
    · rintro ⟨r, h⟩
      obtain ⟨a, answered, hrest⟩ := treeResults_call_iff.1 h
      by_cases ha : a = .true
      · subst ha
        rw [if_pos rfl] at hrest
        obtain ⟨hall, rfl⟩ := (ih .true out).1 ⟨r, hrest⟩
        exact ⟨List.forall_mem_cons.2 ⟨⟨_, answered⟩, hall⟩, (droppingCopies_yes node answered).symm⟩
      · rw [if_neg ha] at hrest
        obtain ⟨⟨ts, r'⟩, hts, hret⟩ := treeResults_bind_iff.1 hrest
        cases hret
        obtain ⟨hall, rfl⟩ := (ih a ts).1 ⟨_, hts⟩
        have hno : ¬ SaysIdentical node first it := fun hyes => ha (answered.unique hyes)
        exact ⟨List.forall_mem_cons.2 ⟨⟨_, answered⟩, hall⟩, (droppingCopies_no node hno).symm⟩
    · rintro ⟨hall, rfl⟩
      obtain ⟨a, ha⟩ := hall it List.mem_cons_self
      obtain ⟨r, hr⟩ := (ih a _).2 ⟨fun t ht => hall t (List.mem_cons_of_mem _ ht), rfl⟩
      refine ⟨r, treeResults_call_iff.2 ⟨a, ha, ?_⟩⟩
      by_cases hyes : a = .true
      · subst hyes
        rw [if_pos rfl, droppingCopies_yes node ha]
        exact hr
      · rw [if_neg hyes, droppingCopies_no node fun h => hyes (ha.unique h)]
        exact treeResults_bind_iff.2 ⟨_, hr, .ret _⟩

end UnionType

/-- What `createUnionType` returns. -/
theorem createUnionType_results_iff (globals : GlobalTypes node) (checked : τ → Bool) (first : τ)
    (rest : List τ) (result : RelationResult) (c : Created τ) :
    (∃ r, TreeResults (identityTree node)
        (createUnionType checked globals (first :: rest) result) (c, r)) ↔
      (∀ t ∈ rest, Comparable node first t) ∧
        c = UnionType.finish checked globals (keptTypes node first rest) := by
  constructor
  · rintro ⟨r, h⟩
    obtain ⟨⟨ts, r'⟩, hts, hret⟩ := treeResults_bind_iff.1 h
    obtain ⟨⟨us, r''⟩, hus, hret'⟩ := treeResults_bind_iff.1 hts
    cases hret'
    cases hret
    obtain ⟨hall, rfl⟩ := (UnionType.removeDuplicatesOf_results_iff node first rest _ _).1 ⟨_, hus⟩
    exact ⟨hall, rfl⟩
  · rintro ⟨hall, rfl⟩
    obtain ⟨r, hr⟩ := (UnionType.removeDuplicatesOf_results_iff node first rest result _).2 ⟨hall, rfl⟩
    exact ⟨r, treeResults_bind_iff.2 ⟨_, treeResults_bind_iff.2 ⟨_, hr, .ret _⟩, .ret _⟩⟩

end Duplicates

end Es2panda.Checker
