import Mathlib.Order.Defs.Unbundled

/-!
# Trees of binary operators

A tree of binary operators is read from left to right as a first operand and a list of operators,
each with the operand after it. Such a word has one tree that respects a given precedence. The
tree is reached by parsing the right side first and putting each operator, with the operand before
it, into the finished tree: at the root, or below, along the left spine.

The precedence is given as a relation: `amend p o` says that the operator `p` takes what stands
before it as its left operand when that is an operand, the operator `o` and another operand.

## Main definitions

* `Tree.first`, `Tree.rest` — the word of a tree.
* `Tree.insert`, `build` — an operator put into the tree of what follows it, and the tree of a
  word.
* `Tree.Respects` — every operator of the tree stands where the precedence puts it.

## Main results

* `respects_build` — the built tree respects the precedence.
* `Tree.eq_build` — a tree that respects a proper precedence is the built one.
* `build_cons_eq_iff` — two precedences agree on a word iff they agree on its tail and on the
  last insertion.
-/

namespace OperatorTree

variable {ω α : Type}

inductive Tree (ω α : Type) where
  | leaf (operand : α)
  | node (op : ω) (left right : Tree ω α)
  deriving DecidableEq, Repr

namespace Tree

def first : Tree ω α → α
  | leaf a => a
  | node _ left _ => left.first

def rest : Tree ω α → List (ω × α)
  | leaf _ => []
  | node op left right => left.rest ++ (op, right.first) :: right.rest

def root? : Tree ω α → Option ω
  | leaf _ => none
  | node op _ _ => some op

/-- The operand `a` and the operator `op` put before the tree, along its left spine. -/
def insert (amend : ω → ω → Prop) [DecidableRel amend] (a : α) (op : ω) : Tree ω α → Tree ω α
  | leaf b => node op (leaf a) (leaf b)
  | node p left right =>
    if amend p op then node p (insert amend a op left) right
    else node op (leaf a) (node p left right)

/-- Each operator amends those at the root of its left operand, and none at the root of its
right operand amends it. -/
def Respects (amend : ω → ω → Prop) : Tree ω α → Prop
  | leaf _ => True
  | node op left right =>
    left.Respects amend ∧ right.Respects amend ∧
      (∀ p ∈ left.root?, amend op p) ∧ ∀ q ∈ right.root?, ¬ amend q op

/-- The tree without its first operand and first operator. -/
def dropFirst : Tree ω α → Tree ω α
  | leaf a => leaf a
  | node _ (leaf _) right => right
  | node p (node q left middle) right => node p (dropFirst (node q left middle)) right

@[simp] theorem first_leaf (a : α) : (leaf a : Tree ω α).first = a := rfl

@[simp] theorem rest_leaf (a : α) : (leaf a : Tree ω α).rest = [] := rfl

@[simp] theorem root?_leaf (a : α) : (leaf a : Tree ω α).root? = none := rfl

@[simp] theorem first_node (op : ω) (left right : Tree ω α) :
    (node op left right).first = left.first := rfl

@[simp] theorem rest_node (op : ω) (left right : Tree ω α) :
    (node op left right).rest = left.rest ++ (op, right.first) :: right.rest := rfl

@[simp] theorem root?_node (op : ω) (left right : Tree ω α) :
    (node op left right).root? = some op := rfl

@[simp] theorem respects_leaf (amend : ω → ω → Prop) (a : α) :
    (leaf a : Tree ω α).Respects amend := trivial

section Insert

variable (amend : ω → ω → Prop) [DecidableRel amend]

@[simp] theorem insert_leaf (a b : α) (op : ω) :
    (leaf b).insert amend a op = node op (leaf a) (leaf b) := rfl

theorem insert_node (a : α) (op p : ω) (left right : Tree ω α) :
    (node p left right).insert amend a op =
      if amend p op then node p (left.insert amend a op) right
      else node op (leaf a) (node p left right) := rfl

@[simp] theorem first_insert (a : α) (op : ω) (t : Tree ω α) : (t.insert amend a op).first = a := by
  induction t with
  | leaf b => rfl
  | node p left right ihLeft _ =>
    rw [insert_node]
    split <;> simp [ihLeft]

@[simp] theorem rest_insert (a : α) (op : ω) (t : Tree ω α) :
    (t.insert amend a op).rest = (op, t.first) :: t.rest := by
  induction t with
  | leaf b => rfl
  | node p left right ihLeft _ =>
    rw [insert_node]
    split <;> simp [ihLeft]

theorem insert_ne_leaf (a b : α) (op : ω) (t : Tree ω α) : t.insert amend a op ≠ leaf b := by
  cases t with
  | leaf c => simp
  | node p left right =>
    rw [insert_node]
    split <;> simp

theorem root?_insert {a : α} {op q : ω} {t : Tree ω α} (h : q ∈ (t.insert amend a op).root?) :
    q = op ∨ q ∈ t.root? ∧ amend q op := by
  cases t with
  | leaf b => simp_all
  | node p left right =>
    rw [insert_node] at h
    split at h <;> simp_all

theorem dropFirst_node_of_ne_leaf {p : ω} {left right : Tree ω α} (h : ∀ a, left ≠ leaf a) :
    (node p left right).dropFirst = node p left.dropFirst right := by
  cases left with
  | leaf a => exact absurd rfl (h a)
  | node q l r => rfl

@[simp] theorem dropFirst_insert (a : α) (op : ω) (t : Tree ω α) :
    (t.insert amend a op).dropFirst = t := by
  induction t with
  | leaf b => rfl
  | node p left right ihLeft _ =>
    rw [insert_node]
    split
    · rw [dropFirst_node_of_ne_leaf fun b => insert_ne_leaf amend a b op left, ihLeft]
    · rfl

theorem insert_congr {amend' : ω → ω → Prop} [DecidableRel amend'] {op : ω}
    (h : ∀ p, amend p op ↔ amend' p op) (a : α) (t : Tree ω α) :
    t.insert amend a op = t.insert amend' a op := by
  induction t with
  | leaf b => rfl
  | node p left right ihLeft _ =>
    rw [insert_node, insert_node, ihLeft]
    simp only [h]

theorem Respects.insert {a : α} {op : ω} {t : Tree ω α} (h : t.Respects amend) :
    (t.insert amend a op).Respects amend := by
  induction t with
  | leaf b => simp [Respects]
  | node p left right ihLeft _ =>
    obtain ⟨hLeft, hRight, hOver, hUnder⟩ := h
    rw [insert_node]
    split
    case isTrue hAmend =>
      refine ⟨ihLeft hLeft, hRight, ?_, hUnder⟩
      intro q hq
      obtain rfl | ⟨hRoot, -⟩ := root?_insert amend hq
      · exact hAmend
      · exact hOver q hRoot
    case isFalse hAmend =>
      refine ⟨trivial, ⟨hLeft, hRight, hOver, hUnder⟩, by simp, ?_⟩
      intro q hq
      obtain rfl : p = q := by simpa using hq
      exact hAmend

end Insert

end Tree

section Build

variable (amend : ω → ω → Prop) [DecidableRel amend]

/-- The tree of a word, from its right end. -/
def build (a : α) : List (ω × α) → Tree ω α
  | [] => .leaf a
  | (op, b) :: word => (build b word).insert amend a op

@[simp] theorem build_nil (a : α) : build amend a ([] : List (ω × α)) = .leaf a := rfl

@[simp] theorem build_cons (a b : α) (op : ω) (word : List (ω × α)) :
    build amend a ((op, b) :: word) = (build amend b word).insert amend a op := rfl

@[simp] theorem first_build (a : α) (word : List (ω × α)) : (build amend a word).first = a := by
  cases word with
  | nil => rfl
  | cons entry word => simp [build]

@[simp] theorem rest_build (a : α) (word : List (ω × α)) : (build amend a word).rest = word := by
  induction word generalizing a with
  | nil => rfl
  | cons entry word ih => simp [build, ih]

theorem respects_build (a : α) (word : List (ω × α)) : (build amend a word).Respects amend := by
  induction word generalizing a with
  | nil => trivial
  | cons entry word ih => exact (ih entry.2).insert amend

end Build

/-- A precedence puts every word into one tree. -/
structure Proper (amend : ω → ω → Prop) : Prop where
  trans : ∀ p q o, amend p q → amend q o → amend p o
  /-- What amends an operator that `q` does not amend, amends `q`. -/
  split : ∀ p q o, amend p o → ¬ amend q o → amend p q

namespace Tree

variable {amend : ω → ω → Prop} [DecidableRel amend]

/-- What a tree of two or more operands was before its first operand was put in. -/
theorem Respects.exists_insert (hProper : Proper amend) {t : Tree ω α} {op : ω} {b : α}
    {word : List (ω × α)} (h : t.Respects amend) (hRest : t.rest = (op, b) :: word) :
    ∃ u : Tree ω α, u.Respects amend ∧ u.first = b ∧ u.rest = word ∧
      t = u.insert amend t.first op := by
  induction t generalizing op b word with
  | leaf a => simp at hRest
  | node p left right ihLeft _ =>
    obtain ⟨hLeft, hRight, hOver, hUnder⟩ := h
    cases left with
    | leaf a =>
      obtain ⟨⟨rfl, rfl⟩, rfl⟩ : (p = op ∧ right.first = b) ∧ right.rest = word := by
        simpa using hRest
      refine ⟨right, hRight, rfl, rfl, ?_⟩
      cases right with
      | leaf c => rfl
      | node q l r =>
        have hq : ¬ amend q p := hUnder q rfl
        simp [insert_node, hq]
    | node q l r =>
      obtain ⟨entry, left', hLeftRest⟩ : ∃ entry left', (node q l r).rest = entry :: left' := by
        cases hl : l.rest <;> simp [hl]
      obtain ⟨rfl, rfl⟩ : entry = (op, b) ∧ left' ++ (p, right.first) :: right.rest = word := by
        rw [rest_node, hLeftRest] at hRest
        simpa using hRest
      obtain ⟨u, hu, hFirst, hURest, hInsert⟩ := ihLeft hLeft hLeftRest
      have hq : amend p q := hOver q rfl
      -- `p` amends the new operator, which is the root of the left operand or below `q`
      have hAmend : amend p op := by
        have hRoot : q ∈ (u.insert amend (node q l r).first op).root? := by
          rw [← hInsert]
          rfl
        obtain rfl | ⟨-, hqop⟩ := root?_insert amend hRoot
        · exact hq
        · exact hProper.trans p q op hq hqop
      refine ⟨node p u right, ⟨hu, hRight, ?_, hUnder⟩, hFirst, by simp [hURest], ?_⟩
      · intro s hs
        by_cases hsop : amend s op
        · have hRoot : (u.insert amend (node q l r).first op).root? = some s := by
            cases u with
            | leaf c => simp at hs
            | node s' l' r' =>
              obtain rfl : s' = s := by simpa using hs
              simp [insert_node, hsop]
          rw [← hInsert] at hRoot
          obtain rfl : q = s := by simpa using hRoot
          exact hq
        · exact hProper.split p s op hAmend hsop
      · rw [insert_node, if_pos hAmend, first_node, ← hInsert]

theorem Respects.eq_build (hProper : Proper amend) {t : Tree ω α} (h : t.Respects amend) :
    t = build amend t.first t.rest := by
  generalize hRest : t.rest = word
  induction word generalizing t with
  | nil =>
    cases t with
    | leaf a => rfl
    | node p left right => simp at hRest
  | cons entry word ih =>
    obtain ⟨u, hu, hFirst, hURest, hInsert⟩ := h.exists_insert hProper hRest
    calc t = u.insert amend t.first entry.1 := hInsert
      _ = (build amend u.first word).insert amend t.first entry.1 := by rw [← ih hu hURest]
      _ = build amend t.first (entry :: word) := by rw [hFirst]; rfl

end Tree

/-- Two precedences put a word into one tree iff they do so with what follows the first operator
and put the first operator into that at one place. -/
theorem build_cons_eq_iff (amend amend' : ω → ω → Prop) [DecidableRel amend]
    [DecidableRel amend'] (a b : α) (op : ω) (word : List (ω × α)) :
    build amend a ((op, b) :: word) = build amend' a ((op, b) :: word) ↔
      build amend b word = build amend' b word ∧
        (build amend' b word).insert amend a op = (build amend' b word).insert amend' a op := by
  constructor
  · intro h
    have hTail : build amend b word = build amend' b word := by
      have hDrop := congrArg Tree.dropFirst h
      simpa using hDrop
    refine ⟨hTail, ?_⟩
    simpa [hTail] using h
  · rintro ⟨hTail, hInsert⟩
    simpa [hTail] using hInsert

end OperatorTree
