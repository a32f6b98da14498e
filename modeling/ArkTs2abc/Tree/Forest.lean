import Mathlib.Data.List.Basic

/-!
# Ordered forests

A forest is the list of the trees below a node, in order. A site is a node of a forest with
what is above it and what is below it. Something that is declared at a node is carried upward
to the nearest barrier, and what arrives at a node from below can be gathered going down.

## Main definitions

* `Forest`, `Forest.sites`, `Forest.roots` — forests, their nodes in preorder, their topmost
  nodes.
* `hoistPath` — the nodes above, up to and with the nearest barrier.
* `Forest.gather` — what reaches the top of a forest without meeting a barrier.

## Main results

* `Forest.exists_hoistPath_iff` — going up from what is declared meets the same pairs as
  gathering from below at every node.
* `Forest.exists_parent_iff` — the pairs of a node and its parent, seen from both ends.
-/

namespace Tree

inductive Forest (α : Type) where
  | nil
  | cons (root : α) (below after : Forest α)
  deriving DecidableEq, Repr

structure Site (α : Type) where
  node : α
  below : Forest α
  /-- The nearest node first. -/
  above : List α
  deriving DecidableEq, Repr

variable {α β : Type}

namespace Forest

/-- The topmost nodes. -/
def roots : Forest α → List α
  | nil => []
  | cons root _ after => root :: roots after

/-- The nodes in preorder. -/
def sites (above : List α) : Forest α → List (Site α)
  | nil => []
  | cons root below after =>
    ⟨root, below, above⟩ :: (sites (root :: above) below ++ sites above after)

@[simp] theorem roots_nil : (nil : Forest α).roots = [] := rfl

@[simp] theorem roots_cons (root : α) (below after : Forest α) :
    (cons root below after).roots = root :: after.roots := rfl

@[simp] theorem sites_nil (above : List α) : (nil : Forest α).sites above = [] := rfl

@[simp] theorem sites_cons (above : List α) (root : α) (below after : Forest α) :
    (cons root below after).sites above =
      ⟨root, below, above⟩ :: (below.sites (root :: above) ++ after.sites above) := rfl

theorem exists_parent_iff (R : α → α → Prop) (F : Forest α) (above : List α) :
    (∃ t ∈ F.sites above, ∃ p ∈ t.above.head?, R p t.node) ↔
      (∃ s ∈ F.sites above, ∃ c ∈ s.below.roots, R s.node c) ∨
        ∃ p ∈ above.head?, ∃ c ∈ F.roots, R p c := by
  induction F generalizing above with
  | nil => simp
  | cons root below after below_ih after_ih =>
    have child : (∃ p ∈ (root :: above).head?, ∃ c ∈ below.roots, R p c) ↔
        ∃ c ∈ below.roots, R root c := by
      simp
    have top : (∃ p ∈ above.head?, ∃ c ∈ (cons root below after).roots, R p c) ↔
        (∃ p ∈ above.head?, R p root) ∨ ∃ p ∈ above.head?, ∃ c ∈ after.roots, R p c := by
      simp only [roots_cons, List.mem_cons, or_and_right, exists_or, exists_eq_left, and_or_left]
    simp only [sites_cons, List.mem_cons, List.mem_append, or_and_right, exists_or,
      exists_eq_left, below_ih, after_ih, child, top]
    exact iff_of_eq (by ac_rfl)

theorem exists_parent_iff_of_top (R : α → α → Prop) (F : Forest α) :
    (∃ t ∈ F.sites [], ∃ p ∈ t.above.head?, R p t.node) ↔
      ∃ s ∈ F.sites [], ∃ c ∈ s.below.roots, R s.node c := by
  simpa using exists_parent_iff R F []

end Forest

section Barrier

variable (barrier : α → Bool) (own : α → List β)

/-- The nodes above, up to and with the nearest barrier. -/
def hoistPath : List α → List α
  | [] => []
  | node :: above => if barrier node then [node] else node :: hoistPath above

/-- What the nodes of a forest declare, without what stands at a barrier or below it. -/
def Forest.gather : Forest α → List β
  | .nil => []
  | .cons root below after =>
    (if barrier root then [] else own root ++ below.gather) ++ after.gather

@[simp] theorem hoistPath_nil : hoistPath barrier [] = [] := rfl

theorem mem_hoistPath_cons {barrier : α → Bool} {node g : α} {above : List α} :
    g ∈ hoistPath barrier (node :: above) ↔
      g = node ∨ ¬ barrier node ∧ g ∈ hoistPath barrier above := by
  by_cases h : barrier node <;> simp [hoistPath, h]

namespace Forest

@[simp] theorem gather_nil : (nil : Forest α).gather barrier own = [] := rfl

theorem mem_gather_cons {barrier : α → Bool} {own : α → List β} {root : α}
    {below after : Forest α} {x : β} :
    x ∈ (cons root below after).gather barrier own ↔
      ¬ barrier root ∧ (x ∈ own root ∨ x ∈ below.gather barrier own) ∨
        x ∈ after.gather barrier own := by
  by_cases h : barrier root <;> simp [gather, h, or_assoc]

/-- Going up from each declaration to the nearest barrier meets the same pairs of a node and a
declaration as gathering from below at each node. -/
theorem exists_hoistPath_iff (Q : α → β → Prop) (F : Forest α) (above : List α) :
    (∃ t ∈ F.sites above, ¬ barrier t.node ∧
        ∃ x ∈ own t.node, ∃ g ∈ hoistPath barrier t.above, Q g x) ↔
      (∃ s ∈ F.sites above, ∃ x ∈ s.below.gather barrier own, Q s.node x) ∨
        ∃ x ∈ F.gather barrier own, ∃ g ∈ hoistPath barrier above, Q g x := by
  induction F generalizing above with
  | nil => simp
  | cons root below after below_ih after_ih =>
    simp only [sites_cons, List.mem_cons, List.mem_append, or_and_right, exists_or,
      exists_eq_left, below_ih, after_ih, mem_hoistPath_cons, mem_gather_cons, and_or_left]
    by_cases h : barrier root
    · simp only [h, not_true_eq_false, false_and, and_false, exists_false, false_or, or_false]
      exact iff_of_eq (by ac_rfl)
    · simp only [h, Bool.false_eq_true, not_false_eq_true, true_and]
      exact iff_of_eq (by ac_rfl)

theorem exists_hoistPath_iff_of_top (Q : α → β → Prop) (F : Forest α) :
    (∃ t ∈ F.sites [], ¬ barrier t.node ∧
        ∃ x ∈ own t.node, ∃ g ∈ hoistPath barrier t.above, Q g x) ↔
      ∃ s ∈ F.sites [], ∃ x ∈ s.below.gather barrier own, Q s.node x := by
  simpa using exists_hoistPath_iff barrier own Q F []

end Forest

end Barrier

end Tree
