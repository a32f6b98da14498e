import ArkTs2abc.Es2panda.Compiler.TypedStatements

/-!
# The order of the catch tables

`SortCatchTables` orders the tables of a function by depth and leaves the order of
tables of one depth open. Whatever order it ends with, the tables that cover an
instruction are the contexts it was compiled in, innermost first.

## Main definitions

* `SortCatchTables` — the orders that the sort may leave.
* `Inner` — a table lies inside another one and comes before it.

## Main results

* `catchTables_innermost_first` — ranges are nested, and the first one to cover an
  instruction is the innermost context around it.
-/

namespace ArkTs2abc.Es2panda

open FlatCode

/-- `std::sort` by `b->Depth() < a->Depth()`: tables of the same depth may come in any order. -/
def SortCatchTables (tables sorted : List CatchTable) : Prop :=
  sorted.Perm tables ∧ SortedByDepth sorted

/-- The range of `r` lies in that of `s`, and `r` comes first in the list. -/
def Inner (code : List Point) (tables : List CatchTable) (r s : CatchTable) : Prop :=
  (∀ pc, Covers code r pc → Covers code s pc) ∧
    ∃ pre mid post, tables = pre ++ r :: (mid ++ s :: post)

theorem before_of_depth_lt {tables : List CatchTable} (h : SortedByDepth tables) {r s : CatchTable}
    (hr : r ∈ tables) (hs : s ∈ tables) (hlt : s.depth < r.depth) :
    ∃ pre mid post, tables = pre ++ r :: (mid ++ s :: post) := by
  obtain ⟨pre, post, rfl⟩ := List.append_of_mem hr
  have hpre := (List.pairwise_append.mp h).2.2
  rcases List.mem_append.mp hs with hs | hs
  · have := hpre s hs r List.mem_cons_self
    omega
  · rcases List.mem_cons.mp hs with rfl | hs
    · omega
    · obtain ⟨mid, post, rfl⟩ := List.append_of_mem hs
      exact ⟨pre, mid, post, rfl⟩

section Sorted

variable {f : ScriptFunction} {tables : List CatchTable}

section

variable (h : SortCatchTables (PandaGen.output f).tables tables)
include h

theorem inner_or_inner {r s : CatchTable}
    (hr : r ∈ tables) (hs : s ∈ tables) (hne : r ≠ s) {pc : ℕ}
    (hrc : Covers (PandaGen.output f).code r pc) (hsc : Covers (PandaGen.output f).code s pc) :
    Inner (PandaGen.output f).code tables r s ∨ Inner (PandaGen.output f).code tables s r := by
  obtain ⟨⟨b, hfrag⟩, hids⟩ := PandaGen.output_fragment f
  have hids' : (((PandaGen.output f).tables ++ []).map Range.id).Nodup := by simpa using hids
  have hmem {r : CatchTable} (hr : r ∈ tables) := h.1.mem_iff.mp hr
  rcases hfrag.laminar hids' List.Pairwise.nil (hmem hr) (hmem hs) hrc hsc with
    heq | ⟨hlt, hsub⟩ | ⟨hlt, hsub⟩
  · exact absurd heq hne
  · exact .inl ⟨hsub, before_of_depth_lt h.2 hr hs hlt⟩
  · exact .inr ⟨hsub, before_of_depth_lt h.2 hs hr hlt⟩

theorem covers_iff_mem_ranges {r : CatchTable} (hr : r ∈ tables) {pc : ℕ} {p : Point}
    (hp : (PandaGen.output f).code[pc]? = some p) :
    Covers (PandaGen.output f).code r pc ↔ r ∈ p.ranges := by
  obtain ⟨⟨b, hfrag⟩, hids⟩ := PandaGen.output_fragment f
  exact hfrag.covers_iff (by simpa using hids) hp (h.1.mem_iff.mp hr)

theorem isHandler_iff_head? {pc : ℕ}
    {p : Point} (hp : (PandaGen.output f).code[pc]? = some p) (r : CatchTable) :
    IsHandler tables (PandaGen.output f).code pc r ↔ p.ranges.head? = some r := by
  obtain ⟨⟨b, hfrag⟩, hids⟩ := PandaGen.output_fragment f
  exact hfrag.isHandler hids h.1 h.2 hp r

theorem covers_of_isHandler {r s : CatchTable} {pc : ℕ} (hr : IsHandler tables (PandaGen.output f).code pc r)
    (hs : s ∈ tables) (hsc : Covers (PandaGen.output f).code s pc) :
    ∀ pc', Covers (PandaGen.output f).code r pc' → Covers (PandaGen.output f).code s pc' := by
  obtain ⟨⟨b, hfrag⟩, hids⟩ := PandaGen.output_fragment f
  have hids' : (((PandaGen.output f).tables ++ []).map Range.id).Nodup := by simpa using hids
  obtain ⟨pre, post, rfl, hrc, hpre⟩ := hr
  have hmem {r : CatchTable} (hr : r ∈ pre ++ _ :: post) := h.1.mem_iff.mp hr
  rcases hfrag.laminar hids' List.Pairwise.nil (hmem (by simp)) (hmem hs) hrc hsc with
    rfl | ⟨-, hsub⟩ | ⟨hlt, -⟩
  · exact fun _ hc => hc
  · exact hsub
  · -- a deeper range that covers the instruction would come first
    rcases List.mem_append.mp hs with hs | hs
    · exact absurd hsc (hpre s hs)
    · have hafter := (List.pairwise_cons.mp (List.pairwise_append.mp h.2).2.1).1
      rcases List.mem_cons.mp hs with rfl | hs
      · omega
      · have := hafter s hs
        omega

end

end Sorted

/-- Ranges that share an instruction are nested, and the inner one comes first; the first one to
cover an instruction is that of the innermost context it was compiled in. -/
theorem catchTables_innermost_first (f : ScriptFunction) (tables : List CatchTable)
    (h : SortCatchTables (PandaGen.output f).tables tables) :
    (∀ r ∈ tables, ∀ s ∈ tables, r ≠ s → ∀ pc, Covers (PandaGen.output f).code r pc →
      Covers (PandaGen.output f).code s pc →
        Inner (PandaGen.output f).code tables r s ∨ Inner (PandaGen.output f).code tables s r) ∧
    ∀ pc p, (PandaGen.output f).code[pc]? = some p → ∀ r,
      (r ∈ tables → (Covers (PandaGen.output f).code r pc ↔ r ∈ p.ranges)) ∧
      (IsHandler tables (PandaGen.output f).code pc r ↔ p.ranges.head? = some r) ∧
      (IsHandler tables (PandaGen.output f).code pc r → ∀ s ∈ tables,
        Covers (PandaGen.output f).code s pc →
          ∀ pc', Covers (PandaGen.output f).code r pc' → Covers (PandaGen.output f).code s pc') := by
  refine ⟨fun r hr s hs hne pc => inner_or_inner h hr hs hne, fun pc p hp r => ?_⟩
  refine ⟨fun hr => covers_iff_mem_ranges h hr hp, isHandler_iff_head? h hp r, ?_⟩
  intro hhandler s hs hsc pc' hrc'
  exact covers_of_isHandler h hhandler hs hsc pc' hrc'

/-- `function f() { try { 0; } finally { } }`. -/
def tryFinallyFunction : ScriptFunction where
  scope := { id := 0, type := .function }
  paramScope := { id := 1, type := .functionParam }
  body := .inr (.cons (.tryFinally (.expression .literal) .empty) .nil)

/-- Its two tables are sorted by reversing them. -/
theorem catchTables_innermost_first_tryFinally :
    let code := (PandaGen.output tryFinallyFunction).code
    let tables := (PandaGen.output tryFinallyFunction).tables.reverse
    tables.length = 2 ∧ ∀ r ∈ tables, ∀ s ∈ tables, r ≠ s → ∀ pc, Covers code r pc →
      Covers code s pc → Inner code tables r s ∨ Inner code tables s r :=
  ⟨by decide, (catchTables_innermost_first tryFinallyFunction _
    ⟨List.reverse_perm _, by unfold SortedByDepth; decide⟩).1⟩

end ArkTs2abc.Es2panda
