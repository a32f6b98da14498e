import Mathlib.Data.List.Basic
import Mathlib.Data.List.Nodup
import Mathlib.Data.List.Perm.Basic

/-!
# Flat code with protected ranges

Structured code is emitted into a flat list of instructions and labels. A
protected range is the stretch between two labels of its own; the handler of an
instruction is looked up in a table of ranges that is ordered by depth.

Every point of the code remembers what it was emitted under: the ranges that
were open, innermost first, and a note of what the emitter took for granted.
`Frag` is the judgement that a piece of code was put together properly: ranges
are opened and closed in pairs, and each instruction is typed by rules that say
which note it needs and which one it leaves.

## Main definitions

* `Point`, `Range`, `Label` — flat code.
* `Frag` — well-formed fragments.
* `Covers`, `IsHandler` — what the table says.

## Main results

* `Frag.covers_iff` — the ranges that cover a point are those it was emitted under.
* `Frag.laminar` — ranges are nested or disjoint.
* `Frag.isHandler` — in a table ordered by depth the first range that covers a
  point is the innermost one.
-/

namespace FlatCode

/-- A jump target, and what may be assumed there. -/
structure Label (α : Type) where
  id : ℕ
  note : α
  deriving DecidableEq, Repr

/-- A protected range: its identity, the depth it is ordered by and its handler. -/
structure Range (α : Type) where
  id : ℕ
  depth : ℕ
  handler : Label α
  deriving DecidableEq, Repr

inductive Node (ι α : Type) where
  | insn (i : ι)
  | label (l : Label α)
  | tryBegin (id : ℕ)
  | tryEnd (id : ℕ)
  deriving DecidableEq, Repr

/-- A node with what it was emitted under. -/
structure Point (ι α τ : Type) where
  node : Node ι α
  note : α
  ranges : List (Range α)
  tag : τ
  deriving DecidableEq, Repr

/-- Which note an instruction needs and which it leaves, under the open ranges and a tag. -/
abbrev Rules (ι α τ : Type) := List (Range α) → τ → α → ι → α → Prop

variable {ι α τ : Type}

/-- `Frag K a code ts b`: a fragment emitted under the ranges `K`, entered with note `a` and left
with note `b`, that sets up the ranges `ts`. -/
inductive Frag (T : Rules ι α τ) (Le : α → α → Prop) :
    List (Range α) → α → List (Point ι α τ) → List (Range α) → α → Prop where
  | nil {K a} : Frag T Le K a [] [] a
  | insn {K a b i t} : T K t a i b → Frag T Le K a [⟨.insn i, a, K, t⟩] [] b
  | label {K a t} (l : Label α) : Le a l.note →
      Frag T Le K a [⟨.label l, l.note, K, t⟩] [] l.note
  | append {K a b d c c' ts ts'} : Frag T Le K a c ts b → Frag T Le K b c' ts' d →
      Frag T Le K a (c ++ c') (ts ++ ts') d
  | range {K a b c ts t t'} (r : Range α) : (∀ s ∈ K, s.depth < r.depth) →
      Frag T Le (r :: K) a c ts b →
      Frag T Le K a
        (⟨.tryBegin r.id, a, r :: K, t⟩ :: (c ++ [⟨.tryEnd r.id, b, K, t'⟩])) (r :: ts) b

/-- The node at a position. -/
def nodeAt (code : List (Point ι α τ)) (i : ℕ) : Option (Node ι α) := code[i]?.map Point.node

/-- The range `r` covers the position `pc`. -/
def Covers (code : List (Point ι α τ)) (r : Range α) (pc : ℕ) : Prop :=
  ∃ i j, nodeAt code i = some (.tryBegin r.id) ∧ nodeAt code j = some (.tryEnd r.id) ∧
    i ≤ pc ∧ pc < j

/-- `r` is the first range of the table that covers `pc`. -/
def IsHandler (tables : List (Range α)) (code : List (Point ι α τ)) (pc : ℕ) (r : Range α) :
    Prop :=
  ∃ pre post, tables = pre ++ r :: post ∧ Covers code r pc ∧ ∀ s ∈ pre, ¬ Covers code s pc

/-- A table in an order `std::sort` may leave it in: deepest first, ties in any order. -/
def SortedByDepth (tables : List (Range α)) : Prop :=
  tables.Pairwise fun r s => s.depth ≤ r.depth

section NodeAt

variable {c c' : List (Point ι α τ)} {i : ℕ} {n : Node ι α}

theorem nodeAt_append_left (h : i < c.length) : nodeAt (c ++ c') i = nodeAt c i := by
  simp [nodeAt, List.getElem?_append_left h]

theorem nodeAt_append_right : nodeAt (c ++ c') (c.length + i) = nodeAt c' i := by
  simp [nodeAt, List.getElem?_append_right]

theorem lt_of_nodeAt (h : nodeAt c i = some n) : i < c.length := by
  by_contra hi
  simp [nodeAt, List.getElem?_eq_none (Nat.not_lt.mp hi)] at h

theorem nodeAt_append : nodeAt (c ++ c') i = some n ↔
    nodeAt c i = some n ∨ ∃ j, i = c.length + j ∧ nodeAt c' j = some n := by
  by_cases h : i < c.length
  · rw [nodeAt_append_left h]
    refine ⟨.inl, ?_⟩
    rintro (h' | ⟨j, rfl, -⟩)
    · exact h'
    · omega
  · obtain ⟨j, rfl⟩ := Nat.exists_eq_add_of_le (Nat.not_lt.mp h)
    rw [nodeAt_append_right]
    refine ⟨fun h' => .inr ⟨j, rfl, h'⟩, ?_⟩
    rintro (h' | ⟨k, hk, h'⟩)
    · exact absurd (lt_of_nodeAt h') h
    · obtain rfl : j = k := by omega
      exact h'

theorem nodeAt_singleton {p : Point ι α τ} : nodeAt [p] i = some n ↔ i = 0 ∧ p.node = n := by
  cases i with
  | zero => simp [nodeAt]
  | succ i => simp [nodeAt]

theorem nodeAt_bracket {p q : Point ι α τ} : nodeAt (p :: (c ++ [q])) i = some n ↔
    i = 0 ∧ p.node = n ∨ (∃ j, i = j + 1 ∧ nodeAt c j = some n) ∨
      i = c.length + 1 ∧ q.node = n := by
  rw [← List.singleton_append, nodeAt_append, nodeAt_singleton]
  refine or_congr_right ⟨?_, ?_⟩
  · rintro ⟨j, rfl, h⟩
    rcases nodeAt_append.mp h with hc | ⟨k, rfl, hq⟩
    · exact .inl ⟨j, Nat.add_comm .., hc⟩
    · obtain ⟨rfl, hn⟩ := nodeAt_singleton.mp hq
      exact .inr ⟨Nat.add_comm .., hn⟩
  · rintro (⟨j, rfl, h⟩ | ⟨rfl, h⟩)
    · exact ⟨j, Nat.add_comm .., nodeAt_append.mpr (.inl h)⟩
    · exact ⟨c.length, Nat.add_comm .., nodeAt_append.mpr (.inr ⟨0, rfl, nodeAt_singleton.mpr ⟨rfl, h⟩⟩)⟩

end NodeAt

theorem Covers.lt_length {c : List (Point ι α τ)} {r : Range α} {pc : ℕ} (h : Covers c r pc) :
    pc < c.length := by
  obtain ⟨i, j, -, hj, -, hlt⟩ := h
  exact Nat.lt_trans hlt (lt_of_nodeAt hj)

theorem covers_append_left {c c' : List (Point ι α τ)} {r : Range α}
    {pc : ℕ} (hr : ∀ i, nodeAt c' i ≠ some (.tryBegin r.id) ∧ nodeAt c' i ≠ some (.tryEnd r.id)) :
    Covers (c ++ c') r pc ↔ Covers c r pc := by
  constructor
  · rintro ⟨i, j, hi, hj, hle, hlt⟩
    have hi := (nodeAt_append.mp hi).resolve_right fun ⟨k, _, hk⟩ => (hr k).1 hk
    have hj := (nodeAt_append.mp hj).resolve_right fun ⟨k, _, hk⟩ => (hr k).2 hk
    exact ⟨i, j, hi, hj, hle, hlt⟩
  · rintro ⟨i, j, hi, hj, hle, hlt⟩
    exact ⟨i, j, nodeAt_append.mpr (.inl hi), nodeAt_append.mpr (.inl hj), hle, hlt⟩

theorem covers_append_right {c c' : List (Point ι α τ)} {r : Range α} {pc : ℕ}
    (hr : ∀ i, nodeAt c i ≠ some (.tryBegin r.id) ∧ nodeAt c i ≠ some (.tryEnd r.id)) :
    Covers (c ++ c') r pc ↔ ∃ k, pc = c.length + k ∧ Covers c' r k := by
  constructor
  · rintro ⟨i, j, hi, hj, hle, hlt⟩
    obtain ⟨i', rfl, hi'⟩ := (nodeAt_append.mp hi).resolve_left (hr i).1
    obtain ⟨j', rfl, hj'⟩ := (nodeAt_append.mp hj).resolve_left (hr j).2
    exact ⟨pc - c.length, by omega, i', j', hi', hj', by omega, by omega⟩
  · rintro ⟨k, rfl, i, j, hi, hj, hle, hlt⟩
    exact ⟨c.length + i, c.length + j, nodeAt_append.mpr (.inr ⟨i, rfl, hi⟩),
      nodeAt_append.mpr (.inr ⟨j, rfl, hj⟩), by omega, by omega⟩

namespace Frag

variable {T : Rules ι α τ} {Le : α → α → Prop} {K : List (Range α)} {a b : α}
  {code : List (Point ι α τ)} {ts : List (Range α)}

theorem mem_of_nodeAt (h : Frag T Le K a code ts b) {i id : ℕ}
    (hi : nodeAt code i = some (.tryBegin id) ∨ nodeAt code i = some (.tryEnd id)) :
    id ∈ ts.map Range.id := by
  induction h generalizing i with
  | nil => simp [nodeAt] at hi
  | insn => simp [nodeAt_singleton] at hi
  | label => simp [nodeAt_singleton] at hi
  | append _ _ ih₁ ih₂ =>
    rw [nodeAt_append, nodeAt_append] at hi
    rw [List.map_append, List.mem_append]
    rcases hi with (hi | ⟨j, -, hi⟩) | (hi | ⟨j, -, hi⟩)
    · exact .inl (ih₁ (.inl hi))
    · exact .inr (ih₂ (.inl hi))
    · exact .inl (ih₁ (.inr hi))
    · exact .inr (ih₂ (.inr hi))
  | range r _ _ ih =>
    rw [nodeAt_bracket, nodeAt_bracket] at hi
    rw [List.map_cons, List.mem_cons]
    rcases hi with (⟨-, hi⟩ | ⟨j, -, hi⟩ | ⟨-, hi⟩) | (⟨-, hi⟩ | ⟨j, -, hi⟩ | ⟨-, hi⟩)
    · exact .inl (Node.tryBegin.inj hi).symm
    · exact .inr (ih (.inl hi))
    · cases hi
    · cases hi
    · exact .inr (ih (.inr hi))
    · exact .inl (Node.tryEnd.inj hi).symm

variable {p : Point ι α τ} {r : Range α}

/-- The ranges a point is emitted under are those of the fragment around it and some that the
fragment sets up. -/
theorem exists_ranges (h : Frag T Le K a code ts b) (hp : p ∈ code) :
    ∃ L, p.ranges = L ++ K ∧ L ⊆ ts := by
  induction h with
  | nil => cases hp
  | insn => exact ⟨[], by simp [List.mem_singleton.mp hp], by simp⟩
  | label => exact ⟨[], by simp [List.mem_singleton.mp hp], by simp⟩
  | append _ _ ih₁ ih₂ =>
    rcases List.mem_append.mp hp with hp | hp
    · obtain ⟨L, hL, hsub⟩ := ih₁ hp
      exact ⟨L, hL, List.subset_append_of_subset_left _ hsub⟩
    · obtain ⟨L, hL, hsub⟩ := ih₂ hp
      exact ⟨L, hL, List.subset_append_of_subset_right _ hsub⟩
  | range r _ _ ih =>
    simp only [List.mem_cons, List.mem_append, List.not_mem_nil, or_false] at hp
    rcases hp with rfl | hp | rfl
    · exact ⟨[r], rfl, by simp⟩
    · obtain ⟨L, hL, hsub⟩ := ih hp
      refine ⟨L ++ [r], by simp [hL], ?_⟩
      simpa using List.Subset.trans hsub (List.subset_cons_self _ _)
    · exact ⟨[], rfl, by simp⟩

theorem sorted (h : Frag T Le K a code ts b) (hK : K.Pairwise fun r s => s.depth < r.depth)
    (hp : p ∈ code) : p.ranges.Pairwise fun r s => s.depth < r.depth := by
  induction h with
  | nil => cases hp
  | insn => rwa [List.mem_singleton.mp hp]
  | label => rwa [List.mem_singleton.mp hp]
  | append _ _ ih₁ ih₂ => exact (List.mem_append.mp hp).elim (ih₁ hK) (ih₂ hK)
  | range r hr _ ih =>
    simp only [List.mem_cons, List.mem_append, List.not_mem_nil, or_false] at hp
    rcases hp with rfl | hp | rfl
    · exact List.pairwise_cons.mpr ⟨hr, hK⟩
    · exact ih (List.pairwise_cons.mpr ⟨hr, hK⟩) hp
    · exact hK

theorem not_mem_of_mem {ts ts' K : List (Range α)} (hids : ((ts ++ ts' ++ K).map Range.id).Nodup)
    (hr : r ∈ ts) {L : List (Range α)} (hL : L ⊆ ts') : r ∉ L ++ K := by
  rw [List.append_assoc, List.map_append] at hids
  intro hmem
  refine List.disjoint_of_nodup_append hids (List.mem_map_of_mem hr) (List.mem_map_of_mem ?_)
  exact (List.mem_append.mp hmem).elim (fun h => List.mem_append_left _ (hL h))
    (List.mem_append_right _)

theorem not_mem_context {ts K : List (Range α)} (hids : ((ts ++ K).map Range.id).Nodup)
    (hr : r ∈ ts) : r ∉ K := by
  rw [List.map_append] at hids
  exact fun hmem => List.disjoint_of_nodup_append hids (List.mem_map_of_mem hr)
    (List.mem_map_of_mem hmem)

/-- A range is always open under the same ones. -/
theorem exists_outer (h : Frag T Le K a code ts b) (hids : ((ts ++ K).map Range.id).Nodup)
    (hr : r ∈ ts) :
    ∃ outer, ∀ p ∈ code, r ∈ p.ranges → ∃ L, p.ranges = L ++ r :: outer := by
  induction h with
  | nil => cases hr
  | insn => cases hr
  | label => cases hr
  | @append K a b d c c' ts ts' h₁ h₂ ih₁ ih₂ =>
    have hids' : ((ts' ++ ts ++ K).map Range.id).Nodup :=
      ((List.perm_append_comm.append_right K).map _).nodup_iff.mp hids
    rcases List.mem_append.mp hr with hr | hr
    · obtain ⟨outer, ho⟩ := ih₁ (hids.sublist (by simp)) hr
      refine ⟨outer, fun p hp hpr => (List.mem_append.mp hp).elim (ho p · hpr) fun hp => ?_⟩
      obtain ⟨L, hL, hsub⟩ := h₂.exists_ranges hp
      exact absurd (hL ▸ hpr) (not_mem_of_mem hids hr hsub)
    · obtain ⟨outer, ho⟩ := ih₂ (hids.sublist (by simp)) hr
      refine ⟨outer, fun p hp hpr => (List.mem_append.mp hp).elim (fun hp => ?_) (ho p · hpr)⟩
      obtain ⟨L, hL, hsub⟩ := h₁.exists_ranges hp
      exact absurd (hL ▸ hpr) (not_mem_of_mem hids' hr hsub)
  | @range K a b c ts t t' r' _ hbody ih =>
    have hids' : ((ts ++ (r' :: K)).map Range.id).Nodup :=
      (List.perm_middle.map Range.id).nodup_iff.mpr hids
    have hnot {s : Range α} (hs : s ∈ r' :: ts) : s ∉ K := not_mem_context hids hs
    rcases List.mem_cons.mp hr with rfl | hr
    · refine ⟨K, fun p hp hpr => ?_⟩
      simp only [List.mem_cons, List.mem_append, List.not_mem_nil, or_false] at hp
      rcases hp with rfl | hp | rfl
      · exact ⟨[], rfl⟩
      · obtain ⟨L, hL, -⟩ := hbody.exists_ranges hp
        exact ⟨L, hL⟩
      · exact absurd hpr (hnot hr)
    · obtain ⟨outer, ho⟩ := ih hids' hr
      have hnot' : r ∉ r' :: K := not_mem_context hids' hr
      refine ⟨outer, fun p hp hpr => ?_⟩
      simp only [List.mem_cons, List.mem_append, List.not_mem_nil, or_false] at hp
      rcases hp with rfl | hp | rfl
      · exact absurd hpr hnot'
      · exact ho p hp hpr
      · exact absurd (List.mem_cons_of_mem _ hpr) hnot'

theorem not_nodeAt (h : Frag T Le K a code ts b) {id : ℕ} (hid : id ∉ ts.map Range.id) (i : ℕ) :
    nodeAt code i ≠ some (.tryBegin id) ∧ nodeAt code i ≠ some (.tryEnd id) :=
  ⟨fun hi => hid (h.mem_of_nodeAt (.inl hi)), fun hi => hid (h.mem_of_nodeAt (.inr hi))⟩

theorem id_not_mem {ts ts' K : List (Range α)} (hids : ((ts ++ ts' ++ K).map Range.id).Nodup)
    (hr : r ∈ ts) : r.id ∉ ts'.map Range.id := by
  rw [List.append_assoc, List.map_append, List.map_append] at hids
  exact fun hmem => List.disjoint_of_nodup_append hids (List.mem_map_of_mem hr)
    (List.mem_append_left _ hmem)

section

variable (h : Frag T Le K a code ts b) (hids : ((ts ++ K).map Range.id).Nodup)
include h hids

/-- The ranges that cover a position are those its point was emitted under. -/
theorem covers_iff {pc : ℕ}
    (hp : code[pc]? = some p) (hr : r ∈ ts) :
    Covers code r pc ↔ r ∈ p.ranges := by
  induction h generalizing pc p with
  | nil => cases hr
  | insn => cases hr
  | label => cases hr
  | @append K a b d c c' ts ts' h₁ h₂ ih₁ ih₂ =>
    have hids' : ((ts' ++ ts ++ K).map Range.id).Nodup :=
      ((List.perm_append_comm.append_right K).map _).nodup_iff.mp hids
    rcases List.mem_append.mp hr with hr | hr
    · rw [covers_append_left (h₂.not_nodeAt (id_not_mem hids hr))]
      by_cases hpc : pc < c.length
      · rw [List.getElem?_append_left hpc] at hp
        exact ih₁ (hids.sublist (by simp)) hp hr
      · rw [List.getElem?_append_right (Nat.not_lt.mp hpc)] at hp
        obtain ⟨L, hL, hsub⟩ := h₂.exists_ranges (List.mem_of_getElem? hp)
        exact iff_of_false (fun hc => hpc hc.lt_length) (hL ▸ not_mem_of_mem hids hr hsub)
    · rw [covers_append_right (h₁.not_nodeAt (id_not_mem hids' hr))]
      by_cases hpc : pc < c.length
      · rw [List.getElem?_append_left hpc] at hp
        obtain ⟨L, hL, hsub⟩ := h₁.exists_ranges (List.mem_of_getElem? hp)
        refine iff_of_false ?_ (hL ▸ not_mem_of_mem hids' hr hsub)
        rintro ⟨k, rfl, -⟩
        omega
      · rw [List.getElem?_append_right (Nat.not_lt.mp hpc)] at hp
        rw [← ih₂ (hids.sublist (by simp)) hp hr]
        refine ⟨?_, fun hc => ⟨pc - c.length, by omega, hc⟩⟩
        rintro ⟨k, rfl, hc⟩
        rwa [Nat.add_sub_cancel_left]
  | @range K a b c ts t t' r' _ hbody ih =>
    have hids' : ((ts ++ (r' :: K)).map Range.id).Nodup :=
      (List.perm_middle.map Range.id).nodup_iff.mpr hids
    have hK : r ∉ K := not_mem_context hids hr
    -- the points of the fragment: the two labels and the body
    have hcases : (pc = 0 ∧ p.ranges = r' :: K) ∨ (∃ k, pc = k + 1 ∧ (c)[k]? = some p) ∨
        (pc = c.length + 1 ∧ p.ranges = K) := by
      rcases Nat.lt_trichotomy pc (c.length + 1) with hlt | rfl | hgt
      · cases pc with
        | zero =>
          rw [List.getElem?_cons_zero] at hp
          exact .inl ⟨rfl, by rw [← Option.some_inj.mp hp]⟩
        | succ k =>
          rw [List.getElem?_cons_succ, List.getElem?_append_left (by omega)] at hp
          exact .inr (.inl ⟨k, rfl, hp⟩)
      · rw [List.getElem?_cons_succ, List.getElem?_append_right (Nat.le_refl _), Nat.sub_self,
          List.getElem?_cons_zero] at hp
        exact .inr (.inr ⟨rfl, by rw [← Option.some_inj.mp hp]⟩)
      · rw [List.getElem?_eq_none (by simp; omega)] at hp
        cases hp
    rcases List.mem_cons.mp hr with rfl | hr
    · have hcov : Covers (⟨.tryBegin r.id, a, r :: K, t⟩ :: (c ++ [⟨.tryEnd r.id, b, K, t'⟩])) r pc ↔
          pc < c.length + 1 := by
        have hid : r.id ∉ ts.map Range.id := by
          rw [List.cons_append, List.map_cons, List.nodup_cons, List.map_append] at hids
          exact fun hmem => hids.1 (List.mem_append_left _ hmem)
        have hno := hbody.not_nodeAt hid
        constructor
        · rintro ⟨i, j, -, hj, -, hlt⟩
          rcases nodeAt_bracket.mp hj with ⟨-, hj⟩ | ⟨k, -, hj⟩ | ⟨rfl, -⟩
          · cases hj
          · exact absurd hj (hno k).2
          · exact hlt
        · exact fun hlt => ⟨0, c.length + 1, nodeAt_bracket.mpr (.inl ⟨rfl, rfl⟩),
            nodeAt_bracket.mpr (.inr (.inr ⟨rfl, rfl⟩)), Nat.zero_le _, hlt⟩
      rw [hcov]
      rcases hcases with ⟨rfl, hrg⟩ | ⟨k, rfl, hk⟩ | ⟨rfl, hrg⟩
      · simp [hrg]
      · obtain ⟨L, hL, -⟩ := hbody.exists_ranges (List.mem_of_getElem? hk)
        have := (List.getElem?_eq_some_iff.mp hk).1
        exact iff_of_true (by omega) (by simp [hL])
      · exact iff_of_false (by omega) (hrg ▸ hK)
    · have hne : r'.id ≠ r.id := by
        rw [List.cons_append, List.map_cons, List.nodup_cons, List.map_append] at hids
        exact fun heq => hids.1 (List.mem_append_left _ (heq ▸ List.mem_map_of_mem hr))
      have hcov : Covers (⟨.tryBegin r'.id, a, r' :: K, t⟩ ::
          (c ++ [⟨.tryEnd r'.id, b, K, t'⟩])) r pc ↔ ∃ k, pc = k + 1 ∧ Covers c r k := by
        constructor
        · rintro ⟨i, j, hi, hj, hle, hlt⟩
          rcases nodeAt_bracket.mp hi with ⟨-, hi'⟩ | ⟨i, rfl, hi'⟩ | ⟨-, hi'⟩
          · exact absurd (Node.tryBegin.inj hi') hne
          · rcases nodeAt_bracket.mp hj with ⟨-, hj'⟩ | ⟨j, rfl, hj'⟩ | ⟨-, hj'⟩
            · cases hj'
            · exact ⟨pc - 1, by omega, i, j, hi', hj', by omega, by omega⟩
            · exact absurd (Node.tryEnd.inj hj') hne
          · cases hi'
        · rintro ⟨k, rfl, i, j, hi, hj, hle, hlt⟩
          exact ⟨i + 1, j + 1, nodeAt_bracket.mpr (.inr (.inl ⟨i, rfl, hi⟩)),
            nodeAt_bracket.mpr (.inr (.inl ⟨j, rfl, hj⟩)), by omega, by omega⟩
      have hr' : r ≠ r' := fun heq => hne (heq ▸ rfl)
      rw [hcov]
      rcases hcases with ⟨rfl, hrg⟩ | ⟨k, rfl, hk⟩ | ⟨rfl, hrg⟩
      · refine iff_of_false (by rintro ⟨k, hk, -⟩; omega) ?_
        rw [hrg, List.mem_cons, not_or]
        exact ⟨hr', hK⟩
      · rw [← ih hids' hk hr]
        refine ⟨?_, fun hc => ⟨k, rfl, hc⟩⟩
        rintro ⟨k', hk', hc⟩
        obtain rfl : k = k' := by omega
        exact hc
      · refine iff_of_false ?_ (hrg ▸ hK)
        rintro ⟨k, hk, hc⟩
        have := hc.lt_length
        omega

theorem covers_of_outer {s : Range α} (hr : r ∈ ts) (hs : s ∈ ts) {outer : List (Range α)}
    (ho : ∀ p ∈ code, r ∈ p.ranges → ∃ L, p.ranges = L ++ r :: outer) (hso : s ∈ outer) {pc : ℕ}
    (hc : Covers code r pc) : Covers code s pc := by
  obtain ⟨q, hq⟩ : ∃ q, code[pc]? = some q := ⟨_, List.getElem?_eq_getElem hc.lt_length⟩
  obtain ⟨L, hL⟩ := ho q (List.mem_of_getElem? hq) ((h.covers_iff hids hq hr).mp hc)
  refine (h.covers_iff hids hq hs).mpr ?_
  simp [hL, hso]

/-- Two ranges that cover a common position: one is covered by the other, and is deeper. -/
theorem laminar (hK : K.Pairwise fun r s => s.depth < r.depth) {s : Range α} (hr : r ∈ ts) (hs : s ∈ ts)
    {pc : ℕ} (hrc : Covers code r pc) (hsc : Covers code s pc) :
    r = s ∨ (s.depth < r.depth ∧ ∀ pc, Covers code r pc → Covers code s pc) ∨
      (r.depth < s.depth ∧ ∀ pc, Covers code s pc → Covers code r pc) := by
  obtain ⟨p, hp⟩ : ∃ p, code[pc]? = some p := ⟨_, List.getElem?_eq_getElem hrc.lt_length⟩
  have hpm := List.mem_of_getElem? hp
  have hdepth := h.sorted hK hpm
  have hrp := (h.covers_iff hids hp hr).mp hrc
  have hsp := (h.covers_iff hids hp hs).mp hsc
  obtain ⟨ro, hro⟩ := h.exists_outer hids hr
  obtain ⟨so, hso⟩ := h.exists_outer hids hs
  obtain ⟨rl, hrl⟩ := hro p hpm hrp
  obtain ⟨sl, hsl⟩ := hso p hpm hsp
  have hdr := hrl ▸ hdepth
  have hds := hsl ▸ hdepth
  rw [List.pairwise_append, List.pairwise_cons] at hdr hds
  rw [hrl] at hsp
  rcases List.mem_append.mp hsp with hsL | hsR
  · -- `s` is the inner one, so `r` is not in front of it
    have hlt : r.depth < s.depth := hdr.2.2 s hsL r List.mem_cons_self
    rw [hsl] at hrp
    rcases List.mem_append.mp hrp with hrL | hrR
    · have := hds.2.2 r hrL s List.mem_cons_self
      omega
    · rcases List.mem_cons.mp hrR with rfl | hrR
      · omega
      · exact .inr (.inr ⟨hlt, fun _ => h.covers_of_outer hids hs hr hso hrR⟩)
  · rcases List.mem_cons.mp hsR with rfl | hsR
    · exact .inl rfl
    · exact .inr (.inl ⟨hdr.2.1.1 s hsR, fun _ => h.covers_of_outer hids hr hs hro hsR⟩)

end

/-- In a table ordered by depth, the first range to cover a position is the innermost one its
point was emitted under. -/
theorem isHandler (h : Frag T Le [] a code ts b) (hids : (ts.map Range.id).Nodup)
    {tables : List (Range α)} (hperm : tables.Perm ts) (hsorted : SortedByDepth tables) {pc : ℕ}
    (hp : code[pc]? = some p) (r : Range α) :
    IsHandler tables code pc r ↔ p.ranges.head? = some r := by
  have hids' : ((ts ++ []).map Range.id).Nodup := by simpa using hids
  have hmem := List.mem_of_getElem? hp
  have hdepth := h.sorted List.Pairwise.nil hmem
  have hcov {s : Range α} (hs : s ∈ tables) := h.covers_iff hids' hp (hperm.mem_iff.mp hs)
  have hranges {s : Range α} (hs : s ∈ p.ranges) : s ∈ tables := by
    obtain ⟨L, hL, hsub⟩ := h.exists_ranges hmem
    rw [hL, List.append_nil] at hs
    exact hperm.mem_iff.mpr (hsub hs)
  constructor
  · rintro ⟨pre, post, rfl, hc, hpre⟩
    have hr := (hcov (by simp)).mp hc
    cases hq : p.ranges with
    | nil => simp [hq] at hr
    | cons q rest =>
      rw [hq] at hr hdepth
      rcases List.mem_cons.mp hr with rfl | hr
      · rfl
      · have hlt := (List.pairwise_cons.mp hdepth).1 r hr
        have hqt : q ∈ pre ++ r :: post := hranges (by simp [hq])
        have hqc : Covers code q pc := (hcov hqt).mpr (by simp [hq])
        have hafter := (List.pairwise_cons.mp (List.pairwise_append.mp hsorted).2.1).1
        rcases List.mem_append.mp hqt with hqp | hqp
        · exact absurd hqc (hpre q hqp)
        · rcases List.mem_cons.mp hqp with rfl | hqp
          · omega
          · have := hafter q hqp
            omega
  · intro hhead
    obtain ⟨rest, hrest⟩ := List.head?_eq_some_iff.mp hhead
    rw [hrest] at hdepth
    have hr : r ∈ tables := hranges (by simp [hrest])
    have hc : Covers code r pc := (hcov hr).mpr (by simp [hrest])
    obtain ⟨pre, post, rfl⟩ := List.append_of_mem hr
    refine ⟨pre, post, rfl, hc, fun s hs hsc => ?_⟩
    have hsr := (hcov (List.mem_append_left _ hs)).mp hsc
    rw [hrest] at hsr
    have hle := (List.pairwise_append.mp hsorted).2.2 s hs r List.mem_cons_self
    have hnodup : ((pre ++ r :: post).map Range.id).Nodup :=
      (hperm.map Range.id).nodup_iff.mpr hids
    rcases List.mem_cons.mp hsr with rfl | hsr
    · rw [List.map_append] at hnodup
      exact List.disjoint_of_nodup_append hnodup (List.mem_map_of_mem hs) (by simp)
    · have := (List.pairwise_cons.mp hdepth).1 s hsr
      omega

end Frag

end FlatCode
