import Mathlib.Algebra.Order.Group.Multiset
import Mathlib.Data.Multiset.Range
import Mathlib.Tactic.Abel
import ArkTs2abc.FlatCode.Machine
import ArkTs2abc.Ts2panda.Statement.Nest
import ArkTs2abc.Ts2panda.PandaGen

/-!
# How code is put together

`Emits` is the judgement that a piece of code was put together in the way in which
the compiler does it: labels that are allocated are placed, and placed once; a catch
table is made, the block it is for is laid down between its labels, its handler
follows; a finalizer compiled in place is cut out of the tables of the try
statements that are left.

The judgement is about states of the generator, and knows nothing of statements.

## Main definitions

* `Goes` — what an instruction needs and leaves, and what it was compiled for.
* `Emits` — the judgement.
* `Sound` — what a point of the code can be trusted with.

## Main results

* `Emits.flows`, `Emits.sound` — the notes of the code.
* `Emits.account` — labels are placed once.
-/

namespace ArkTs2abc.Ts2panda.Compiler

open FlatCode (Point LabelPair)

variable {E : Type}

/-- `Goes t a i b`: with `a` environments alive the instruction leaves `b` of them. What may throw
stands at the depth of its nest, or has popped what the counters say. -/
inductive Goes (t : Tag) : ℕ → Insn E → ℕ → Prop where
  | code {e} : Nested t.nest → t.origin = .other →
      Goes t (envCount t.nest) (.code e) (envCount t.nest)
  | operation {o} : Nested t.nest → t.origin = .other →
      Goes t (envCount t.nest) (.operation o) (envCount t.nest)
  | move {a} : Goes t a .move a
  | createLexEnv {a} : Goes t a .createLexEnv (a + 1)
  | popLexicalEnv {a} : Goes t (a + 1) .popLexicalEnv a
  | branch {l b} : t.origin = .other → Goes t l.note (.branch l) b
  | jump {a b l lt change name} : Nested t.nest → t.origin = .jump change name →
      (targets t.nest).find? (LabelTarget.chosenBy name) = some lt → lt.label change = some l →
      a + lt.popTimes (change = .continue) = envCount t.nest → Goes t a (.branch l) b
  | condition {l} : t.origin = .other → Goes t l.note (.condition l) l.note
  | throw {b} : Nested t.nest → t.origin = .other → Goes t (envCount t.nest) .throw b
  | throwStatement {a b} : Nested t.nest → t.origin = .throwStatement →
      (∀ r level outer, tries (lexical t.nest) = (r, level) :: outer →
        a + level = envCount t.nest) → Goes t a .throw b
  | return {a b} : Goes t a .return b

/-- A label with the note that its nest gives it. The label in front of a finalizer knows what the
finalizer is compiled in. -/
structure Marks (K : List Range) (t : Tag) (l : Label) : Prop where
  ranges : openRanges t.nest = K
  wellNested : WellNested t.nest
  note : l.note = envCount t.nest
  inlined : t.origin = .inlineFinallyBegin → ∃ r nest, t.nest = .finalizer r :: nest ∧ Nested t.nest

/-- `splitLabelPair`, for one table after the other. -/
def PandaGen.splitLabelPairs (pg : PandaGen E) (inlined : LabelPair ℕ) (left : List Range) :
    PandaGen E :=
  left.foldl (fun pg r => pg.splitLabelPair inlined r.id) pg

/-- The point that a label is placed at. -/
def mark (K : List Range) (t : Tag) (l : Label) : Point (Insn E) ℕ Tag := ⟨.label l, l.note, K, t⟩

/-- `Emits K L pg new pg'`: under the try statements `K`, the generator has gone from `pg` to `pg'`
and has laid down `new`. It has placed the labels `L` on behalf of those who allocated them, and
all that it has allocated itself. -/
inductive Emits : List Range → Multiset ℕ → PandaGen E → List (Point (Insn E) ℕ Tag) →
    PandaGen E → Prop where
  | nil {K pg} : Emits K 0 pg [] pg
  | append {K L L' pg pg' pg'' new new'} : Emits K L pg new pg' → Emits K L' pg' new' pg'' →
      Emits K (L + L') pg (new ++ new') pg''
  | names {K pg names} : Emits K 0 pg [] { pg with name2LabelTarget := names }
  | newLabel {K L pg pg' new} :
      Emits K ({pg.nextLabel} + L) { pg with nextLabel := pg.nextLabel + 1 } new pg' →
      Emits K L pg new pg'
  | insn {K pg t i} : openRanges t.nest = K → WellNested t.nest →
      Goes t pg.live i (i.leaves t.nest pg.live) →
      Emits K 0 pg [⟨.insn i, pg.live, K, t⟩] (pg.add K t i)
  | label {K pg t l} : Marks K t l → pg.live = l.note →
      Emits K {l.id} pg [mark K t l] (pg.label K t l)
  /-- The block of a try statement, and what follows up to its handler. -/
  | protect {K t b e tb te tc L L' pg pg' pg'' new new'} : t.labelPairs = [⟨b, e⟩] →
      (∀ r ∈ K, r.depth < t.depth) → Marks (t.range :: K) tb b → pg.live = b.note →
      Emits (t.range :: K) L ((pg.newCatchTable t).label (t.range :: K) tb b) new pg' →
      Marks K te e → pg'.live = e.note → Emits K L' (pg'.label K te e) new' pg'' →
      Marks K tc t.catchBeginLabel → pg''.live = t.catchBeginLabel.note →
      Emits K ({b.id} + L + ({e.id} + L' + {t.catchBeginLabel.id})) pg
        (mark (t.range :: K) tb b :: new ++ mark K te e :: (new' ++ [mark K tc t.catchBeginLabel]))
        (pg''.label K tc t.catchBeginLabel)
  /-- A finalizer in place of a jump that leaves the try statements `pre` and `r`. -/
  | copy {pre r K L x y tx ty pg pg' new} : Marks K tx x → pg.live = x.note →
      Emits K L (pg.label K tx x) new pg' → Marks (pre ++ r :: K) ty y → pg'.live = y.note →
      Emits (pre ++ r :: K) ({x.id} + L + {y.id}) pg
        (mark K tx x :: (new ++ [mark (pre ++ r :: K) ty y]))
        ((pg'.label (pre ++ r :: K) ty y).splitLabelPairs ⟨x, y⟩ (pre ++ [r]))

/-- The effect of instructions, as rules of flat code. -/
def effect (K : List Range) (t : Tag) (a : ℕ) (i : Insn E) (b : ℕ) : Prop :=
  openRanges t.nest = K ∧ Goes t a i b

/-- What a point of the code can be trusted with. -/
structure Sound (p : Point (Insn E) ℕ Tag) : Prop where
  ranges : p.ranges = openRanges p.tag.nest
  wellNested : WellNested p.tag.nest
  insn : ∀ i, p.node = .insn i → ∃ b, Goes p.tag p.note i b
  label : ∀ l, p.node = .label l → p.note = l.note ∧ Marks p.ranges p.tag l

theorem Marks.sound {K : List Range} {t : Tag} {l : Label} (h : Marks K t l) :
    Sound (mark K t l : Point (Insn E) ℕ Tag) where
  ranges := h.ranges.symm
  wellNested := h.wellNested
  insn := by rintro i ⟨⟩
  label := by
    rintro l ⟨⟩
    exact ⟨rfl, h⟩

@[simp]
theorem PandaGen.insns_splitLabelPairs (pg : PandaGen E) (inlined : LabelPair ℕ)
    (left : List Range) : (pg.splitLabelPairs inlined left).insns = pg.insns := by
  induction left generalizing pg with
  | nil => rfl
  | cons r left ih => exact ih _

@[simp]
theorem PandaGen.live_splitLabelPairs (pg : PandaGen E) (inlined : LabelPair ℕ)
    (left : List Range) : (pg.splitLabelPairs inlined left).live = pg.live := by
  induction left generalizing pg with
  | nil => rfl
  | cons r left ih => exact ih _

@[simp]
theorem PandaGen.nextLabel_splitLabelPairs (pg : PandaGen E) (inlined : LabelPair ℕ)
    (left : List Range) : (pg.splitLabelPairs inlined left).nextLabel = pg.nextLabel := by
  induction left generalizing pg with
  | nil => rfl
  | cons r left ih => exact ih _

/-- The labels that stand in the code. -/
def placedLabels (code : List (Point (Insn E) ℕ Tag)) : Multiset ℕ :=
  code.filterMap fun p => match p.node with
    | .label l => some l.id
    | _ => none

section Placed

variable {K : List Range} {t : Tag} {l : Label} {c c' : List (Point (Insn E) ℕ Tag)}

@[simp]
theorem placedLabels_nil : placedLabels ([] : List (Point (Insn E) ℕ Tag)) = 0 := rfl

@[simp]
theorem placedLabels_append : placedLabels (c ++ c') = placedLabels c + placedLabels c' := by
  simp [placedLabels, List.filterMap_append]

@[simp]
theorem placedLabels_mark : placedLabels (mark K t l :: c) = {l.id} + placedLabels c := rfl

@[simp]
theorem placedLabels_insn {i : Insn E} {a : ℕ} :
    placedLabels (⟨.insn i, a, K, t⟩ :: c) = placedLabels c := rfl

end Placed

theorem flows_mark {K : List Range} {t : Tag} {l : Label} {a b : ℕ}
    {rest : List (Point (Insn E) ℕ Tag)} (ha : a = l.note)
    (h : FlatCode.Flows effect Eq l.note rest b) :
    FlatCode.Flows effect Eq a (mark K t l :: rest) b :=
  ⟨ha, l.note, rfl, h⟩

/-- The tables, as the code refers to them. -/
def PandaGen.ranges (pg : PandaGen E) : List Range := pg.catchMap.map CatchTable.range

section Ranges

variable {pg : PandaGen E}

@[simp]
theorem PandaGen.ranges_label {K : List Range} {t : Tag} {l : Label} :
    (pg.label K t l).ranges = pg.ranges := rfl

@[simp]
theorem PandaGen.ranges_newCatchTable {t : CatchTable} :
    (pg.newCatchTable t).ranges = pg.ranges ++ [t.range] := by
  simp [ranges, newCatchTable]

@[simp]
theorem CatchTable.range_splitLabelPair (t : CatchTable) (inlined : LabelPair ℕ) :
    (t.splitLabelPair inlined).range = t.range := by
  unfold splitLabelPair
  split <;> rfl

@[simp]
theorem PandaGen.ranges_splitLabelPairs (inlined : LabelPair ℕ) (left : List Range) :
    (pg.splitLabelPairs inlined left).ranges = pg.ranges := by
  induction left generalizing pg with
  | nil => rfl
  | cons r left ih =>
    have hsplit : (pg.splitLabelPair inlined r.id).ranges = pg.ranges := by
      unfold ranges splitLabelPair
      rw [List.map_map]
      refine List.map_congr_left fun t _ => ?_
      simp only [Function.comp_apply]
      split
      · exact t.range_splitLabelPair inlined
      · rfl
    exact ih.trans hsplit

end Ranges

namespace Emits

variable {K : List Range} {L : Multiset ℕ} {pg pg' : PandaGen E}
  {new : List (Point (Insn E) ℕ Tag)}

section

variable (h : Emits K L pg new pg')
include h

theorem insns_eq : pg'.insns = pg.insns ++ new := by
  induction h with
  | nil => simp
  | append _ _ ih₁ ih₂ => simp [ih₂, ih₁]
  | names => simp
  | newLabel _ ih => exact ih
  | insn => rfl
  | label => rfl
  | protect _ _ _ _ _ _ _ _ _ _ ih₁ ih₂ =>
    simp [PandaGen.label, PandaGen.newCatchTable, ih₁, ih₂, mark]
  | copy _ _ _ _ _ ih => simp [PandaGen.label, ih, mark]

theorem flows : FlatCode.Flows effect Eq pg.live new pg'.live := by
  induction h with
  | nil => rfl
  | append _ _ ih₁ ih₂ => exact ih₁.append ih₂
  | names => rfl
  | newLabel _ ih => exact ih
  | insn hr _ hg => exact ⟨rfl, _, ⟨hr, hg⟩, rfl⟩
  | label _ hlive => exact flows_mark hlive rfl
  | protect _ _ _ hb _ _ he _ _ hc ih₁ ih₂ =>
    exact flows_mark hb (ih₁.append (flows_mark he (ih₂.append (flows_mark hc rfl))))
  | copy _ hx _ _ hy ih =>
    rw [PandaGen.live_splitLabelPairs]
    exact flows_mark hx (ih.append (flows_mark hy rfl))

/-- Every point can be trusted. -/
theorem sound : ∀ p ∈ new, Sound p := by
  induction h with
  | nil => simp
  | append _ _ ih₁ ih₂ =>
    intro p hp
    exact (List.mem_append.mp hp).elim (ih₁ p) (ih₂ p)
  | names => simp
  | newLabel _ ih => exact ih
  | insn hr hnest hg =>
    intro p hp
    obtain rfl := List.mem_singleton.mp hp
    exact ⟨hr.symm, hnest, fun i hi => ⟨_, FlatCode.Node.insn.inj hi ▸ hg⟩, by rintro l ⟨⟩⟩
  | label hm =>
    intro p hp
    obtain rfl := List.mem_singleton.mp hp
    exact hm.sound
  | protect _ _ hb _ _ he _ _ hc _ ih₁ ih₂ =>
    intro p hp
    simp only [List.cons_append, List.mem_cons, List.mem_append, List.not_mem_nil, or_false] at hp
    rcases hp with rfl | hp | rfl | hp | rfl
    · exact hb.sound
    · exact ih₁ p hp
    · exact he.sound
    · exact ih₂ p hp
    · exact hc.sound
  | copy hx _ _ hy _ ih =>
    intro p hp
    simp only [List.mem_cons, List.mem_append, List.not_mem_nil, or_false] at hp
    rcases hp with rfl | hp | rfl
    · exact hx.sound
    · exact ih p hp
    · exact hy.sound

theorem account :
    placedLabels new + Multiset.range pg.nextLabel = L + Multiset.range pg'.nextLabel := by
  induction h with
  | nil => rfl
  | append _ _ ih₁ ih₂ => grind [placedLabels_append]
  | names => rfl
  | newLabel _ ih =>
    rw [Multiset.range_succ, ← Multiset.singleton_add, add_left_comm, add_assoc] at ih
    exact add_left_cancel ih
  | insn => rfl
  | label => simp [PandaGen.label]
  | protect _ _ _ _ _ _ _ _ _ _ ih₁ ih₂ =>
    simp only [PandaGen.label, PandaGen.newCatchTable, List.cons_append, placedLabels_mark,
      placedLabels_append, placedLabels_nil] at ih₁ ih₂ ⊢
    grind
  | copy _ _ _ _ _ ih =>
    simp only [PandaGen.label, PandaGen.nextLabel_splitLabelPairs, placedLabels_mark,
      placedLabels_append, placedLabels_nil] at ih ⊢
    grind

/-- The tables stay, as far as their handlers and depths go, and each new one has its handler in
the code. -/
theorem ranges_eq :
    ∃ rs, pg'.ranges = pg.ranges ++ rs ∧
      ((rs.map FlatCode.Range.id : List ℕ) : Multiset ℕ) ≤ placedLabels new := by
  induction h with
  | nil => exact ⟨[], by simp, by simp⟩
  | append _ _ ih₁ ih₂ =>
    obtain ⟨rs₁, h₁, hle₁⟩ := ih₁
    obtain ⟨rs₂, h₂, hle₂⟩ := ih₂
    refine ⟨rs₁ ++ rs₂, by rw [h₂, h₁, List.append_assoc], ?_⟩
    rw [List.map_append, ← Multiset.coe_add, placedLabels_append]
    exact add_le_add hle₁ hle₂
  | names => exact ⟨[], by simp [PandaGen.ranges], by simp⟩
  | newLabel _ ih => exact ih
  | insn => exact ⟨[], by simp [PandaGen.ranges, PandaGen.add], by simp⟩
  | label => exact ⟨[], by simp [PandaGen.ranges, PandaGen.label], by simp⟩
  | @protect K t b e tb te tc _ _ pg _ _ new₁ new₂ _ _ _ _ _ _ _ _ _ _ ih₁ ih₂ =>
    obtain ⟨rs₁, h₁, hle₁⟩ := ih₁
    obtain ⟨rs₂, h₂, hle₂⟩ := ih₂
    refine ⟨t.range :: (rs₁ ++ rs₂), ?_, ?_⟩
    · simp only [PandaGen.ranges_label] at h₁ h₂ ⊢
      rw [h₂, h₁, PandaGen.ranges_newCatchTable]
      simp
    · have hle : {t.catchBeginLabel.id} + ((rs₁ ++ rs₂).map FlatCode.Range.id : Multiset ℕ) ≤
          {t.catchBeginLabel.id} + (placedLabels new₁ + placedLabels new₂) := by
        rw [List.map_append, ← Multiset.coe_add]
        exact add_le_add_right (add_le_add hle₁ hle₂) _
      refine hle.trans ?_
      simp only [List.cons_append, placedLabels_mark, placedLabels_append, placedLabels_nil]
      refine le_of_le_of_eq (Multiset.le_add_left _ ({b.id} + {e.id})) ?_
      abel
  | copy _ _ _ _ _ ih =>
    obtain ⟨rs, h, hle⟩ := ih
    refine ⟨rs, ?_, ?_⟩
    · simpa using h
    · simp only [placedLabels_mark, placedLabels_append]
      exact hle.trans ((Multiset.le_add_right _ _).trans (Multiset.le_add_left _ _))

end

end Emits

end ArkTs2abc.Ts2panda.Compiler
