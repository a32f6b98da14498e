import ArkTs2abc.Ts2panda.CompilerEmits

/-!
# What the catch tables cover

A table starts with one label pair around its try block. Every finalizer that is
compiled in place of a jump out of the block cuts the last pair in two. The pairs
that come out of it are `Segments` of the code: what is laid down while the table is
open, without what is laid down while it is not.

## Main definitions

* `Grown` — what becomes of a table that is there before some code is laid down.
* `Complete` — a table whose try block is finished.

## Main results

* `Emits.tables` — what becomes of the tables.
* `catchTables_cover` — the tables of a function.
* `labels_placed` — the labels of a function.
-/

namespace ArkTs2abc.Ts2panda.Compiler

open FlatCode (Point LabelPair Segments InOrder PlacedOnce)

variable {E : Type}

/-- The point was compiled while the try statement was one of those around. -/
def InRange (r : Range) (p : Point (Insn E) ℕ Tag) : Prop := r ∈ p.ranges

/-- What becomes of the table `t` while `new` is laid down under the try statements `K`. -/
structure Grown (K : List Range) (new : List (Point (Insn E) ℕ Tag)) (t t' : CatchTable) : Prop where
  range_eq : t'.range = t.range
  segments : t.range ∈ K → ∀ init last, t.labelPairs = init ++ [last] →
    ∃ ps l, t'.labelPairs = init ++ (ps ++ [⟨l, last.endLabel⟩]) ∧
      Segments (InRange t.range) last.beginLabel new ps l
  unchanged : t.range ∉ K → t'.labelPairs = t.labelPairs ∧ ∀ p ∈ new, ¬ InRange t.range p

/-- The try block of the table lies in the code, and so does all that the table is meant for. -/
def Complete (code : List (Point (Insn E) ℕ Tag)) (t : CatchTable) : Prop :=
  ∃ pre b c e post first last ps l, code = pre ++ b :: (c ++ e :: post) ∧
    b.node = .label first ∧ InRange t.range b ∧ e.node = .label last ∧
    (∀ p ∈ pre ++ e :: post, ¬ InRange t.range p) ∧
    t.labelPairs = ps ++ [⟨l, last⟩] ∧ Segments (InRange t.range) first c ps l

namespace Grown

variable {K : List Range} {new new' : List (Point (Insn E) ℕ Tag)} {t t' t'' : CatchTable}

theorem refl (K : List Range) (t : CatchTable) :
    Grown K ([] : List (Point (Insn E) ℕ Tag)) t t where
  range_eq := rfl
  segments := fun _ init last h => ⟨[], last.beginLabel, h, .nil⟩
  unchanged := fun _ => ⟨rfl, by simp⟩

theorem single {p : Point (Insn E) ℕ Tag} (hp : t.range ∈ p.ranges ↔ t.range ∈ K) :
    Grown K [p] t t where
  range_eq := rfl
  segments := fun ht init last h => ⟨[], last.beginLabel, h, .point (hp.mpr ht) .nil⟩
  unchanged := by
    intro ht
    refine ⟨rfl, fun q hq hin => ht ?_⟩
    obtain rfl := List.mem_singleton.mp hq
    exact hp.mp hin

theorem congr {K' : List Range} (hK : t.range ∈ K ↔ t.range ∈ K') (h : Grown K new t t') :
    Grown K' new t t' where
  range_eq := h.range_eq
  segments := fun ht => h.segments (hK.mpr ht)
  unchanged := fun ht => h.unchanged fun hmem => ht (hK.mp hmem)

theorem append (h : Grown K new t t') (h' : Grown K new' t' t'') :
    Grown K (new ++ new') t t'' where
  range_eq := h'.range_eq.trans h.range_eq
  segments := by
    intro ht init last heq
    obtain ⟨ps, l, hps, hs⟩ := h.segments ht init last heq
    have hpairs : t'.labelPairs = (init ++ ps) ++ [⟨l, last.endLabel⟩] := by
      rw [hps, List.append_assoc]
    obtain ⟨ps', l', hps', hs'⟩ := h'.segments (h.range_eq ▸ ht) _ _ hpairs
    rw [h.range_eq] at hs'
    exact ⟨ps ++ ps', l', by simp [hps'], hs.append hs'⟩
  unchanged := by
    intro ht
    obtain ⟨hpairs, hnew⟩ := h.unchanged ht
    obtain ⟨hpairs', hnew'⟩ := h'.unchanged (h.range_eq ▸ ht)
    refine ⟨hpairs'.trans hpairs, fun p hp => ?_⟩
    rw [h.range_eq] at hnew'
    exact (List.mem_append.mp hp).elim (hnew p) (hnew' p)

theorem complete {code : List (Point (Insn E) ℕ Tag)} (h : Grown K new t t') (ht : t.range ∉ K)
    (hc : Complete code t) : Complete (code ++ new) t' := by
  obtain ⟨pre, b, c, e, post, first, last, ps, l, rfl, hb, hin, he, hout, hpairs, hs⟩ := hc
  obtain ⟨hsame, hnew⟩ := h.unchanged ht
  rw [← h.range_eq] at hin hout hs hnew
  refine ⟨pre, b, c, e, post ++ new, first, last, ps, l, by simp, hb, hin, he, ?_,
    hsame.trans hpairs, hs⟩
  intro p hp
  rw [← List.cons_append, ← List.append_assoc] at hp
  exact (List.mem_append.mp hp).elim (hout p) (hnew p)

end Grown

theorem Complete.prepend {code new : List (Point (Insn E) ℕ Tag)} {t : CatchTable}
    (h : Complete code t) (hnew : ∀ p ∈ new, ¬ InRange t.range p) : Complete (new ++ code) t := by
  obtain ⟨pre, b, c, e, post, first, last, ps, l, rfl, hb, hin, he, hout, hpairs, hs⟩ := h
  refine ⟨new ++ pre, b, c, e, post, first, last, ps, l, by simp, hb, hin, he, ?_, hpairs, hs⟩
  intro p hp
  rw [List.append_assoc] at hp
  exact (List.mem_append.mp hp).elim (hnew p) (hout p)

theorem CatchTable.splitLabelPair_labelPairs {t : CatchTable} {init : List (LabelPair ℕ)}
    {last inlined : LabelPair ℕ} (h : t.labelPairs = init ++ [last]) :
    (t.splitLabelPair inlined).labelPairs =
      init ++ [⟨last.beginLabel, inlined.beginLabel⟩, ⟨inlined.endLabel, last.endLabel⟩] := by
  simp [splitLabelPair, h]

theorem PandaGen.catchMap_splitLabelPairs {pg : PandaGen E} {inlined : LabelPair ℕ}
    {left : List Range} (hids : (pg.ranges.map FlatCode.Range.id).Nodup) (hleft : left.Nodup)
    (hsub : ∀ r ∈ left, r ∈ pg.ranges) :
    (pg.splitLabelPairs inlined left).catchMap = pg.catchMap.map fun t =>
      if t.range ∈ left then t.splitLabelPair inlined else t := by
  induction left generalizing pg with
  | nil => simp [splitLabelPairs]
  | cons r left ih =>
    obtain ⟨hr, hleft⟩ := List.nodup_cons.mp hleft
    have hranges : (pg.splitLabelPair inlined r.id).ranges = pg.ranges :=
      pg.ranges_splitLabelPairs inlined [r]
    have ih := @ih (pg.splitLabelPair inlined r.id) (hranges ▸ hids) hleft
      fun s hs => hranges ▸ hsub s (.tail _ hs)
    have hid (t : CatchTable) (ht : t ∈ pg.catchMap) :
        t.catchBeginLabel.id = r.id ↔ t.range = r := by
      refine ⟨fun h => ?_, fun h => h ▸ rfl⟩
      exact List.inj_on_of_nodup_map hids (List.mem_map_of_mem ht) (hsub r (.head _)) h
    refine ih.trans ?_
    unfold splitLabelPair
    rw [List.map_map]
    refine List.map_congr_left fun t ht => ?_
    simp only [Function.comp_apply, hid t ht, List.mem_cons]
    by_cases heq : t.range = r
    · simp [heq, hr]
    · simp [heq]

/-- What becomes of the tables while `new` is laid down under `K`. -/
def Tables (K : List Range) (new : List (Point (Insn E) ℕ Tag)) (pg pg' : PandaGen E) : Prop :=
  ∃ grow fresh, pg'.catchMap = pg.catchMap.map grow ++ fresh ∧
    (∀ t ∈ pg.catchMap, Grown K new t (grow t)) ∧ ∀ t ∈ fresh, Complete new t

namespace Tables

variable {K : List Range} {new new' : List (Point (Insn E) ℕ Tag)} {pg pg' pg'' : PandaGen E}
  {grow : CatchTable → CatchTable} {fresh : List CatchTable}

theorem refl (h : pg'.catchMap = pg.catchMap) : Tables K [] pg pg' :=
  ⟨id, [], by simp [h], fun t _ => .refl K t, by simp⟩

theorem single {p : Point (Insn E) ℕ Tag} (h : pg'.catchMap = pg.catchMap)
    (hp : ∀ r ∈ pg.ranges, r ∈ p.ranges ↔ r ∈ K) : Tables K [p] pg pg' :=
  ⟨id, [], by simp [h], fun _ ht => .single (hp _ (List.mem_map_of_mem ht)), by simp⟩

section

variable (heq : pg'.catchMap = pg.catchMap.map grow ++ fresh) (hold : ∀ t ∈ pg.catchMap, Grown K new t (grow t))
include heq hold

theorem ranges_eq :
    pg'.ranges = pg.ranges ++ fresh.map CatchTable.range := by
  unfold PandaGen.ranges
  rw [heq, List.map_append, List.map_map]
  congr 1
  exact List.map_congr_left fun t ht => (hold t ht).range_eq

theorem fresh_not_mem (hids : (pg'.ranges.map FlatCode.Range.id).Nodup) {t : CatchTable} (ht : t ∈ fresh) :
    t.range ∉ pg.ranges := by
  intro hmem
  have hnodup := hids.of_map
  rw [ranges_eq heq hold] at hnodup
  exact List.disjoint_of_nodup_append hnodup hmem (List.mem_map_of_mem ht)

end

theorem append (hK : ∀ r ∈ K, r ∈ pg.ranges) (hnew : ∀ p ∈ new, ∀ r ∈ p.ranges, r ∈ pg'.ranges)
    (hids : (pg''.ranges.map FlatCode.Range.id).Nodup) (h : Tables K new pg pg')
    (h' : Tables K new' pg' pg'') : Tables K (new ++ new') pg pg'' := by
  obtain ⟨grow, fresh, heq, hold, hfresh⟩ := h
  obtain ⟨grow', fresh', heq', hold', hfresh'⟩ := h'
  have hids' : (pg'.ranges.map FlatCode.Range.id).Nodup := by
    rw [ranges_eq heq' hold', List.map_append] at hids
    exact hids.of_append_left
  refine ⟨grow' ∘ grow, fresh.map grow' ++ fresh', ?_, fun t ht => ?_, fun t ht => ?_⟩
  · rw [heq', heq, List.map_append, List.map_map, List.append_assoc]
  · refine (hold t ht).append (hold' _ ?_)
    rw [heq]
    exact List.mem_append_left _ (List.mem_map_of_mem ht)
  rcases List.mem_append.mp ht with ht | ht
  · obtain ⟨t₀, ht₀, rfl⟩ := List.mem_map.mp ht
    have hmem : t₀ ∈ pg'.catchMap := heq ▸ List.mem_append_right _ ht₀
    refine (hold' t₀ hmem).complete (fun hin => ?_) (hfresh t₀ ht₀)
    exact fresh_not_mem heq hold hids' ht₀ (hK _ hin)
  · refine (hfresh' t ht).prepend fun p hp hin => ?_
    exact fresh_not_mem heq' hold' hids ht (hnew p hp _ hin)

end Tables

/-- A try block between its labels. -/
theorem Tables.protect {K : List Range} {new : List (Point (Insn E) ℕ Tag)} {pg pg' : PandaGen E}
    {t : CatchTable} {b e : Label} {tb te : Tag} (ht : t.labelPairs = [⟨b, e⟩])
    (hK : ∀ r ∈ K, r ∈ pg.ranges) (hids : (pg'.ranges.map FlatCode.Range.id).Nodup)
    (h : Tables (t.range :: K) new ((pg.newCatchTable t).label (t.range :: K) tb b) pg') :
    Tables K (mark (t.range :: K) tb b :: (new ++ [mark K te e])) pg (pg'.label K te e) := by
  obtain ⟨grow, fresh, heq, hold, hfresh⟩ := h
  have htables : ((pg.newCatchTable t).label (t.range :: K) tb b).catchMap =
      pg.catchMap ++ [t] := rfl
  have hranges := Tables.ranges_eq heq hold
  rw [PandaGen.ranges_label, PandaGen.ranges_newCatchTable] at hranges
  have hnodup := hids.of_map
  rw [hranges, List.append_assoc] at hnodup
  have hnew : t.range ∉ pg.ranges := fun hmem =>
    List.disjoint_of_nodup_append hnodup hmem (by simp)
  have hself : t ∈ ((pg.newCatchTable t).label (t.range :: K) tb b).catchMap := by simp [htables]
  refine ⟨grow, grow t :: fresh, ?_, fun t₀ ht₀ => ?_, fun t₀ ht₀ => ?_⟩
  · change pg'.catchMap = _
    rw [heq, htables, List.map_append, List.append_assoc]
    rfl
  · have hmem : t₀.range ∈ pg.ranges := List.mem_map_of_mem ht₀
    have hne : t₀.range ≠ t.range := fun heq => hnew (heq ▸ hmem)
    have hK' : t₀.range ∈ t.range :: K ↔ t₀.range ∈ K := by simp [hne]
    have hgrown := hold t₀ (by rw [htables]; exact List.mem_append_left _ ht₀)
    have hbegin : Grown K [(mark (t.range :: K) tb b : Point (Insn E) ℕ Tag)] t₀ t₀ := .single hK'
    have hend : Grown K [(mark K te e : Point (Insn E) ℕ Tag)] (grow t₀) (grow t₀) := .single Iff.rfl
    exact hbegin.append ((hgrown.congr hK').append hend)
  rcases List.mem_cons.mp ht₀ with rfl | ht₀
  · obtain ⟨ps, l, hpairs, hs⟩ := (hold t hself).segments (.head _) [] _ ht
    have hr := (hold t hself).range_eq
    refine ⟨[], mark (t.range :: K) tb b, new, mark K te e, [], b, e, ps, l, by simp, rfl, ?_, rfl,
      ?_, hpairs, hr.symm ▸ hs⟩
    · exact hr.symm ▸ List.mem_cons_self
    · intro p hp
      obtain rfl : p = mark K te e := by simpa using hp
      exact fun hin => hnew (hK _ (hr ▸ hin))
  · have hout : t₀.range ∉ t.range :: K := by
      intro hmem
      refine Tables.fresh_not_mem heq hold hids ht₀ ?_
      rw [PandaGen.ranges_label, PandaGen.ranges_newCatchTable]
      rcases List.mem_cons.mp hmem with heq | hmem
      · exact heq ▸ by simp
      · exact List.mem_append_left _ (hK _ hmem)
    have hcomplete : Complete (new ++ [mark K te e]) t₀ :=
      (Grown.single Iff.rfl).complete (fun hmem => hout (.tail _ hmem)) (hfresh t₀ ht₀)
    have hbegin : ∀ p ∈ [(mark (t.range :: K) tb b : Point (Insn E) ℕ Tag)],
        ¬ InRange t₀.range p := by
      intro p hp hin
      obtain rfl := List.mem_singleton.mp hp
      exact hout hin
    exact hcomplete.prepend hbegin

/-- A finalizer between its labels, compiled under the try statements around those left. -/
theorem Tables.copy {K left : List Range} {new : List (Point (Insn E) ℕ Tag)} {pg pg' : PandaGen E}
    {x y : Label} {tx ty : Tag} (hK : ∀ r ∈ left ++ K, r ∈ pg.ranges) (hnodup : (left ++ K).Nodup)
    (hids : (pg'.ranges.map FlatCode.Range.id).Nodup)
    (h : Tables K (mark K tx x :: new) pg pg') :
    Tables (left ++ K) (mark K tx x :: (new ++ [mark (left ++ K) ty y])) pg
      ((pg'.label (left ++ K) ty y).splitLabelPairs ⟨x, y⟩ left) := by
  obtain ⟨grow, fresh, heq, hold, hfresh⟩ := h
  have hranges := Tables.ranges_eq heq hold
  have hleft : ∀ r ∈ left, r ∉ K := fun r hr hr' => List.disjoint_of_nodup_append hnodup hr hr'
  have hout (t : CatchTable) (ht : t ∈ fresh) : t.range ∉ left ++ K := fun hmem =>
    Tables.fresh_not_mem heq hold hids ht (hK _ hmem)
  have hend (t : CatchTable) :
      Grown (left ++ K) [(mark (left ++ K) ty y : Point (Insn E) ℕ Tag)] t t := .single Iff.rfl
  refine ⟨fun t => if (grow t).range ∈ left then (grow t).splitLabelPair ⟨x, y⟩ else grow t, fresh,
    ?_, fun t ht => ?_, fun t ht => ?_⟩
  · have hids' : ((pg'.label (left ++ K) ty y).ranges.map FlatCode.Range.id).Nodup := hids
    have hsub : ∀ r ∈ left, r ∈ (pg'.label (left ++ K) ty y).ranges := by
      intro r hr
      rw [PandaGen.ranges_label, hranges]
      exact List.mem_append_left _ (hK r (List.mem_append_left _ hr))
    refine (PandaGen.catchMap_splitLabelPairs hids' hnodup.of_append_left hsub).trans ?_
    change pg'.catchMap.map _ = _
    rw [heq, List.map_append, List.map_map]
    congr 1
    refine (List.map_congr_left fun t ht => ?_).trans (List.map_id _)
    exact if_neg fun hmem => hout t ht (List.mem_append_left _ hmem)
  · have hgrown := hold t ht
    simp only [hgrown.range_eq]
    by_cases hin : t.range ∈ left
    · obtain ⟨hsame, hnew⟩ := hgrown.unchanged (hleft _ hin)
      rw [if_pos hin]
      refine ⟨by simp [hgrown.range_eq], fun _ init last hpairs => ?_, fun hnot => ?_⟩
      · refine ⟨[⟨last.beginLabel, x⟩], y, ?_, ?_⟩
        · rw [CatchTable.splitLabelPair_labelPairs (hsame.trans hpairs)]
          rfl
        · refine .gap rfl (hnew _ (.head _)) (fun p hp => hnew p (.tail _ hp)) rfl ?_ .nil
          exact List.mem_append_left _ hin
      · exact absurd (List.mem_append_left _ hin) hnot
    · rw [if_neg hin]
      exact (hgrown.congr (by simp [hin])).append (hend _)
  · refine (Grown.single Iff.rfl).complete (hout t ht) (hfresh t ht)

namespace Emits

variable {K : List Range} {L : Multiset ℕ} {pg pg' : PandaGen E}
  {new : List (Point (Insn E) ℕ Tag)}

theorem ranges_subset (h : Emits K L pg new pg') {r : Range} (hr : r ∈ pg.ranges) :
    r ∈ pg'.ranges := by
  obtain ⟨rs, heq, -⟩ := h.ranges_eq
  exact heq ▸ List.mem_append_left _ hr

/-- What a point is compiled under has a table. -/
theorem ranges_mem (h : Emits K L pg new pg') (hK : ∀ r ∈ K, r ∈ pg.ranges) :
    ∀ p ∈ new, ∀ r ∈ p.ranges, r ∈ pg'.ranges := by
  induction h with
  | nil => simp
  | append _ h₂ ih₁ ih₂ =>
    rename_i h₁
    intro p hp r hr
    rcases List.mem_append.mp hp with hp | hp
    · exact h₂.ranges_subset (ih₁ hK p hp r hr)
    · exact ih₂ (fun r hr => h₁.ranges_subset (hK r hr)) p hp r hr
  | names => simp
  | newLabel _ ih => exact ih hK
  | insn =>
    intro p hp r hr
    obtain rfl := List.mem_singleton.mp hp
    exact hK r hr
  | label => simpa [mark] using hK
  | @protect K t b e tb te tc _ _ pg pg₁ pg₂ new₁ new₂ _ _ _ _ h₁ _ _ h₂ _ _ ih₁ ih₂ =>
    have hK' : ∀ r ∈ t.range :: K, r ∈ (pg.newCatchTable t).ranges := by
      intro r hr
      rw [PandaGen.ranges_newCatchTable]
      rcases List.mem_cons.mp hr with rfl | hr
      · simp
      · exact List.mem_append_left _ (hK r hr)
    have hK₁ : ∀ r ∈ t.range :: K, r ∈ pg₁.ranges := fun r hr => h₁.ranges_subset (hK' r hr)
    have hup : ∀ r ∈ pg₁.ranges, r ∈ pg₂.ranges := fun r hr => h₂.ranges_subset hr
    intro p hp r hr
    rw [PandaGen.ranges_label]
    simp only [List.cons_append, List.mem_cons, List.mem_append, List.not_mem_nil, or_false] at hp
    rcases hp with rfl | hp | rfl | hp | rfl
    · exact hup r (hK₁ r hr)
    · exact hup r (ih₁ hK' p hp r hr)
    · exact hup r (hK₁ r (.tail _ hr))
    · exact ih₂ (fun r hr => hK₁ r (.tail _ hr)) p hp r hr
    · exact hup r (hK₁ r (.tail _ hr))
  | copy _ _ h _ _ ih =>
    intro p hp r hr
    rw [PandaGen.ranges_splitLabelPairs, PandaGen.ranges_label]
    simp only [List.mem_cons, List.mem_append, List.not_mem_nil, or_false] at hp
    rcases hp with rfl | hp | rfl
    · exact h.ranges_subset (hK r (List.mem_append_right _ (.tail _ hr)))
    · exact ih (fun r hr => hK r (List.mem_append_right _ (.tail _ hr))) p hp r hr
    · exact h.ranges_subset (hK r hr)

theorem tables (h : Emits K L pg new pg') (hK : ∀ r ∈ K, r ∈ pg.ranges)
    (hdepth : K.Pairwise fun r s => s.depth < r.depth)
    (hids : (pg'.ranges.map FlatCode.Range.id).Nodup) : Tables K new pg pg' := by
  have hsub {K L} {pg pg' : PandaGen E} {new} (h : Emits K L pg new pg')
      (hids : (pg'.ranges.map FlatCode.Range.id).Nodup) :
      (pg.ranges.map FlatCode.Range.id).Nodup := by
    obtain ⟨rs, heq, -⟩ := h.ranges_eq
    rw [heq, List.map_append] at hids
    exact hids.of_append_left
  induction h with
  | nil => exact .refl rfl
  | @append K L L' pg pg' pg'' new new' h₁ h₂ ih₁ ih₂ =>
    have hK' : ∀ r ∈ K, r ∈ pg'.ranges := fun r hr => h₁.ranges_subset (hK r hr)
    exact .append hK (h₁.ranges_mem hK) hids (ih₁ hK hdepth (hsub h₂ hids)) (ih₂ hK' hdepth hids)
  | names => exact .refl rfl
  | newLabel _ ih => exact ih hK hdepth hids
  | insn => exact .single rfl fun _ _ => Iff.rfl
  | label => exact .single rfl fun _ _ => Iff.rfl
  | @protect K t b e tb te tc _ _ pg pg₁ pg₂ new₁ new₂ ht hd _ _ h₁ _ _ h₂ _ _ ih₁ ih₂ =>
    have hids₁ := hsub h₂ hids
    have hK₀ : ∀ r ∈ t.range :: K, r ∈ (pg.newCatchTable t).ranges := by
      intro r hr
      rw [PandaGen.ranges_newCatchTable]
      rcases List.mem_cons.mp hr with rfl | hr
      · simp
      · exact List.mem_append_left _ (hK r hr)
    have hK₁ : ∀ r ∈ K, r ∈ pg₁.ranges := fun r hr => h₁.ranges_subset (hK₀ r (.tail _ hr))
    have hblock : Tables K (mark (t.range :: K) tb b :: (new₁ ++ [mark K te e])) pg
        (pg₁.label K te e) :=
      .protect ht hK hids₁ (ih₁ hK₀ (List.pairwise_cons.mpr ⟨hd, hdepth⟩) hids₁)
    have hhandler : Tables K (new₂ ++ [mark K tc t.catchBeginLabel]) (pg₁.label K te e)
        (pg₂.label K tc t.catchBeginLabel) :=
      .append hK₁ (h₂.ranges_mem hK₁) hids (ih₂ hK₁ hdepth hids) (.single rfl fun _ _ => Iff.rfl)
    have hall := Tables.append hK (fun p hp r hr => ?_) hids hblock hhandler
    · simpa using hall
    simp only [List.mem_cons, List.mem_append, List.not_mem_nil, or_false] at hp
    rcases hp with rfl | hp | rfl
    · exact h₁.ranges_subset (hK₀ r hr)
    · exact h₁.ranges_mem hK₀ p hp r hr
    · exact hK₁ r hr
  | @copy pre r K L x y tx ty pg pg' new hx _ h _ _ ih =>
    have hleft : pre ++ r :: K = (pre ++ [r]) ++ K := by simp
    rw [hleft] at hK hdepth hids ⊢
    rw [PandaGen.ranges_splitLabelPairs, PandaGen.ranges_label] at hids
    have hK' : ∀ s ∈ K, s ∈ pg.ranges := fun s hs => hK s (List.mem_append_right _ hs)
    have hbody := ih hK' (List.pairwise_append.mp hdepth).2.1 hids
    have hbegin : Tables K [mark K tx x] pg (pg.label K tx x) := .single rfl fun _ _ => Iff.rfl
    refine Tables.copy hK ?_ hids (hbegin.append hK' ?_ hids hbody)
    · exact hdepth.imp fun hlt heq => absurd (heq ▸ hlt) (Nat.lt_irrefl _)
    · intro p hp s hs
      obtain rfl := List.mem_singleton.mp hp
      exact hK' s hs

end Emits

theorem mem_placedLabels {code : List (Point (Insn E) ℕ Tag)} {id : ℕ} : id ∈ placedLabels code ↔
    ∃ pc l, FlatCode.nodeAt code pc = some (.label l) ∧ l.id = id := by
  constructor
  · intro h
    obtain ⟨p, hp, hid⟩ := List.mem_filterMap.mp h
    obtain ⟨pc, hpc⟩ := List.mem_iff_getElem?.mp hp
    split at hid
    next l hl => exact ⟨pc, l, by simp [FlatCode.nodeAt, hpc, hl], Option.some.inj hid⟩
    next => cases hid
  · rintro ⟨pc, l, hl, rfl⟩
    obtain ⟨p, hp, hnode⟩ := Option.map_eq_some_iff.mp hl
    exact List.mem_filterMap.mpr ⟨p, List.mem_of_getElem? hp, by rw [hnode]⟩

/-- Labels that are numbered apart are placed once. -/
theorem placedOnce_of_nodup {code : List (Point (Insn E) ℕ Tag)} (h : (placedLabels code).Nodup) :
    PlacedOnce code := by
  have hmem {code : List (Point (Insn E) ℕ Tag)} {i : ℕ} {l : Label}
      (hl : FlatCode.nodeAt code i = some (.label l)) : l.id ∈ placedLabels code :=
    mem_placedLabels.mpr ⟨i, l, hl, rfl⟩
  induction code with
  | nil =>
    intro i j l l' hi
    simp [FlatCode.nodeAt] at hi
  | cons p code ih =>
    have happend : placedLabels (p :: code) = placedLabels [p] + placedLabels code :=
      placedLabels_append (c := [p])
    rw [happend] at h
    have hdisj {i : ℕ} {l l' : Label} (hp : p.node = .label l)
        (hi : FlatCode.nodeAt code i = some (.label l')) : l.id ≠ l'.id := by
      intro heq
      have hl : l.id ∈ placedLabels [p] := hmem (i := 0) (by simp [FlatCode.nodeAt, hp])
      exact Multiset.disjoint_left.mp (Multiset.nodup_add.mp h).2.2 hl (heq ▸ hmem hi)
    have ih := ih (Multiset.nodup_add.mp h).2.1
    intro i j l l' hi hj heq
    cases i with
    | zero =>
      cases j with
      | zero => rfl
      | succ j => exact absurd heq (hdisj (by simpa [FlatCode.nodeAt] using hi) hj)
    | succ i =>
      cases j with
      | zero => exact absurd heq.symm (hdisj (by simpa [FlatCode.nodeAt] using hj) hi)
      | succ j => exact congrArg _ (ih i j l l' hi hj heq)

section Cover

variable {s : Stmts E} {pg : PandaGen E}

theorem placedLabels_eq (h : compileFunctionBody s = some pg) :
    placedLabels pg.insns = Multiset.range pg.nextLabel := by
  have heq : placedLabels pg.insns + 0 = 0 + Multiset.range pg.nextLabel :=
    (emits_compileFunctionBody h).account
  rwa [add_zero, zero_add] at heq

theorem nodup_placedLabels (h : compileFunctionBody s = some pg) :
    (placedLabels pg.insns).Nodup :=
  placedLabels_eq h ▸ Multiset.nodup_range _

theorem nodup_ranges (h : compileFunctionBody s = some pg) :
    (pg.ranges.map FlatCode.Range.id).Nodup := by
  obtain ⟨rs, heq, hle⟩ := (emits_compileFunctionBody h).ranges_eq
  obtain rfl : pg.ranges = rs := heq
  exact Multiset.coe_nodup.mp (Multiset.nodup_of_le hle (nodup_placedLabels h))

variable {t : CatchTable} {p : Point (Insn E) ℕ Tag}

theorem complete_of_mem (h : compileFunctionBody s = some pg) (ht : t ∈ pg.catchMap) :
    Complete pg.insns t := by
  obtain ⟨grow, fresh, heq, -, hfresh⟩ :=
    (emits_compileFunctionBody h).tables (by simp) .nil (nodup_ranges h)
  obtain rfl : pg.catchMap = fresh := heq
  exact hfresh t ht

theorem Complete.covers_iff {code : List (Point (Insn E) ℕ Tag)} (h : Complete code t)
    (honce : PlacedOnce code) {pc : ℕ} (hp : code[pc]? = some p) :
    (∃ pair ∈ t.labelPairs, pair.Covers code pc) ↔ t.range ∈ p.ranges := by
  obtain ⟨pre, b, c, e, post, first, last, ps, l, hcode, hb, hin, he, hout, hpairs, hs⟩ := h
  rw [hpairs, hs.covers_iff hb hin he hout hcode honce]
  simp [FlatCode.InAt, InRange, hp]

theorem Complete.inOrder {code : List (Point (Insn E) ℕ Tag)} (h : Complete code t) :
    InOrder code t.labelPairs := by
  obtain ⟨pre, b, c, e, post, first, last, ps, l, hcode, hb, hin, he, -, hpairs, hs⟩ := h
  rw [hpairs]
  exact hs.inOrder hb hin he hcode

theorem sound_of_getElem? (h : compileFunctionBody s = some pg) {pc : ℕ}
    (hp : pg.insns[pc]? = some p) : Sound p :=
  (emits_compileFunctionBody h).sound p (List.mem_of_getElem? hp)

theorem covers_iff_mem_openRanges (h : compileFunctionBody s = some pg) (ht : t ∈ pg.catchMap)
    {pc : ℕ} (hp : pg.insns[pc]? = some p) :
    (∃ pair ∈ t.labelPairs, pair.Covers pg.insns pc) ↔ t.range ∈ openRanges p.tag.nest := by
  rw [(complete_of_mem h ht).covers_iff (placedOnce_of_nodup (nodup_placedLabels h)) hp,
    (sound_of_getElem? h hp).ranges]

theorem eq_of_range_eq (h : compileFunctionBody s = some pg) {t' : CatchTable}
    (ht : t ∈ pg.catchMap) (ht' : t' ∈ pg.catchMap) (heq : t.range = t'.range) : t = t' :=
  List.inj_on_of_nodup_map (nodup_ranges h).of_map ht ht' heq

end Cover

/-- The pairs of a table are in order and disjoint. They cover the try block of the table without
the finalizers compiled in place there whose own try block is not within it. Where several
tables cover a point, they come out in the order in which the try blocks stand within each
other, the inner ones first. -/
theorem catchTables_cover (s : Stmts E) (pg : PandaGen E) (h : compileFunctionBody s = some pg) :
    (∀ t ∈ pg.catchMap, InOrder pg.insns t.labelPairs ∧ ∀ pc p, pg.insns[pc]? = some p →
      ((∃ pair ∈ t.labelPairs, pair.Covers pg.insns pc) ↔
        .tryBlock t.range ∈ p.tag.nest ∧ ∀ r, .finalizer r ∈ inside t.range p.tag.nest →
          .tryBlock r ∈ inside t.range p.tag.nest)) ∧
    (generateCatchTables pg.catchMap).Perm pg.catchMap ∧
    (generateCatchTables pg.catchMap).Pairwise fun t t' => ∀ pc p, pg.insns[pc]? = some p →
      (∃ pair ∈ t.labelPairs, pair.Covers pg.insns pc) →
      (∃ pair ∈ t'.labelPairs, pair.Covers pg.insns pc) →
        .tryBlock t.range ∈ inside t'.range p.tag.nest := by
  have hperm : (generateCatchTables pg.catchMap).Perm pg.catchMap := List.mergeSort_perm _ _
  refine ⟨fun t ht => ⟨(complete_of_mem h ht).inOrder, fun pc p hp => ?_⟩, hperm, ?_⟩
  · rw [covers_iff_mem_openRanges h ht hp, mem_openRanges_iff (sound_of_getElem? h hp).wellNested]
  have hsorted : (generateCatchTables pg.catchMap).Pairwise fun t t' => t'.depth ≤ t.depth := by
    refine (List.pairwise_mergeSort ?_ ?_ _).imp fun hle => of_decide_eq_true hle
    · grind
    · grind
  have hnodup : (generateCatchTables pg.catchMap).Nodup :=
    hperm.nodup_iff.mpr (nodup_ranges h).of_map.of_map
  refine (hsorted.and hnodup).imp_of_mem fun {t t'} ht ht' hle pc p hp hc hc' => ?_
  obtain ⟨hle, hne⟩ := hle
  have hsound := sound_of_getElem? h hp
  have ht := hperm.mem_iff.mp ht
  have ht' := hperm.mem_iff.mp ht'
  have hopen := (covers_iff_mem_openRanges h ht hp).mp hc
  have hopen' := (covers_iff_mem_openRanges h ht' hp).mp hc'
  rw [hsound.wellNested.tryBlock_mem_inside (tryBlock_mem hopen') (tryBlock_mem hopen)]
  -- tables of one depth are not open at once
  have hdepths : ((openRanges p.tag.nest).map FlatCode.Range.depth).Nodup :=
    List.pairwise_map.mpr (hsound.wellNested.pairwise.imp fun hlt => Nat.ne_of_gt hlt)
  refine Nat.lt_of_le_of_ne hle fun heq => hne (eq_of_range_eq h ht ht' ?_)
  exact List.inj_on_of_nodup_map hdepths hopen hopen' heq.symm

/-- `a: { try { try { break a; } finally { 0; } } finally { 1; } }`. -/
def breakOutOfTwo : Stmts ℕ :=
  .cons (.labeled "a" (.block [] (.cons
    (.tryFinally
      (.tryFinally (.break (some "a")) (.expression 0))
      (.expression 1)) .nil))) .nil

/-- Its code. -/
def breakOutOfTwoCode : PandaGen ℕ := (compileFunctionBody breakOutOfTwo).getD PandaGen.empty

theorem compile_breakOutOfTwo : compileFunctionBody breakOutOfTwo = some breakOutOfTwoCode := by
  have hsome : (compileFunctionBody breakOutOfTwo).isSome := by decide +kernel
  obtain ⟨pg, hpg⟩ := Option.isSome_iff_exists.mp hsome
  simp [breakOutOfTwoCode, hpg]

theorem catchTables_cover_breakOutOfTwo :
    breakOutOfTwoCode.catchMap.length = 2 ∧
      ∀ t ∈ breakOutOfTwoCode.catchMap, InOrder breakOutOfTwoCode.insns t.labelPairs := by
  refine ⟨by decide +kernel, fun t ht => ?_⟩
  exact ((catchTables_cover breakOutOfTwo breakOutOfTwoCode compile_breakOutOfTwo).1 t ht).1

/-- Each label that is allocated stands at one position, no other label stands anywhere, and each
table has one of them for its handler. -/
theorem labels_placed (s : Stmts E) (pg : PandaGen E) (h : compileFunctionBody s = some pg) :
    (∀ id, id < pg.nextLabel ↔
      ∃! pc, ∃ l, FlatCode.nodeAt pg.insns pc = some (.label l) ∧ l.id = id) ∧
      ∀ t ∈ pg.catchMap, t.catchBeginLabel.id < pg.nextLabel := by
  have hplaced (id : ℕ) : id ∈ placedLabels pg.insns ↔ id < pg.nextLabel := by
    rw [placedLabels_eq h, Multiset.mem_range]
  refine ⟨fun id => ?_, fun t ht => ?_⟩
  · rw [← hplaced, mem_placedLabels]
    constructor
    · rintro ⟨pc, l, hl, hid⟩
      refine ⟨pc, ⟨l, hl, hid⟩, ?_⟩
      rintro pc' ⟨l', hl', hid'⟩
      exact placedOnce_of_nodup (nodup_placedLabels h) _ _ _ _ hl' hl (hid'.trans hid.symm)
    · exact fun hone => hone.exists
  · obtain ⟨rs, heq, hle⟩ := (emits_compileFunctionBody h).ranges_eq
    obtain rfl : pg.ranges = rs := heq
    exact (hplaced _).mp (Multiset.mem_of_le hle (by simpa [PandaGen.ranges] using ⟨t, ht, rfl⟩))

theorem labels_placed_breakOutOfTwo : ∀ id < breakOutOfTwoCode.nextLabel,
    ∃! pc, ∃ l, FlatCode.nodeAt breakOutOfTwoCode.insns pc = some (.label l) ∧ l.id = id :=
  fun id => ((labels_placed breakOutOfTwo breakOutOfTwoCode compile_breakOutOfTwo).1 id).mp

/-- The `break` leaves both try statements. The table of the outer one still covers the copy of the
inner finalizer, which stands in the outer try block. -/
theorem not_catchTables_without_copies :
    ¬ ∀ (s : Stmts ℕ) (pg : PandaGen ℕ), compileFunctionBody s = some pg → ∀ t ∈ pg.catchMap,
      ∀ pc p, pg.insns[pc]? = some p → ((∃ pair ∈ t.labelPairs, pair.Covers pg.insns pc) ↔
        .tryBlock t.range ∈ p.tag.nest ∧ ∀ r, .finalizer r ∉ inside t.range p.tag.nest) := by
  intro h
  have hcopy : ∃ t ∈ breakOutOfTwoCode.catchMap, ∃ p ∈ breakOutOfTwoCode.insns,
      breakOutOfTwoCode.insns[3]? = some p ∧
      (∃ pair ∈ t.labelPairs,
        FlatCode.nodeAt breakOutOfTwoCode.insns 0 = some (.label pair.beginLabel) ∧
        FlatCode.nodeAt breakOutOfTwoCode.insns 5 = some (.label pair.endLabel)) ∧
      ∃ r ∈ breakOutOfTwoCode.catchMap, .finalizer r.range ∈ inside t.range p.tag.nest := by
    unfold FlatCode.nodeAt
    decide +kernel
  obtain ⟨t, ht, p, -, hp, ⟨pair, hpair, hbegin, hend⟩, r, -, hr⟩ := hcopy
  have hiff := h breakOutOfTwo breakOutOfTwoCode compile_breakOutOfTwo t ht 3 p hp
  exact (hiff.mp ⟨pair, hpair, 0, 5, hbegin, hend, by decide, by decide⟩).2 r.range hr

end ArkTs2abc.Ts2panda.Compiler
