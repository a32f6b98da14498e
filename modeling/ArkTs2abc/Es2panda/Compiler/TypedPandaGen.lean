import ArkTs2abc.Es2panda.Compiler.Typing
import Mathlib.Algebra.Ring.Nat

/-!
# What the generator's own methods emit is well formed

One lemma for each definition of the generator, from variables to `yield*`. The
walk over the contexts is the centre: whatever contexts it passes, the state it
ends with differs in its note only, and a return under way has taken note of
exactly the contexts that were released.

## Main definitions

* `PandaGen.WellFormed`, `PandaGen.Scoped` — what the state keeps.
* `InlineOk` — the compiler of finalizers does its part.

## Main results

* `emits_controlFlowChange` — the walk.
* `emits_await`, `emits_closeIterator`, `emits_yield`, `emits_yieldStar`.
-/

namespace ArkTs2abc.Es2panda

open FlatCode Emit

/-- The finalizers that a context still has to emit, by the size of what they emit in turn. -/
def DynamicContext.weight : DynamicContext → ℕ
  | .try t => (t.pendingFinalizer.map fun block => block.weight + 1).getD 0
  | _ => 0

/-- A context knows no more results held back than `base`, and its finalizer is in place. -/
structure DynamicContext.Ok (base : List (ℕ × List ℕ)) (N : ℕ) (c : DynamicContext) : Prop where
  target_kept {cfc l} : c.target.target cfc = some l → l.note.kept ⊆ base
  outer_env {t} : c = .try t → t.outer.env = Scope.envs t.scope
  outer_fin {t} : c = .try t → ∀ x ∈ t.outer.fin, x < N

namespace PandaGen

def need (pg : PandaGen) : ℕ := (pg.dynamicContext.map DynamicContext.weight).sum

/-- What the compiling functions keep of the state; contexts and ranges know of the results in
`base`, and numbers from `N` on are fresh. -/
structure WellFormed (pg : PandaGen) (base : List (ℕ × List ℕ)) (N : ℕ) : Prop where
  base_kept : base ⊆ pg.note.kept
  fin_lt : ∀ x ∈ pg.note.fin, x < N
  kept_lt : ∀ x ∈ pg.note.kept, x.1 < N
  handler : pg.tag.unwinding ∨ ∀ r ∈ pg.ranges.head?, pg.note.Agrees r.handler.note
  ranges_kept : ∀ r ∈ pg.ranges, r.handler.note.kept ⊆ base
  ranges_depth : ∀ r ∈ pg.ranges, r.depth ≤ pg.tryDepth
  contexts : ∀ c ∈ pg.dynamicContext, c.Ok base N

/-- The scope is the one that the note accounts for. -/
def Scoped (pg : PandaGen) : Prop := pg.tag.foreignScope ∨ Scope.envs pg.scope = pg.note.env

end PandaGen

theorem DynamicContext.Ok.mono {base base' : List (ℕ × List ℕ)} {N N' : ℕ} {c : DynamicContext}
    (h : c.Ok base N) (hbase : base ⊆ base') (hN : N ≤ N') : c.Ok base' N' where
  target_kept hl := List.Subset.trans (h.target_kept hl) hbase
  outer_env := h.outer_env
  outer_fin ht x hx := Nat.lt_of_lt_of_le (h.outer_fin ht x hx) hN

theorem DynamicContext.ok_try {base : List (ℕ × List ℕ)} {N : ℕ} {t : TryContext}
    (houter : t.outer.env = Scope.envs t.scope) (hfin : ∀ x ∈ t.outer.fin, x < N) :
    (DynamicContext.try t).Ok base N where
  target_kept {cfc l} hl := by cases cfc <;> cases hl
  outer_env {t'} ht := by cases ht; exact houter
  outer_fin {t'} ht := by cases ht; exact hfin

theorem DynamicContext.Ok.enterFinalizer {base : List (ℕ × List ℕ)} {N : ℕ} {c : DynamicContext}
    (h : c.Ok base N) (id : ℕ) : (c.enterFinalizer id).Ok base N := by
  cases c with
  | «try» t =>
    by_cases ht : t.id = id
    · subst ht
      simp only [DynamicContext.enterFinalizer, if_true]
      exact DynamicContext.ok_try (t := { t with inFinalizer := true }) (h.outer_env (t := t) rfl)
        (h.outer_fin (t := t) rfl)
    · simpa only [DynamicContext.enterFinalizer, ht, if_false] using h
  | _ => exact h

namespace PandaGen

variable {pg pg' : PandaGen} {base : List (ℕ × List ℕ)} {N : ℕ}

namespace WellFormed

section

variable (h : pg.WellFormed base N)
include h

theorem mono {N' : ℕ} (hN : N ≤ N') : pg.WellFormed base N' where
  base_kept := h.base_kept
  fin_lt x hx := Nat.lt_of_lt_of_le (h.fin_lt x hx) hN
  kept_lt x hx := Nat.lt_of_lt_of_le (h.kept_lt x hx) hN
  handler := h.handler
  ranges_kept := h.ranges_kept
  ranges_depth := h.ranges_depth
  contexts c hc := (h.contexts c hc).mono (List.Subset.refl _) hN

theorem rebase : pg.WellFormed pg.note.kept N where
  base_kept := List.Subset.refl _
  fin_lt := h.fin_lt
  kept_lt := h.kept_lt
  handler := h.handler
  ranges_kept r hr := List.Subset.trans (h.ranges_kept r hr) h.base_kept
  ranges_depth := h.ranges_depth
  contexts c hc := (h.contexts c hc).mono h.base_kept (Nat.le_refl _)

theorem congr (hcontext : pg'.dynamicContext = pg.dynamicContext)
    (hnote : pg'.note = pg.note) (hranges : pg'.ranges = pg.ranges)
    (htag : pg'.tag.unwinding = pg.tag.unwinding) : pg'.WellFormed base N := by
  have hdepth : pg'.tryDepth = pg.tryDepth := by rw [tryDepth, hcontext, tryDepth]
  exact ⟨hnote ▸ h.base_kept, hnote ▸ h.fin_lt, hnote ▸ h.kept_lt,
    by rw [htag, hranges, hnote]; exact h.handler, hranges ▸ h.ranges_kept,
    by rw [hranges, hdepth]; exact h.ranges_depth, hcontext ▸ h.contexts⟩

theorem raises : Raises pg.ranges pg.tag pg.note := by
  intro r hr
  refine ⟨List.Subset.trans (h.ranges_kept r (List.mem_of_mem_head? hr)) h.base_kept, ?_⟩
  exact h.handler.imp_right fun h => h r hr

theorem withContext {c : DynamicContext} (hc : c.Ok base N) :
    (pg.withContext c).WellFormed base N where
  base_kept := h.base_kept
  fin_lt := h.fin_lt
  kept_lt := h.kept_lt
  handler := h.handler
  ranges_kept := h.ranges_kept
  ranges_depth r hr := Nat.le_trans (h.ranges_depth r hr) (List.Sublist.countP_le (by simp [PandaGen.withContext]))
  contexts := List.forall_mem_cons.mpr ⟨hc, h.contexts⟩

theorem inRange {table : CatchTable}
    (hagrees : pg.note.Agrees table.handler.note) (hkept : table.handler.note.kept ⊆ base)
    (hdepth : table.depth = pg.tryDepth) : (pg.inRange table).WellFormed base N where
  base_kept := h.base_kept
  fin_lt := h.fin_lt
  kept_lt := h.kept_lt
  handler := .inr (by simpa [PandaGen.inRange] using hagrees)
  ranges_kept := List.forall_mem_cons.mpr ⟨hkept, h.ranges_kept⟩
  ranges_depth := List.forall_mem_cons.mpr ⟨Nat.le_of_eq hdepth, h.ranges_depth⟩
  contexts := h.contexts

theorem startUnwinding : pg.startUnwinding.WellFormed base N where
  base_kept := h.base_kept
  fin_lt := h.fin_lt
  kept_lt := h.kept_lt
  handler := .inl rfl
  ranges_kept := h.ranges_kept
  ranges_depth := h.ranges_depth
  contexts := h.contexts

/-- While contexts are unwound the note may be any that keeps `base`. -/
theorem withNote (hu : pg.tag.unwinding) {note : Note}
    (hbase : base ⊆ note.kept) (hfin : ∀ x ∈ note.fin, x < N) (hkept : ∀ x ∈ note.kept, x.1 < N) :
    { pg with note }.WellFormed base N where
  base_kept := hbase
  fin_lt := hfin
  kept_lt := hkept
  handler := .inl hu
  ranges_kept := h.ranges_kept
  ranges_depth := h.ranges_depth
  contexts := h.contexts

end

end WellFormed

theorem WellFormed.depth_lt (h : pg.WellFormed base N) {c : DynamicContext} (hc : c.hasTryCatch) :
    ∀ r ∈ (pg.withContext c).ranges, r.depth < (pg.withContext c).tryDepth := by
  intro r hr
  have hle := h.ranges_depth r hr
  have heq : (pg.withContext c).tryDepth = pg.tryDepth + 1 := by
    simp [PandaGen.withContext, tryDepth, hc]
  omega

/-! ### What is passed in -/

/-- The compiler of finalizers, for finalizers that are nested less than `k` deep. -/
def InlineOk (k : ℕ) (inl : Inline) : Prop :=
  ∀ (pg : PandaGen) (s : Stmt) (N : ℕ), pg.WellFormed pg.note.kept N →
    Scope.envs pg.scope = pg.note.env →
    pg.need + s.weight < k → Emits pg.ranges pg.note N (inl pg s) fun _ b => b = pg.note

/-- A method that leaves the note as it is. -/
def MethodOk (k : ℕ) (method : PandaGen → Emit Unit) : Prop :=
  ∀ (pg : PandaGen) (N : ℕ), pg.WellFormed pg.note.kept N → pg.need ≤ k →
    Emits pg.ranges pg.note N (method pg) fun _ b => b = pg.note

/-! ### The walk -/

/-- The results held back are those of `base` and, if a return is under way, its own. -/
def Held (base : List (ℕ × List ℕ)) (ids : List ℕ) (held : Option ℕ)
    (kept : List (ℕ × List ℕ)) : Prop :=
  match held with
  | none => kept = base
  | some n => kept = (n, ids) :: base ∧ ∀ x ∈ base, x.1 ≠ n

/-- What the abort of a context releases. -/
def aborted (cfc : ControlFlowChange) (labelName : LabelName) : DynamicContext → List ℕ
  | .iterator id _ target =>
    if cfc = .continue && target.continueLabel = some labelName then [] else [id]
  | c => c.release.toList

/-- What the walk releases. -/
def walked (cfc : ControlFlowChange) (labelName : LabelName) : List DynamicContext → List ℕ
  | [] => []
  | c :: cs => aborted cfc labelName c ++
      if c.target.label cfc = some labelName then [] else walked cfc labelName cs

theorem walked_break (pg : PandaGen) :
    walked .break .break pg.dynamicContext = releasedBy pg.nest := by
  unfold nest
  induction pg.dynamicContext with
  | nil => rfl
  | cons c cs ih =>
    have haborted : aborted .break .break c = c.release.toList := by
      cases c <;> simp [aborted, DynamicContext.release]
    simp only [walked, haborted, ih, List.map_cons, releasedBy, LabelTarget.label,
      decide_eq_true_eq]

theorem Held.base_subset {ids : List ℕ} {held : Option ℕ} {kept : List (ℕ × List ℕ)}
    (h : Held base ids held kept) : base ⊆ kept := by
  cases held with
  | none => exact h ▸ List.Subset.refl _
  | some n => exact h.1 ▸ List.subset_cons_self _ _

theorem Held.lt {ids ids' : List ℕ} {held : Option ℕ} {kept kept' : List (ℕ × List ℕ)}
    (h : Held base ids held kept) (h' : Held base ids' held kept') (hlt : ∀ x ∈ kept, x.1 < N) :
    ∀ x ∈ kept', x.1 < N := by
  cases held with
  | none =>
    obtain rfl : kept = base := h
    obtain rfl : kept' = kept := h'
    exact hlt
  | some n =>
    obtain ⟨rfl, -⟩ := h
    obtain ⟨rfl, -⟩ := h'
    exact List.forall_mem_cons.mpr (List.forall_mem_cons.mp hlt)

section Walk

variable {k : ℕ} {held : Option ℕ} {ids : List ℕ}

theorem emits_released (hheld : Held base ids held pg.note.kept) (id : ℕ) :
    Emits pg.ranges pg.note N (pg.released held id) fun pg' b => b = pg'.note ∧
      ∃ kept, pg' = pg.withNote { pg.note with kept } ∧ Held base (ids ++ [id]) held kept := by
  cases held with
  | none => exact .pure ⟨rfl, pg.note.kept, rfl, hheld⟩
  | some n =>
    obtain ⟨hkept, hne⟩ := hheld
    unfold released
    rw [hkept]
    refine (emits_emit ?_).seq (.pure ⟨rfl, (n, ids ++ [id]) :: base, rfl, rfl, hne⟩)
    exact ⟨ids, base, hkept, hne, rfl⟩

variable {t : TryContext}

theorem need_enterFinalizer {block : Stmt} (hblock : t.pendingFinalizer = some block) :
    ∀ {cs : List DynamicContext}, .try t ∈ cs →
      ((cs.map (DynamicContext.enterFinalizer t.id)).map DynamicContext.weight).sum + block.weight <
        (cs.map DynamicContext.weight).sum := by
  have hle (c : DynamicContext) : (c.enterFinalizer t.id).weight ≤ c.weight := by
    cases c with
    | «try» t' =>
      simp only [DynamicContext.enterFinalizer]
      split
      · simp [DynamicContext.weight, TryContext.pendingFinalizer]
      · exact Nat.le_refl _
    | _ => exact Nat.le_refl _
  have hsum (cs : List DynamicContext) :
      ((cs.map (DynamicContext.enterFinalizer t.id)).map DynamicContext.weight).sum ≤
        (cs.map DynamicContext.weight).sum := by
    induction cs with
    | nil => exact Nat.le_refl _
    | cons c cs ih => exact Nat.add_le_add (hle c) ih
  intro cs hcs
  induction cs with
  | nil => cases hcs
  | cons c cs ih =>
    simp only [List.map_cons, List.sum_cons]
    rcases List.mem_cons.mp hcs with rfl | hcs
    · have hzero : ((DynamicContext.try t).enterFinalizer t.id).weight = 0 := by
        simp [DynamicContext.enterFinalizer, DynamicContext.weight, TryContext.pendingFinalizer]
      have hone : (DynamicContext.try t).weight = block.weight + 1 := by
        simp [DynamicContext.weight, hblock]
      have := hsum cs
      omega
    · have := ih hcs
      have := hle c
      omega

theorem WellFormed.inFinalizer (h : pg.WellFormed base N) (ht : .try t ∈ pg.dynamicContext)
    (hhandler : pg.tag.unwinding ∨ ∀ r ∈ pg.ranges.head?, t.outer.Agrees r.handler.note) :
    (pg.inFinalizer t).WellFormed base N where
  base_kept := h.base_kept
  fin_lt := (h.contexts _ ht).outer_fin rfl
  kept_lt := h.kept_lt
  handler := hhandler
  ranges_kept := h.ranges_kept
  ranges_depth r hr := by
    have heq : (pg.inFinalizer t).tryDepth = pg.tryDepth := by
      unfold tryDepth PandaGen.inFinalizer
      rw [List.countP_map]
      refine List.countP_congr fun c _ => ?_
      cases c <;> simp [DynamicContext.enterFinalizer, DynamicContext.hasTryCatch]
    exact heq ▸ h.ranges_depth r hr
  contexts c hc := by
    obtain ⟨c', hc', rfl⟩ := List.mem_map.mp hc
    exact (h.contexts c' hc').enterFinalizer t.id

theorem WellFormed.scoped_inFinalizer (h : pg.WellFormed base N) (ht : .try t ∈ pg.dynamicContext) :
    Scope.envs (pg.inFinalizer t).scope = (pg.inFinalizer t).note.env :=
  ((h.contexts _ ht).outer_env rfl).symm

theorem emits_emitFinalizer {inl : Inline} (hinl : InlineOk k inl) (h : pg.WellFormed base N)
    (hu : pg.tag.unwinding) (hneed : pg.need ≤ k) {block : Stmt}
    (hblock : t.pendingFinalizer = some block) (ht : .try t ∈ pg.dynamicContext) :
    Emits pg.ranges pg.note N (pg.emitFinalizer inl t block) fun _ b =>
      b = { t.outer with kept := pg.note.kept } := by
  have hlt : (pg.inFinalizer t).need + block.weight < pg.need := need_enterFinalizer hblock ht
  refine Emits.seq (emits_emit (b := { t.outer with kept := pg.note.kept }) ⟨rfl, rfl, .inl hu⟩) ?_
  exact hinl _ block N (h.inFinalizer ht (.inl hu)).rebase (h.scoped_inFinalizer ht)
    (Nat.lt_of_lt_of_le hlt hneed)

variable {close : PandaGen → Iterator → Emit Unit} {inl : Inline} {cfc : ControlFlowChange}
  {labelName : LabelName}

section

variable (hclose : ∀ iter, MethodOk k (close · iter)) (hinl : InlineOk k inl)
include hclose hinl

theorem emits_abortContext (h : pg.WellFormed base N) (hu : pg.tag.unwinding) (hneed : pg.need ≤ k)
    (hheld : Held base ids held pg.note.kept) {c : DynamicContext} (hc : c ∈ pg.dynamicContext) :
    Emits pg.ranges pg.note N (abortContext close inl cfc labelName held pg c) fun pg' b =>
      b = pg'.note ∧ ∃ note, pg' = pg.withNote note ∧ (pg.withNote note).WellFormed base N ∧
        Held base (ids ++ aborted cfc labelName c) held note.kept := by
  cases c with
  | label =>
    exact .pure ⟨rfl, pg.note, rfl, h, by simpa [aborted, DynamicContext.release] using hheld⟩
  | lexEnv hasEnv =>
    have hheld' : Held base (ids ++ []) held pg.note.kept := by simpa using hheld
    simp only [abortContext]
    split
    · exact .pure ⟨rfl, pg.note, rfl, h, hheld'⟩
    · refine Emits.seq (emits_emit (b := { pg.note with env := pg.note.env.tail }) ⟨rfl, .inl hu⟩) ?_
      exact .pure ⟨rfl, _, rfl, h.withNote hu h.base_kept h.fin_lt h.kept_lt, hheld'⟩
  | iterator id iter target =>
    simp only [abortContext]
    split <;> rename_i hcond
    · refine .pure ⟨rfl, pg.note, rfl, h, ?_⟩
      simpa only [aborted, hcond, if_true, List.append_nil] using hheld
    · refine (emits_released hheld id).bind ?_
      rintro _ _ ⟨rfl, kept, rfl, hheld'⟩
      have h' : (pg.withNote { pg.note with kept }).WellFormed base N :=
        h.withNote hu hheld'.base_subset h.fin_lt (hheld.lt hheld' h.kept_lt)
      refine (hclose iter _ N h'.rebase hneed).seq (.pure ⟨rfl, _, rfl, h', ?_⟩)
      rw [aborted, if_neg hcond]
      exact hheld'
  | «try» t =>
    simp only [abortContext]
    cases hblock : t.pendingFinalizer with
    | none =>
      exact .pure ⟨rfl, pg.note, rfl, h,
        by simpa [aborted, DynamicContext.release, hblock] using hheld⟩
    | some block =>
      refine (emits_released hheld t.id).bind ?_
      rintro _ _ ⟨rfl, kept, rfl, hheld'⟩
      have h' : (pg.withNote { pg.note with kept }).WellFormed base N :=
        h.withNote hu hheld'.base_subset h.fin_lt (hheld.lt hheld' h.kept_lt)
      refine (emits_emitFinalizer hinl h' hu hneed hblock hc).seq (.pure ⟨rfl, _, rfl, ?_, ?_⟩)
      · exact h.withNote hu hheld'.base_subset ((h.contexts _ hc).outer_fin rfl)
          (hheld.lt hheld' h.kept_lt)
      · rw [aborted, DynamicContext.release, hblock]
        · exact hheld'
        · simp

/-- The walk: only the note changes, and what is released is taken note of. -/
theorem emits_unwind {cs : List DynamicContext} (h : pg.WellFormed base N) (hu : pg.tag.unwinding)
    (hneed : pg.need ≤ k) (hheld : Held base ids held pg.note.kept)
    (hcs : ∀ c ∈ cs, c ∈ pg.dynamicContext) {target : Option Label}
    (htarget : ∀ l ∈ target, l.note.kept ⊆ base) :
    Emits pg.ranges pg.note N (unwind close inl cfc labelName held cs pg target) fun r b =>
      b = r.1.note ∧ ∃ note, r.1 = pg.withNote note ∧ (pg.withNote note).WellFormed base N ∧
        Held base (ids ++ walked cfc labelName cs) held note.kept ∧
        ∀ l ∈ r.2, l.note.kept ⊆ base := by
  induction cs generalizing pg ids target with
  | nil => exact .pure ⟨rfl, pg.note, rfl, h, by simpa [walked] using hheld, htarget⟩
  | cons c cs ih =>
    obtain ⟨hc, hcs⟩ := List.forall_mem_cons.mp hcs
    refine (emits_abortContext hclose hinl h hu hneed hheld hc).bind ?_
    rintro _ _ ⟨rfl, note, rfl, h', hheld'⟩
    have htarget' : ∀ l ∈ (c.target.target cfc).or target, l.note.kept ⊆ base := by
      intro l hl
      rcases Option.or_eq_some_iff.mp hl with hl | ⟨-, hl⟩
      · exact (h.contexts c hc).target_kept hl
      · exact htarget l hl
    split <;> rename_i hlabel
    · exact .pure ⟨rfl, note, rfl, h',
        by simpa only [walked, if_pos hlabel, List.append_nil] using hheld', htarget'⟩
    · refine (ih h' hu hneed hheld' hcs htarget').mono ?_
      rintro _ _ ⟨rfl, note', heq, h'', hheld'', htarget''⟩
      exact ⟨rfl, note', heq, h'',
        by simpa only [walked, if_neg hlabel, List.append_assoc] using hheld'', htarget''⟩

theorem emits_controlFlowChangeWith (h : pg.WellFormed base N) (hneed : pg.need ≤ k)
    (hheld : Held base ids held pg.note.kept) :
    Emits pg.ranges pg.note N (controlFlowChangeWith close inl cfc labelName held pg) fun r b =>
      b = r.1.note ∧ ∃ note, r.1 = pg.startUnwinding.withNote note ∧ r.1.WellFormed base N ∧
        Held base (ids ++ walked cfc labelName pg.dynamicContext) held note.kept ∧
        ∀ l ∈ r.2, l.note.kept ⊆ base := by
  refine (emits_unwind hclose hinl h.startUnwinding rfl hneed hheld (fun _ hc => hc)
    (by simp)).mono ?_
  rintro ⟨_, target⟩ _ ⟨rfl, note, rfl, h'⟩
  exact ⟨rfl, note, rfl, h'⟩

end

end Walk

/-! ### Variables and returns -/

section Straight

theorem straight_storeConst (r : Reg) (c : Constant) : pg.Straight (storeConst r c) := by
  simp [storeConst, Typing]

theorem Scoped.access (hs : pg.Scoped) (level slot : ℕ) :
    pg.tag.foreignScope ∨ (pg.access level slot).assumed = pg.note.env := hs

theorem straight_loadVar (hr : Raises pg.ranges pg.tag pg.note) (hs : pg.Scoped) (name : String)
    (isTdz : Bool) : pg.Straight (pg.loadVar name isTdz) := by
  unfold loadVar
  split
  · simp [Typing, hr]
  · split
    · simp [Typing, hr]
    · simp [Typing, hr]
    · simp [Typing, hr, hs.access]
    · split <;> simp [Typing, hr]

section

variable (h : pg.WellFormed base N) (hs : pg.Scoped)
include h hs

theorem straight_storeAccToLexEnv (level : ℕ)
    (v : Variable) (isTdz isDecl : Bool) :
    Emits pg.ranges pg.note N (pg.storeAccToLexEnv level v isTdz isDecl) fun is b =>
      b = pg.note ∧ pg.Straight is := by
  have hr := h.raises
  unfold storeAccToLexEnv
  split
  · split
    · refine .allocReg fun n => .pure ⟨rfl, ?_⟩
      split <;> simp [Typing, hr, hs.access]
    · exact .pure ⟨rfl, by simp [Typing, hs.access]⟩
  · refine .pure ⟨rfl, ?_⟩
    split
    · simp [Typing]
    · split <;> split <;> simp [Typing, hr]

theorem straight_storeVar (name : String)
    (isTdz isDecl : Bool) :
    Emits pg.ranges pg.note N (pg.storeVar name isTdz isDecl) fun is b =>
      b = pg.note ∧ pg.Straight is := by
  have hr := h.raises
  unfold storeVar
  split
  · exact .pure ⟨rfl, by simp [Typing, hr]⟩
  · split
    · exact .pure ⟨rfl, by simp [Typing, hr]⟩
    · exact .pure ⟨rfl, by simp [Typing, hr]⟩
    · exact straight_storeAccToLexEnv h hs _ _ isTdz isDecl

/-- `StoreVar` and its instructions. -/
theorem emits_storeVar (name : String)
    (isTdz isDecl : Bool) :
    Emits pg.ranges pg.note N (pg.storeVar name isTdz isDecl >>= pg.emits) fun _ b =>
      b = pg.note := by
  refine (straight_storeVar h hs name isTdz isDecl).bind ?_
  rintro is _ ⟨rfl, his⟩
  exact emits_emits his

theorem straight_hoist (s : Scope) :
    pg.Straight (pg.hoist s) := by
  have hr := h.raises
  have hone (v : Variable) (isGlobal : Bool) : pg.Straight (pg.hoistVariable isGlobal v) := by
    unfold hoistVariable
    cases v.hoist <;> cases isGlobal <;> cases v.lexIdx <;> simp [Typing, hr, hs.access]
  intro i hi
  obtain ⟨v, -, hi⟩ := List.mem_flatMap.mp hi
  exact hone v _ i hi

end

theorem WellFormed.withScope (h : pg.WellFormed base N) (s : Scope) :
    (pg.withScope s).WellFormed base N :=
  h.congr rfl rfl rfl rfl

theorem Scoped.withScope (hs : pg.Scoped) (s : LocalScope) : (pg.withScope s.toScope).Scoped := by
  unfold Scoped PandaGen.withScope
  rw [Scope.envs_cons, s.needLexEnv_eq]
  exact hs

theorem emits_localRegScope {α : Type} {Q : α → Note → Prop} {s : Scope} {body : PandaGen → Emit α}
    (h : pg.WellFormed base N) (hs : (pg.withScope s).Scoped)
    (hbody : Emits pg.ranges pg.note N (body (pg.withScope s)) Q) :
    Emits pg.ranges pg.note N (pg.localRegScope s body) Q :=
  Emits.seq (emits_emits (straight_hoist (h.withScope s) hs s)) hbody

section

variable (hr : Raises pg.ranges pg.tag pg.note)
include hr

theorem exists_directReturn :
    ∃ is, pg.directReturn = is ++ [Insn.return] ∧ pg.Straight is := by
  unfold directReturn
  cases pg.builder
  · exact ⟨[], rfl, by simp⟩
  · exact ⟨[.op .generatorComplete, .op .createIterResultObject], rfl, by simp [Typing, hr]⟩
  · exact ⟨[.op .asyncFunctionResolve], rfl, by simp [Typing, hr]⟩
  · exact ⟨[.op .asyncGeneratorResolve], rfl, by simp [Typing, hr]⟩

theorem emits_directReturn (is : List Insn)
    (his : pg.Straight is) (b : Note) :
    Emits pg.ranges pg.note N (pg.emits (is ++ pg.directReturn)) fun _ c => c = b := by
  obtain ⟨js, hjs, hst⟩ := exists_directReturn hr
  rw [hjs, ← List.append_assoc]
  exact emits_emits_concat _ (straight_append.mpr ⟨his, hst⟩) trivial

theorem emits_implicitReturn (hs : pg.Scoped) (b : Note) :
    Emits pg.ranges pg.note N (pg.emits pg.implicitReturn) fun _ c => c = b := by
  unfold implicitReturn
  split
  · split
    · rw [show pg.getThis ++ [Insn.op .throwIfSuperNotCorrectCall, .return] =
        (pg.getThis ++ [.op .throwIfSuperNotCorrectCall]) ++ [.return] by simp]
      refine emits_emits_concat _ (straight_append.mpr ⟨straight_loadVar hr hs _ _, ?_⟩) trivial
      simp [Typing, hr]
    · exact emits_emits_concat [.ldConst .undefined] (by simp [Typing]) trivial
  · exact emits_directReturn hr [.ldConst .undefined] (by simp [Typing]) b

theorem emits_validateClassDirectReturn (hs : pg.Scoped) :
    Emits pg.ranges pg.note N pg.validateClassDirectReturn fun _ b => b = pg.note := by
  unfold validateClassDirectReturn
  split
  · refine .allocReg fun value => emits_step rfl ?_
    refine .allocLabel fun notUndefined hn => .allocLabel fun condEnd hc => ?_
    refine emits_step rfl <| emits_step ⟨rfl, jumps_of_eq hn⟩ <| emits_steps ?_ ?_
    · exact straight_append.mpr ⟨straight_loadVar hr hs _ _, by simp [Typing, hr]⟩
    · exact emits_branch hc <| emits_label hn <| emits_step rfl <| emits_lastLabel hc
  · exact .pure rfl

end

end Straight

/-! ### Generators and iterators -/

section Builders

variable {k : ℕ}

/-- A walk leaves a state from which the function can be left. -/
def WalkOk (k : ℕ) (walk : PandaGen → Emit PandaGen) : Prop :=
  ∀ (pg : PandaGen) (N : ℕ), pg.WellFormed pg.note.kept N → pg.need ≤ k →
    Emits pg.ranges pg.note N (walk pg) fun pg' b =>
      b = pg'.note ∧ pg'.ranges = pg.ranges ∧ pg'.WellFormed pg.note.kept N

theorem emits_branchIfNotMode (h : pg.WellFormed base N) (mode : Constant) {l : Label}
    (hl : l.note = pg.note) :
    Emits pg.ranges pg.note N (pg.branchIfNotMode mode l) fun _ b => b = pg.note := by
  have hr := h.raises
  refine emits_steps (by simp [Typing, hr]) ?_
  exact emits_emit ⟨rfl, jumps_of_eq hl⟩

theorem emits_handleCompletion {walk : Option (PandaGen → Emit PandaGen)}
    (hwalk : ∀ w ∈ walk, WalkOk k w) (h : pg.WellFormed pg.note.kept N) (hneed : pg.need ≤ k)
    (completionValue : Reg) :
    Emits pg.ranges pg.note N (pg.handleCompletion walk completionValue) fun _ b =>
      b = pg.note := by
  have hr := h.raises
  refine .allocLabel fun notRet hnr => (emits_branchIfNotMode h _ hnr).seq ?_
  have hwalked : Emits pg.ranges pg.note N (walkIf walk pg) fun pg' b =>
      b = pg'.note ∧ pg'.ranges = pg.ranges ∧ pg'.WellFormed pg.note.kept N := by
    cases walk with
    | none => exact .pure ⟨rfl, rfl, h⟩
    | some walk => exact hwalk walk rfl pg N h hneed
  refine hwalked.bind ?_
  rintro pg' _ ⟨rfl, hranges, h'⟩
  rw [← hranges]
  refine Emits.seq (emits_directReturn h'.raises [.lda completionValue] (by simp [Typing])
    pg.note) ?_
  rw [hranges]
  refine emits_label hnr <| .allocLabel fun notThrow hnt => (emits_branchIfNotMode h _ hnt).seq ?_
  refine emits_leaves (a := pg.note) [.lda completionValue] .throw (by simp [Typing]) hr ?_
  exact emits_label hnt <| emits_emit rfl

theorem emits_awaitWith {walk : Option (PandaGen → Emit PandaGen)}
    (hwalk : ∀ w ∈ walk, WalkOk k w) : MethodOk k (awaitWith walk) := by
  intro pg N h hneed
  have hr := h.raises
  refine .allocReg fun _ => .allocReg fun value => emits_steps ?_ ?_
  · simp [suspendResumeExecution, resumeGenerator, Typing, hr]
  · exact emits_handleCompletion hwalk h hneed _

theorem emits_newIterator (h : pg.WellFormed base N) (type : IteratorType) :
    Emits pg.ranges pg.note N (pg.newIterator type) fun _ b => b = pg.note := by
  have hr := h.raises
  refine .allocReg fun _ => .allocReg fun _ => .allocReg fun _ => emits_steps ?_ (.pure rfl)
  simp [Typing, hr]

theorem emits_iteratorNext {await : PandaGen → Emit Unit} (hawait : MethodOk k await)
    (h : pg.WellFormed pg.note.kept N) (hneed : pg.need ≤ k) (iter : Iterator) :
    Emits pg.ranges pg.note N (iteratorNext await pg iter) fun _ b => b = pg.note := by
  have hr := h.raises
  refine emits_step (by simp [Typing, hr]) ?_
  have hlast : Emits pg.ranges pg.note N (pg.emits [.op .throwIfNotObject, .sta iter.nextResult])
      fun _ b => b = pg.note := emits_emits (by simp [Typing, hr])
  split
  · exact (hawait pg N h hneed).seq hlast
  · exact hlast

theorem emits_plainTry {α : Type} {f : PandaGen → Emit α} {R : α → Note → Prop}
    (h : ∀ id, Emits pg.ranges pg.note N (f (pg.withContext (.try { id }))) R) :
    Emits pg.ranges pg.note N (pg.plainTry >>= f) R := by
  refine Emits.bind (Q := fun ctx b => b = pg.note ∧ ∃ id, ctx = pg.withContext (.try { id }))
    (.fresh fun id _ => .pure ⟨rfl, id, rfl⟩) ?_
  rintro _ _ ⟨rfl, id, rfl⟩
  exact h id

theorem emits_tryRange {t : TryContext} (ht : t.pendingFinalizer = none)
    (houter : t.outer.env = Scope.envs t.scope) (hfin : ∀ x ∈ t.outer.fin, x < N)
    (h : pg.WellFormed pg.note.kept N) (hneed : pg.need ≤ k) {body : PandaGen → Emit Unit}
    (hbody : ∀ table, ∀ inner : PandaGen,
      inner = (pg.withContext (.try t)).inRange table → inner.WellFormed inner.note.kept N →
      inner.need ≤ k → Emits inner.ranges inner.note N (body inner) fun _ b => b = inner.note) :
    Emits pg.ranges pg.note N ((pg.withContext (.try t)).protect pg.note pg.note body) fun r b =>
      r.1.handler.note = pg.note ∧ b = pg.note := by
  have hok : (DynamicContext.try t).Ok pg.note.kept N := DynamicContext.ok_try houter hfin
  refine (emits_protect (Q := fun _ => True) (h.depth_lt rfl) fun table hnote hdepth => ?_).mono
    fun _ _ hr => ⟨hr.1, hr.2.2⟩
  refine (hbody table _ rfl ?_ ?_).mono fun _ _ hb => ⟨trivial, hb⟩
  · exact (h.withContext hok).inRange (hnote ▸ Note.agrees_refl _) (hnote ▸ List.Subset.refl _) hdepth
  · have hzero : (DynamicContext.try t).weight = 0 := by simp [DynamicContext.weight, ht]
    have heq : ((pg.withContext (.try t)).inRange table).need = pg.need := by
      simp [need, PandaGen.inRange, PandaGen.withContext, hzero]
    omega

theorem straight_getMethod (h : pg.WellFormed base N) (iter : Iterator) :
    pg.Straight (getMethod iter) := by
  simp [getMethod, Typing, h.raises]

theorem emits_closeWith {await : PandaGen → Emit Unit} (hawait : MethodOk k await)
    (abruptCompletion : Bool) (iter : Iterator) :
    MethodOk k (closeWith await abruptCompletion · iter) := by
  intro pg N h hneed
  have hr := h.raises
  have hclose : Typing pg.ranges pg.tag pg.note (.op .closeIterator) pg.note := ⟨rfl, fun _ => hr⟩
  simp only [closeWith]
  split
  · split
    · exact emits_step rfl (emits_emit hclose)
    · exact emits_emit hclose
  · refine .allocReg fun completion => .allocReg fun innerResult => .allocReg fun innerResultType => ?_
    refine emits_steps (by simp [storeConst, Typing]) <| emits_plainTry fun id => ?_
    refine .allocLabel fun returnExits hre => .allocLabel fun catchEnd hce => ?_
    refine (emits_tryRange rfl rfl (by simp) h hneed ?_).bind ?_
    · rintro table pg' rfl h' hneed'
      have hr' := h'.raises
      refine emits_steps (straight_getMethod h' iter) <| emits_step rfl <|
        emits_step ⟨rfl, jumps_of_eq hre⟩ <| emits_step rfl ?_
      refine Emits.seq (?_ : Emits _ _ _ _ fun _ b => b = pg.note) ?_
      · split
        · exact emits_emits_concat [] (by simp) hr'
        · exact emits_directReturn h'.raises [] (by simp) _
      refine emits_label hre <| emits_plainTry fun innerId => .allocLabel fun innerCatchEnd hice => ?_
      refine (emits_tryRange rfl rfl (by simp) h' hneed' ?_).bind ?_
      · rintro innerTable pg'' rfl h'' hneed''
        refine emits_step ⟨rfl, fun _ => h''.raises⟩ ?_
        exact (hawait _ N h'' hneed'').seq (emits_emit rfl)
      · rintro ⟨innerTable, _⟩ _ ⟨hinner, rfl⟩
        refine emits_branch hice <| emits_label hinner <| emits_steps (by simp [Typing]) ?_
        exact emits_lastLabel hice
    · rintro ⟨table, _⟩ _ ⟨htable, rfl⟩
      refine emits_branch hce <| emits_label htable <| emits_steps (by simp [Typing]) ?_
      refine emits_label hce ?_
      have hlast : Emits pg.ranges pg.note N (pg.emits [.lda (.temp innerResult), .op .throwIfNotObject])
          fun _ b => b = pg.note := emits_emits (by simp [Typing, hr])
      split
      · exact emits_leaves [.lda (.temp completion)] .throw (by simp [Typing]) hr hlast
      · exact emits_steps (by simp [Typing, hr]) hlast

variable {inl : Inline}

section

variable (hinl : InlineOk k inl)
include hinl

theorem emits_completionWalk :
    WalkOk k (completionWalk inl) := by
  intro pg N h hneed
  have h' : { pg with handleReturn := true }.WellFormed pg.note.kept N := h.congr rfl rfl rfl rfl
  have hclose (iter : Iterator) : MethodOk k (closeWith (awaitWith none) false · iter) :=
    emits_closeWith (emits_awaitWith (by simp)) false iter
  have hheld : Held pg.note.kept [] none pg.note.kept := rfl
  refine (emits_controlFlowChangeWith hclose hinl h' hneed hheld).bind ?_
  rintro ⟨_, target⟩ _ ⟨rfl, note, rfl, h'', -⟩
  exact .pure ⟨rfl, rfl, h''.congr rfl rfl rfl rfl⟩

theorem emits_await : MethodOk k (await inl) := by
  intro pg N h hneed
  refine emits_awaitWith ?_ pg N h hneed
  split
  · simp
  · simpa using emits_completionWalk hinl

theorem emits_closeIterator (abruptCompletion : Bool) (iter : Iterator) :
    MethodOk k (closeIterator inl abruptCompletion · iter) :=
  emits_closeWith (emits_await hinl) abruptCompletion iter

/-- The walk of a `break`, a `continue` or a return. -/
theorem emits_controlFlowChange (h : pg.WellFormed base N)
    (hneed : pg.need ≤ k) (cfc : ControlFlowChange) (label : Option String) {held : Option ℕ}
    {ids : List ℕ} (hheld : Held base ids held pg.note.kept) :
    Emits pg.ranges pg.note N (pg.controlFlowChange inl cfc label held) fun r b =>
      b = r.1.note ∧ ∃ note, r.1 = pg.startUnwinding.withNote note ∧ r.1.WellFormed base N ∧
        Held base (ids ++ walked cfc (match label, cfc with
          | some name, _ => .ident name
          | none, .break => .break
          | none, .continue => .continue) pg.dynamicContext) held note.kept ∧
        ∀ l ∈ r.2, l.note.kept ⊆ base :=
  emits_controlFlowChangeWith (emits_closeIterator hinl false) hinl h hneed hheld

theorem emits_breakAndReturn (h : pg.WellFormed pg.note.kept N)
    (hneed : pg.need ≤ k) (value : Reg) (b : Note) :
    Emits pg.ranges pg.note N (pg.breakAndReturn inl value) fun _ c => c = b := by
  have hheld : Held pg.note.kept [] none pg.note.kept := rfl
  refine (emits_controlFlowChange hinl h hneed .break none hheld).bind ?_
  rintro ⟨_, target⟩ _ ⟨rfl, note, rfl, h', -⟩
  exact emits_directReturn h'.raises [.lda value] (by simp [Typing]) b

theorem emits_yield : MethodOk k (yield inl) := by
  intro pg N h hneed
  have hr := h.raises
  simp only [yield]
  split
  · refine (emits_await hinl pg N h hneed).seq <| .allocReg fun _ => .allocReg fun value => ?_
    refine emits_steps (by simp [asyncYield, resumeGenerator, Typing, hr]) ?_
    refine .allocLabel fun notReturn hnr => .allocLabel fun normal hn => .allocLabel fun notThrow hnt => ?_
    refine (emits_branchIfNotMode h _ hnr).seq <|
      emits_steps (by simp [suspendResumeExecution, resumeGenerator, Typing, hr]) ?_
    refine (emits_branchIfNotMode h _ hn).seq ?_
    refine emits_leaves (a := pg.note) [.lda (.temp value)] .throw (by simp [Typing]) hr ?_
    refine emits_label hn <| (emits_breakAndReturn hinl h hneed _ pg.note).seq ?_
    refine emits_label hnr <| (emits_branchIfNotMode h _ hnt).seq ?_
    refine emits_leaves (a := pg.note) [.lda (.temp value)] .throw (by simp [Typing]) hr ?_
    exact emits_label hnt <| emits_emit rfl
  · refine .allocReg fun _ => .allocReg fun value => ?_
    refine emits_steps (by simp [suspendResumeExecution, resumeGenerator, Typing, hr]) ?_
    refine emits_handleCompletion ?_ h hneed _
    split
    · simp
    · simpa using emits_completionWalk hinl

theorem emits_awaitIf (isAsync : Bool) :
    MethodOk k (awaitIf inl isAsync) := by
  intro pg N h hneed
  unfold awaitIf
  split
  · exact emits_await hinl pg N h hneed
  · exact .pure rfl

section

variable (h : pg.WellFormed pg.note.kept N) (hneed : pg.need ≤ k)
include h hneed

theorem emits_yieldStarReturn (isAsync : Bool) (value : Reg) (b : Note) :
    Emits pg.ranges pg.note N (pg.yieldStarReturn inl isAsync value) fun _ c => c = b := by
  have hheld : Held pg.note.kept [] none pg.note.kept := rfl
  refine (emits_controlFlowChange hinl h hneed .break none hheld).bind ?_
  rintro ⟨_, target⟩ _ ⟨rfl, note, rfl, h', -⟩
  show Emits (pg.startUnwinding.withNote note).ranges _ _ _ _
  refine emits_step rfl ?_
  refine (emits_awaitIf hinl isAsync _ N h'.rebase hneed).seq ?_
  exact emits_directReturn h'.raises [] (by simp) b

theorem emits_yieldStarResume (isAsync : Bool) (type value : Reg) {loopStart returnCompletion : Label}
    (hls : loopStart.note = pg.note) (hrc : returnCompletion.note = pg.note) :
    Emits pg.ranges pg.note N
      (pg.yieldStarResume inl isAsync type value loopStart returnCompletion) fun _ b =>
        b = pg.note := by
  have hr := h.raises
  unfold yieldStarResume
  split
  · refine emits_steps (by simp [iteratorValue, Typing, hr]) <|
      (emits_await hinl pg N h hneed).seq <|
      emits_steps (by simp [asyncYield, resumeGenerator, Typing, hr]) <|
      (emits_branchIfNotMode h _ hls).seq <| emits_steps ?_ <| emits_branchIfNotMode h _ hrc
    simp [suspendResumeExecution, resumeGenerator, Typing, hr]
  · exact emits_emits (by simp [suspendResumeExecution, resumeGenerator, Typing, hr])

theorem emits_yieldStarExit (value : Reg) (b : Note) :
    Emits pg.ranges pg.note N (pg.yieldStarExit inl value) fun _ c => c = b := by
  have hr := h.raises
  refine emits_steps (by simp [iteratorValue, Typing, hr]) ?_
  split
  · exact emits_step rfl <| emits_breakAndReturn hinl h hneed value b
  · exact emits_directReturn h.raises [] (by simp) b

end

theorem emits_yieldStar : MethodOk k (yieldStar inl) := by
  intro pg N h hneed
  have hr := h.raises
  have hconst (r : Reg) (c : Constant) : pg.Straight (storeConst r c) := straight_storeConst r c
  have hjump {l : Label} (hl : l.note = pg.note) :
      Typing pg.ranges pg.tag pg.note (.jfalse l) pg.note := ⟨rfl, jumps_of_eq hl⟩
  refine .allocLabel fun loopStart hls => .allocLabel fun returnCompletion hrc =>
    .allocLabel fun throwCompletion htc => .allocLabel fun callMethod hcm =>
    .allocLabel fun normalOrThrow hnt => .allocLabel fun completed hc => ?_
  refine (emits_newIterator h _).bind ?_
  rintro iter _ rfl
  refine .allocReg fun _ => .allocReg fun _ => .allocReg fun _ => ?_
  -- the value received is passed on to the method that the way it was received asks for
  refine emits_steps (by simp [storeConst, Typing]) <| emits_label hls <|
    emits_steps (hconst _ _) <| emits_steps (by simp [Typing, hr]) <|
    emits_step (hjump htc) <| emits_step rfl <| emits_branch hcm <| emits_label htc ?_
  refine emits_steps (by simp [Typing, hr]) <| emits_step (hjump hrc) <|
    emits_steps (straight_getMethod h iter) <| emits_step rfl <| emits_step (hjump hcm) <|
    (emits_closeIterator hinl false iter pg N h hneed).seq <|
    emits_step ⟨rfl, fun _ => hr⟩ <| emits_label hrc ?_
  refine emits_steps (hconst _ _) <| emits_steps (straight_getMethod h iter) <|
    emits_step rfl <| emits_step (hjump hcm) <|
    (emits_yieldStarReturn hinl h hneed _ _ pg.note).seq <| emits_label hcm ?_
  -- the call, and what it gives
  refine emits_step ⟨rfl, fun _ => hr⟩ <| (emits_awaitIf hinl _ pg N h hneed).seq <|
    emits_steps (by simp [iteratorComplete, Typing, hr]) <|
    emits_step ⟨rfl, jumps_of_eq hc⟩ <| emits_step rfl <|
    (emits_yieldStarResume hinl h hneed _ _ _ hls hrc).seq <| emits_branch hls <|
    emits_label hc ?_
  refine emits_step rfl <| emits_step (hjump hnt) <|
    (emits_yieldStarExit hinl h hneed _ pg.note).seq <| emits_label hnt ?_
  exact emits_emits (by simp [iteratorValue, Typing, hr])

end

end Builders

end PandaGen

end ArkTs2abc.Es2panda
