import ArkTs2abc.Es2panda.Compiler.TypedExpressions

/-!
# What statements and functions emit is well formed

By induction on the tree. A statement leaves the note as it was, whatever contexts
are around it and whatever they emit where the statement exits abruptly; the
finalizers emitted there are compiled by the same function, one level of nesting
further down.

## Main definitions

* `PandaGen.Accepts` — a state that a statement can be compiled in.

## Main results

* `emits_compileStmt` — statements.
* `inlineOk_compileNested` — finalizers that are emitted in place.
* `output_fragment` — the code of a whole function.
-/

namespace ArkTs2abc.Es2panda

open FlatCode Emit

theorem Note.push_tail {a : Note} {s : Scope} (hs : s.needLexEnv) :
    { a.push s with env := (a.push s).env.tail } = a := by
  simp [Note.push, hs]

theorem Note.push_of_not {a : Note} {s : Scope} (hs : ¬ s.needLexEnv) : a.push s = a := by
  simp [Note.push, hs]

theorem Scope.envs_push {s : Scope} {chain : List Scope} {a : Note} (h : Scope.envs chain = a.env) :
    Scope.envs (s :: chain) = (a.push s).env := by
  rw [Scope.envs_cons, Note.push_env, h]

namespace PandaGen

variable {pg : PandaGen} {k w N : ℕ} {inl : Inline}

/-- A state that a statement of the weight `w` can be compiled in. -/
structure Accepts (k w : ℕ) (pg : PandaGen) (N : ℕ) : Prop where
  wf : pg.WellFormed pg.note.kept N
  envs_eq : Scope.envs pg.scope = pg.note.env
  need_le : pg.need + w ≤ k

namespace Accepts

section

variable (h : pg.Accepts k w N)
include h

theorem ready : pg.Ready k N :=
  ⟨h.wf, .inr h.envs_eq, Nat.le_trans (Nat.le_add_right _ _) h.need_le⟩

theorem of_le {w' N' : ℕ} (hw : w' ≤ w) (hN : N ≤ N') :
    pg.Accepts k w' N' :=
  ⟨h.wf.mono hN, h.envs_eq, Nat.le_trans (Nat.add_le_add_left hw _) h.need_le⟩

theorem weaken {w' : ℕ} (hw : w' ≤ w) : pg.Accepts k w' N :=
  h.of_le hw (Nat.le_refl _)

theorem withScope (s : LocalScope) :
    (pg.withScope s.toScope).Accepts k w N where
  wf := h.wf.withScope _
  envs_eq := by
    show Scope.envs (s.toScope :: pg.scope) = pg.note.env
    rw [Scope.envs_cons, s.needLexEnv_eq]
    exact h.envs_eq
  need_le := h.need_le

theorem withLabel {target : LabelTarget}
    (htarget : ∀ cfc l, target.target cfc = some l → l.note.kept ⊆ pg.note.kept) :
    (pg.withContext (.label target)).Accepts k w N where
  wf := h.wf.withContext ⟨htarget _ _, nofun, nofun⟩
  envs_eq := h.envs_eq
  need_le := by
    have := h.need_le
    simpa [need, PandaGen.withContext, DynamicContext.weight] using this

theorem withTry {t : TryContext} (ht : t.pendingFinalizer = none)
    (houter : t.outer.env = Scope.envs t.scope) (hfin : ∀ x ∈ t.outer.fin, x < N) :
    (pg.withContext (.try t)).Accepts k w N where
  wf := h.wf.withContext (DynamicContext.ok_try houter hfin)
  envs_eq := h.envs_eq
  need_le := by
    have := h.need_le
    simpa [need, PandaGen.withContext, DynamicContext.weight, ht] using this

theorem inRange {table : CatchTable} (hnote : table.handler.note = pg.note)
    (hdepth : table.depth = pg.tryDepth) : (pg.inRange table).Accepts k w N where
  wf := h.wf.inRange (hnote ▸ Note.agrees_refl _) (hnote ▸ List.Subset.refl _) hdepth
  envs_eq := h.envs_eq
  need_le := h.need_le

end

end Accepts

variable {base : List (ℕ × List ℕ)} {body : PandaGen → Emit Unit}

theorem target_none (cfc : ControlFlowChange) (l : Label)
    (hl : ({} : LabelTarget).target cfc = some l) : l.note.kept ⊆ base := by
  cases cfc <;> cases hl

theorem target_loop {brk cont : Label} (hb : brk.note.kept ⊆ base) (hc : cont.note.kept ⊆ base)
    (cfc : ControlFlowChange) (l : Label) (hl : (LabelTarget.loop brk cont).target cfc = some l) :
    l.note.kept ⊆ base := by
  cases cfc with
  | «continue» => exact Option.some.inj hl ▸ hc
  | «break» => exact Option.some.inj hl ▸ hb

theorem target_named {target : Option Label} {name : LabelName}
    (h : ∀ l ∈ target, l.note.kept ⊆ base) (cfc : ControlFlowChange) (l : Label)
    (hl : (LabelTarget.named target name).target cfc = some l) : l.note.kept ⊆ base := by
  cases cfc with
  | «continue» => cases hl
  | «break» => exact h l hl

theorem Accepts.inForOf (h : pg.Accepts k w N) {id : ℕ} {iter : Iterator} {brk cont : Label}
    (hb : brk.note.kept ⊆ pg.note.kept) (hc : cont.note.kept ⊆ pg.note.kept) :
    (pg.forOfContext id iter brk cont).Accepts k w N where
  wf := (h.wf.withContext (c := .iterator id iter (.loop brk cont))
    ⟨target_loop hb hc _ _, nofun, nofun⟩).congr rfl rfl rfl rfl
  envs_eq := h.envs_eq
  need_le := by
    have := h.need_le
    simpa [need, forOfContext, PandaGen.withContext, DynamicContext.weight] using this

/-- `LocalRegScope` around statements. -/
theorem keeps_block {s : LocalScope} (h : pg.Accepts k w N)
    (hbody : (pg.withScope s.toScope).Accepts k w N → (pg.withScope s.toScope).Keeps N
      (body (pg.withScope s.toScope))) : pg.Keeps N (pg.localRegScope s.toScope body) :=
  emits_localRegScope h.wf (.inr (h.withScope s).envs_eq) (hbody (h.withScope s))

/-- The state in the environment of a loop's scope. -/
structure Entered (pg : PandaGen) (s : Scope) (N : ℕ) (ctx : PandaGen) : Prop where
  wf : ctx.WellFormed ctx.note.kept N
  scope_eq : ctx.scope = pg.scope
  note_eq : ctx.note = pg.note.push s
  need_eq : ctx.need = pg.need

theorem WellFormed.enter (h : pg.WellFormed pg.note.kept N) {table : CatchTable} {note : Note}
    (hkept : note.kept = pg.note.kept) (hfin : ∀ x ∈ note.fin, x < N)
    (hnote : table.handler.note = note) (hdepth : table.depth = pg.tryDepth) :
    ((pg.inRange table).withNote note).WellFormed pg.note.kept N := by
  have hsub : note.kept ⊆ pg.note.kept := hkept ▸ List.Subset.refl _
  have h' : (pg.startUnwinding.withNote note).WellFormed pg.note.kept N :=
    h.startUnwinding.withNote rfl (hkept ▸ List.Subset.refl _) hfin (hkept ▸ h.kept_lt)
  have h'' : ((pg.startUnwinding.withNote note).inRange table).WellFormed pg.note.kept N :=
    h'.inRange (hnote ▸ Note.agrees_refl _) (hnote ▸ hsub) hdepth
  exact h''.congr rfl rfl rfl rfl

theorem straight_copyBindings (pg : PandaGen) (s : Scope) (flag : Variable → Bool) :
    pg.Straight (pg.copyBindings s flag) := by
  intro i hi
  obtain ⟨v, -, hi⟩ := List.mem_flatMap.mp hi
  cases hslot : v.lexIdx with
  | none => simp [hslot] at hi
  | some slot =>
    simp only [hslot, List.mem_cons, List.not_mem_nil, or_false] at hi
    obtain rfl | rfl := hi
    · exact ⟨rfl, .inr rfl⟩
    · exact ⟨rfl, .inr rfl⟩

theorem keeps_loopEnvScope (h : pg.WellFormed pg.note.kept N) (s : Scope) {target : LabelTarget}
    {flag : Variable → Bool}
    (htarget : ∀ cfc l, target.target cfc = some l → l.note.kept ⊆ pg.note.kept)
    (hbody : ∀ ctx, pg.Entered s N ctx → ctx.Keeps N (body ctx)) :
    pg.Keeps N (pg.loopEnvScope s target flag body) := by
  have hctx : (pg.withContext (.lexEnv s.needLexEnv target)).WellFormed pg.note.kept N :=
    h.withContext ⟨htarget _ _, nofun, nofun⟩
  have hneed : (pg.withContext (.lexEnv s.needLexEnv target)).need = pg.need := by
    simp [need, PandaGen.withContext, DynamicContext.weight]
  unfold loopEnvScope
  split <;> rename_i hs
  · have hne : (pg.note.push s).env ≠ [] := by simp [Note.push, hs]
    refine (emits_protect (Q := fun _ => True)
      (h.depth_lt (c := .lexEnv s.needLexEnv target) hs) ?_).bind ?_
    · intro table hnote hdepth
      have henter := hctx.enter (Note.push_kept _ s) (Note.push_fin pg.note s ▸ h.fin_lt) hnote hdepth
      refine .fresh fun lexEnv hlt => Emits.seq (emits_emit (b := pg.note.push s) ?_) ?_
      · simp [Typing, Note.push, hs, PandaGen.inRange, PandaGen.withContext]
      · let ctx : PandaGen := { (pg.withContext (.lexEnv s.needLexEnv target)).inRange table with
            note := pg.note.push s, envScope := .lexEnv lexEnv }
        have hbody' := hbody ctx ⟨henter.rebase.congr rfl rfl rfl rfl, rfl, rfl, hneed⟩
        show Emits ctx.ranges ctx.note _ _ _
        refine emits_step rfl <| emits_steps (straight_copyBindings _ s flag) <|
          (hbody'.of_le (Nat.le_succ_of_le hlt)).mono fun _ _ hb => ⟨trivial, hb⟩
    · rintro ⟨table, _⟩ _ ⟨htable, -, rfl⟩
      refine .allocLabel fun catchEnd hce => ?_
      show Emits ((pg.withContext (.lexEnv s.needLexEnv target)).withNote (pg.note.push s)).ranges
        ((pg.withContext (.lexEnv s.needLexEnv target)).withNote (pg.note.push s)).note _ _ _
      refine emits_branch hce <| emits_label htable <| Emits.seq (emits_emit (b := pg.note)
        ⟨(Note.push_tail hs).symm, .inr hne⟩) ?_
      show Emits pg.ranges pg.note _ _ _
      refine emits_leave (a := pg.note.push s) h.raises ?_
      exact (emits_lastLabel hce).seq (emits_emit ⟨(Note.push_tail hs).symm, .inr hne⟩)
  · exact hbody _ ⟨hctx, rfl, (Note.push_of_not hs).symm, hneed⟩

theorem Entered.accepts {s : Scope} {ctx : PandaGen} (hctx : pg.Entered s N ctx) {chain : List Scope}
    (hchain : Scope.envs chain = (pg.note.push s).env) (hneed : pg.need + w ≤ k) :
    (ctx.atScope chain).Accepts k w N where
  wf := hctx.wf.congr rfl rfl rfl rfl
  envs_eq := hctx.note_eq ▸ hchain
  need_le := hctx.need_eq ▸ hneed

theorem keeps_loopBody (h : pg.Accepts k w N) {s : Scope} {target : LabelTarget}
    (htarget : ∀ cfc l, target.target cfc = some l → l.note.kept ⊆ pg.note.kept)
    (hbody : ∀ loop : PandaGen, loop.Accepts k w N → loop.Keeps N (body loop)) :
    pg.Keeps N (pg.loopBody s target body) := by
  have hforeign : (pg.withScope s).inForeignScope.WellFormed pg.note.kept N :=
    h.wf.congr rfl rfl rfl rfl
  refine Emits.seq (emits_emits (straight_hoist hforeign (.inl rfl) s)) ?_
  refine keeps_loopEnvScope (h.wf.withScope s) s htarget fun loop hloop => hbody loop ?_
  exact hloop.accepts (hloop.scope_eq ▸ Scope.envs_push h.envs_eq) h.need_le

theorem checkControlFlowChange_false (h : ¬ pg.checkControlFlowChange) : releasedBy pg.nest = [] := by
  unfold checkControlFlowChange at h
  unfold nest
  generalize pg.dynamicContext = cs at h
  induction cs with
  | nil => rfl
  | cons c cs ih =>
    simp only [List.any_cons, Bool.or_eq_true, not_or] at h
    have hrelease : c.release = none := by
      cases c with
      | label => rfl
      | lexEnv => rfl
      | iterator => exact absurd rfl h.1
      | «try» t =>
        have hfin : t.hasFinalizer = false := by simpa [DynamicContext.hasFinalizer] using h.1
        simp [DynamicContext.release, TryContext.pendingFinalizer, hfin]
    simp [releasedBy, hrelease, ih h.2]

section

variable (hinl : InlineOk k inl) (h : pg.Ready k N)
include hinl h

theorem emits_releaseContexts :
    Emits pg.ranges pg.note N (releaseContexts inl pg) fun pg' b => b = pg'.note ∧
      pg'.ranges = pg.ranges ∧ Raises pg'.ranges pg'.tag pg'.note ∧ pg'.Scoped := by
  unfold releaseContexts
  split <;> rename_i hcheck
  · refine .fresh fun res hres => ?_
    have hne : ∀ x ∈ pg.note.kept, x.1 ≠ res := fun x hx =>
      Nat.ne_of_lt (Nat.lt_of_lt_of_le (h.wf.kept_lt x hx) hres)
    let held := pg.withNote { pg.note with kept := (res, []) :: pg.note.kept }
    have hheld : held.WellFormed pg.note.kept (res + 1) := by
      have h' := h.wf.mono (Nat.le_succ_of_le hres)
      refine ⟨List.subset_cons_self _ _, h'.fin_lt, ?_, h'.handler, h'.ranges_kept,
        h'.ranges_depth, h'.contexts⟩
      exact List.forall_mem_cons.mpr ⟨Nat.lt_succ_self res, h'.kept_lt⟩
    refine Emits.seq (emits_emit (b := held.note) ⟨rfl, hne⟩) ?_
    refine (emits_controlFlowChange hinl hheld h.need_le .break none
      (show Held pg.note.kept [] (some res) held.note.kept from ⟨rfl, hne⟩)).bind ?_
    rintro ⟨_, target⟩ _ ⟨rfl, note, rfl, hwf, hkept, -⟩
    have hreleased : note.kept = (res, releasedBy pg.nest) :: pg.note.kept := by
      rw [← walked_break]
      exact hkept.1
    show Emits (held.startUnwinding.withNote note).ranges _ _ _ _
    refine emits_step rfl <| emits_step ⟨rfl, _, hreleased⟩ <| .pure ⟨rfl, rfl, ?_, .inl rfl⟩
    exact hwf.raises
  · refine emits_step ⟨rfl, checkControlFlowChange_false hcheck⟩ <| .pure ⟨rfl, rfl, h.raises, h.inScope⟩

theorem keeps_valueOrUndefined (value : Option Expr) :
    pg.Keeps N (valueOrUndefined inl pg value) := by
  cases value with
  | none => exact emits_emit rfl
  | some e => exact emits_compileExpr hinl e h

theorem emits_compileReturn (argument : Option Expr) :
    pg.Keeps N (compileReturn inl pg argument) := by
  refine (keeps_valueOrUndefined hinl h argument).seq <| (emits_releaseContexts hinl h).bind ?_
  rintro pg' _ ⟨rfl, hranges, hr, hs⟩
  rw [← hranges]
  split
  · exact (emits_validateClassDirectReturn hr hs).seq (emits_directReturn hr [] (by simp) pg.note)
  · exact emits_implicitReturn hr hs pg.note

theorem emits_compileJump (cfc : ControlFlowChange)
    (label : Option String) : pg.Keeps N (compileJump inl pg cfc label) := by
  have hheld : Held pg.note.kept [] none pg.note.kept := rfl
  refine (emits_controlFlowChange hinl h.wf h.need_le cfc label hheld).bind ?_
  rintro ⟨_, target⟩ _ ⟨rfl, note, rfl, hwf, hkept, htarget⟩
  have hjumps : ∀ l ∈ target, Jumps (pg.startUnwinding.withNote note).tag note l := fun l hl =>
    ⟨hkept ▸ htarget l hl, .inl rfl⟩
  have hjmp : Typing pg.ranges (pg.startUnwinding.withNote note).tag note (.jmp target) pg.note := by
    cases target with
    | none => trivial
    | some l => exact hjumps l rfl
  exact emits_emit hjmp

theorem keeps_declareValue (target : Pattern) :
    pg.Keeps N (declareValue inl pg target) := by
  refine (emits_createLRef hinl target h).bind ?_
  rintro lref _ rfl
  exact emits_setValue hinl true target lref h

end

theorem keeps_catchClause (hinl : InlineOk k inl) (h : pg.Accepts k w N) (head : CatchHead)
    (hbody : ∀ inner : PandaGen, inner.Accepts k w N → inner.Keeps N (body inner)) :
    pg.Keeps N (pg.catchClause inl head body) :=
  keeps_block h fun h => (keeps_forSome fun param _ => keeps_declareValue hinl h.ready param).seq <|
    keeps_block h fun h => hbody _ h

section Try

variable {finalizer : Stmt} {ctx : TryContext} {block catchCode finallyCode : PandaGen → Emit Unit}

theorem keeps_compileTryCatch {wb wc : ℕ} (h : pg.Accepts k (wb + wc) N)
    (houter : ctx.outer.env = Scope.envs ctx.scope) (hfin : ∀ x ∈ ctx.outer.fin, x < N)
    (hblock : ∀ (inner : PandaGen) (N : ℕ), inner.Accepts k wb N → inner.Keeps N (block inner))
    (hcatch : ∀ (inner : PandaGen) (N : ℕ), inner.Accepts k wc N → inner.Keeps N (catchCode inner)) :
    pg.Keeps N (pg.compileTryCatch ctx block catchCode) := by
  refine .fresh fun id hid => .allocLabel fun catchEnd hce => ?_
  have h' := h.of_le (Nat.le_refl _) (Nat.le_succ_of_le hid)
  have hfin' : ∀ x ∈ ctx.outer.fin, x < id + 1 := fun x hx =>
    Nat.lt_of_lt_of_le (hfin x hx) (Nat.le_succ_of_le hid)
  refine (emits_tryRange (t := { ctx with id := id, hasFinalizer := false }) rfl houter hfin' h'.wf
    (Nat.le_refl _) ?_).bind ?_
  · rintro table inner rfl hwf hle
    have := h.need_le
    exact hblock _ _ ⟨hwf, h.envs_eq, by omega⟩
  · rintro ⟨table, _⟩ _ ⟨htable, rfl⟩
    have hinner := h'.withTry (t := { ctx with id := id, hasFinalizer := false }) rfl houter hfin'
    exact emits_branch hce <| emits_label htable <|
      (hcatch _ _ (hinner.weaken (Nat.le_add_left _ _))).seq <| emits_lastLabel hce

theorem WellFormed.withFinally (h : pg.Accepts k w N) {id : ℕ} (hid : N ≤ id) :
    (pg.withContext (.try (pg.finallyContext id finalizer))).WellFormed pg.note.kept (id + 1) :=
  (h.wf.mono (Nat.le_succ_of_le hid)).withContext
    (DynamicContext.ok_try h.envs_eq.symm fun x hx =>
      Nat.lt_succ_of_lt (Nat.lt_of_lt_of_le (h.wf.fin_lt x hx) hid))

theorem need_withFinally (pg : PandaGen) (id : ℕ) (finalizer : Stmt) :
    (pg.withContext (.try (pg.finallyContext id finalizer))).need =
      finalizer.weight + 1 + pg.need := by
  simp [need, PandaGen.withContext, DynamicContext.weight, TryContext.pendingFinalizer,
    finallyContext]

theorem Accepts.inFinally (h : pg.Accepts k (w + finalizer.weight + 1) N) {id : ℕ} (hid : N ≤ id) :
    ((pg.withContext (.try (pg.finallyContext id finalizer))).inFinalizer
      (pg.finallyContext id finalizer)).Accepts k finalizer.weight (id + 1) where
  wf := (WellFormed.withFinally h hid).inFinalizer List.mem_cons_self h.wf.handler
  envs_eq := h.envs_eq
  need_le := by
    have hdrop := need_enterFinalizer (t := pg.finallyContext id finalizer) rfl
      (List.mem_cons_self (l := pg.dynamicContext))
    have heq := need_withFinally pg id finalizer
    have hle := h.need_le
    simp only [need, PandaGen.inFinalizer, PandaGen.withContext] at hdrop heq hle ⊢
    omega

theorem emits_compileFinally (h : pg.Accepts k (w + finalizer.weight + 1) N) {id : ℕ} (hid : N ≤ id)
    (hfinally : ∀ (inner : PandaGen) (N : ℕ), inner.Accepts k finalizer.weight N →
      inner.Keeps N (finallyCode inner)) (exception : Reg) :
    Emits pg.ranges (pg.enterTry (pg.finallyContext id finalizer)).note (id + 1)
      ((pg.enterTry (pg.finallyContext id finalizer)).compileFinally
        (pg.finallyContext id finalizer) exception finallyCode) fun _ b => b = pg.note := by
  let inside := (pg.enterTry (pg.finallyContext id finalizer)).note
  refine .allocLabel fun label hl => ?_
  have hbranch : Typing pg.ranges pg.tag inside (.branchIfRun id label) inside := by
    simp [Typing, inside, enterTry, finallyContext, hl]
  have hstart : Typing pg.ranges pg.tag inside (.startFinalizer id pg.note) pg.note :=
    ⟨rfl, rfl, .inr ⟨rfl, rfl⟩⟩
  refine Emits.seq (emits_emit hbranch) <| Emits.seq (emits_emit hstart) ?_
  have haccepts := h.inFinally hid
  refine Emits.seq (emits_emit rfl) <| (hfinally _ _ haccepts).seq <| emits_label hl ?_
  exact emits_emits (by simp [Typing, haccepts.wf.raises])

theorem keeps_compileTry {wb wc : ℕ} (h : pg.Accepts k (wb + wc + finalizer.weight + 1) N)
    (hblock : ∀ (inner : PandaGen) (N : ℕ), inner.Accepts k wb N → inner.Keeps N (block inner))
    (hcatch : ∀ (inner : PandaGen) (N : ℕ), inner.Accepts k wc N → inner.Keeps N (catchCode inner))
    (hfinally : ∀ (inner : PandaGen) (N : ℕ), inner.Accepts k finalizer.weight N →
      inner.Keeps N (finallyCode inner)) :
    pg.Keeps N (pg.compileTry finalizer block catchCode finallyCode) := by
  refine .fresh fun id hid => ?_
  let ctx := pg.finallyContext id finalizer
  let try_ := pg.enterTry ctx
  have hwf : (pg.withContext (.try ctx)).WellFormed pg.note.kept (id + 1) :=
    WellFormed.withFinally h hid
  have hne : id ∉ pg.note.fin := fun hmem =>
    Nat.lt_irrefl id (Nat.lt_of_lt_of_le (h.wf.fin_lt id hmem) hid)
  have hfin : ∀ x ∈ try_.note.fin, x < id + 1 :=
    List.forall_mem_cons.mpr ⟨Nat.lt_succ_self id, hwf.fin_lt⟩
  refine Emits.seq (emits_emit (b := try_.note) ⟨rfl, hne⟩) <| .allocLabel fun catchEnd hce => ?_
  show Emits try_.ranges try_.note _ _ _
  have hdepth : ∀ r ∈ try_.ranges, r.depth < try_.tryDepth := h.wf.depth_lt (c := .try ctx) rfl
  refine (emits_protect (Q := fun _ => True) hdepth ?_).bind ?_
  · intro table hnote hdepth
    have henter : (((pg.withContext (.try ctx)).inRange table).withNote try_.note).WellFormed
        pg.note.kept (id + 1) :=
      hwf.enter rfl hfin hnote hdepth
    have hrange : (try_.inRange table).WellFormed pg.note.kept (id + 1) :=
      henter.congr rfl rfl rfl rfl
    have haccepts : (try_.inRange table).Accepts k (wb + wc) (id + 1) := by
      refine ⟨hrange, h.envs_eq, ?_⟩
      have heq : (try_.inRange table).need = finalizer.weight + 1 + pg.need :=
        need_withFinally pg id finalizer
      have := h.need_le
      omega
    exact (keeps_compileTryCatch haccepts h.envs_eq.symm hwf.fin_lt hblock hcatch).mono
      fun _ _ hb => ⟨trivial, hb⟩
  · rintro ⟨table, _⟩ _ ⟨htable, -, rfl⟩
    exact .allocReg fun exception => emits_steps (straight_storeConst _ _) <| emits_branch hce <|
      emits_label htable <| emits_step rfl <| emits_label hce <|
      emits_compileFinally h hid hfinally _

end Try

/-! ### Declarations, switches, loop heads -/

theorem keeps_compileDeclarator (hinl : InlineOk k inl) (h : pg.Ready k N) (d : Declarator) :
    pg.Keeps N (compileDeclarator inl pg d) := by
  refine (emits_createLRef hinl d.id h).bind ?_
  rintro lref _ rfl
  have hset := emits_setValue hinl true d.id lref h
  have hundefined : pg.Keeps N (pg.emit (.ldConst .undefined)) := emits_emit rfl
  split
  · exact (emits_compileExpr hinl _ h).seq hset
  · split
    · exact .pure rfl
    · exact (keeps_when hundefined).seq hset

theorem keeps_compileDeclarators (hinl : InlineOk k inl) (h : pg.Ready k N) (ds : List Declarator) :
    pg.Keeps N (compileDeclarators inl pg ds) := by
  induction ds with
  | nil => exact .pure rfl
  | cons d ds ih => exact (keeps_compileDeclarator hinl h d).seq ih

theorem emits_allocLabels (pg : PandaGen) (N : ℕ) (note : Note) (n : ℕ) :
    Emits pg.ranges pg.note N (allocLabels note n) fun ls b =>
      b = pg.note ∧ ∀ l ∈ ls, l.note = note := by
  induction n with
  | zero => exact .pure ⟨rfl, by simp⟩
  | succ n ih =>
    refine .allocLabel fun l hl => ih.bind ?_
    rintro ls _ ⟨rfl, hls⟩
    exact .pure ⟨rfl, List.forall_mem_cons.mpr ⟨hl, hls⟩⟩

theorem keeps_jumpIfCase (hinl : InlineOk k inl) (h : pg.Ready k N) {l : Label}
    (hl : l.note = pg.note) (test : Expr) : pg.Keeps N (jumpIfCase inl pg l test) :=
  (emits_compileExpr hinl test h).seq <| emits_step (h.op _) <| emits_emit ⟨rfl, jumps_of_eq hl⟩

theorem keeps_compileTests (hinl : InlineOk k inl) (h : pg.Ready k N) {ls : List Label}
    (hls : ∀ l ∈ ls, l.note = pg.note) (cs : Cases) : pg.Keeps N (compileTests inl pg ls cs) := by
  induction ls generalizing cs with
  | nil => exact .pure rfl
  | cons l ls ih =>
    obtain ⟨hl, hls⟩ := List.forall_mem_cons.mp hls
    cases cs with
    | nil => exact .pure rfl
    | cons test _ cs =>
      exact (keeps_forSome fun e _ => keeps_jumpIfCase hinl h hl e).seq (ih hls cs)

theorem keeps_jumpToDefault {ls : List Label} {last : Label} (hls : ∀ l ∈ ls, l.note = pg.note)
    (hlast : last.note = pg.note) (defaultIndex : ℕ) :
    pg.Keeps N (pg.jumpToDefault defaultIndex ls last) := by
  unfold jumpToDefault
  split
  · exact emits_emit (jumps_of_eq (hls _ (List.mem_of_getElem? ‹_›)))
  · exact emits_emit (jumps_of_eq hlast)

theorem straight_copyPerIterationCtx (pg : PandaGen) (s : Scope) :
    pg.Straight (pg.copyPerIterationCtx s) := by
  unfold copyPerIterationCtx
  split <;> simp [Typing]

/-- The test and the body of a `for` loop. -/
theorem keeps_forBody (hinl : InlineOk k inl) (h : pg.Ready k N) (test : Option Test)
    {breakTarget continueTarget : Label} (hb : breakTarget.note = pg.note)
    (hc : continueTarget.note = pg.note) {body : Emit Unit} (hbody : pg.Keeps N body) (s : Scope) :
    pg.Keeps N (do
      forSome test (condition inl pg breakTarget)
      body
      pg.setLabel continueTarget
      pg.emits (pg.copyPerIterationCtx s)) :=
  (keeps_forSome fun test _ => emits_condition hinl test hb h).seq <| hbody.seq <|
    emits_label hc <| emits_emits (straight_copyPerIterationCtx pg s)

/-- The environment of the declarations is created between a `for-in` loop's start and its body. -/
theorem jumps_forInHead (s : Scope) {l : Label} (hkept : l.note.kept = pg.note.kept)
    (hl : ¬ s.needLexEnv → l.note = pg.note) : Jumps (pg.forInHead s).tag pg.note l := by
  refine ⟨hkept ▸ List.Subset.refl _, ?_⟩
  by_cases hs : s.needLexEnv
  · exact .inl (by simp [forInHead, hs])
  · exact .inr (hl hs ▸ Note.agrees_refl _)

mutual

theorem emits_compileStmt (hinl : InlineOk k inl) : ∀ (s : Stmt) {pg : PandaGen} {N : ℕ},
    pg.Accepts k s.weight N → pg.Keeps N (compileStmt inl pg s)
  | .empty, pg, N, _ => by
    rw [compileStmt]
    exact .pure rfl
  | .expression e, pg, N, h => by
    rw [compileStmt]
    exact emits_compileExpr hinl e h.ready
  | .variableDeclaration declarators, pg, N, h => by
    rw [compileStmt]
    exact keeps_compileDeclarators hinl h.ready declarators
  | .classDeclaration ident definition, pg, N, h => by
    rw [compileStmt]
    exact (emits_compileExpr hinl definition h.ready).seq (keeps_initializeBinding h.ready ident)
  | .block scope body, pg, N, h => by
    rw [compileStmt]
    rw [Stmt.weight] at h
    exact keeps_block h fun h => emits_compileStmts hinl body h
  | .ifThen test consequent, pg, N, h => by
    rw [compileStmt]
    rw [Stmt.weight] at h
    exact .allocLabel fun consequentEnd hl => (emits_condition hinl test hl h.ready).seq <|
      (emits_compileStmt hinl consequent h).seq <| emits_lastLabel hl
  | .ifElse test consequent alternate, pg, N, h => by
    rw [compileStmt]
    rw [Stmt.weight] at h
    exact .allocLabel fun consequentEnd hl => (emits_condition hinl test hl h.ready).seq <|
      (emits_compileStmt hinl consequent (h.weaken (Nat.le_add_right _ _))).seq <|
      .allocLabel fun statementEnd he => emits_branch he <| emits_label hl <|
      (emits_compileStmt hinl alternate (h.weaken (Nat.le_add_left _ _))).seq <| emits_lastLabel he
  | .forUpdate scopes init test update body, pg, N, h => by
    rw [compileStmt]
    rw [Stmt.weight] at h
    refine keeps_block h fun hinit => ?_
    refine (emits_compileStmt hinl init (hinit.weaken (Nat.le_add_right _ _))).seq ?_
    refine keeps_loopEnvScope hinit.wf scopes.decl target_none fun decl hdecl => ?_
    refine .allocLabel fun start hs => .allocLabel fun brk hb => .allocLabel fun cont hc => ?_
    refine keeps_loopEnvScope hdecl.wf scopes.loop (target_loop (by simp [hb]) (by simp [hc])) ?_
    intro loop hloop
    rw [← hloop.note_eq] at hs hb hc
    have henvs : Scope.envs (scopes.loop :: scopes.decl :: pg.scope) =
        (decl.note.push scopes.loop).env :=
      Scope.envs_push (hdecl.note_eq ▸ Scope.envs_push h.envs_eq)
    have hinner : ((loop.atScope (scopes.decl :: pg.scope)).withScope scopes.loop).Accepts k
        body.weight N :=
      hloop.accepts henvs (hdecl.need_eq ▸ (h.weaken (Nat.le_add_left _ _)).need_le)
    have hforeign : loop.inForeignScope.Ready k N :=
      ⟨hloop.wf.congr rfl rfl rfl rfl, .inl rfl, hloop.need_eq ▸ hdecl.need_eq ▸ h.ready.need_le⟩
    have hscope : (loop.atScope (scopes.decl :: pg.scope)).WellFormed loop.note.kept N :=
      hloop.wf.congr rfl rfl rfl rfl
    refine emits_label hs <| Emits.seq (?_ : loop.Keeps N _) ?_
    · refine emits_localRegScope hscope (.inr hinner.envs_eq) ?_
      exact keeps_forBody hinl hinner.ready test hb hc (emits_compileStmt hinl body hinner) scopes.loop
    · have hupdate : loop.Keeps N (forSome update (compileExpr inl loop.inForeignScope)) :=
        keeps_forSome fun update _ => emits_compileExpr hinl update hforeign
      exact hupdate.seq <|
        emits_branch hs <| emits_lastLabel hb
  | .forIn scopes left isDecl right body, pg, N, h => by
    rw [compileStmt]
    rw [Stmt.weight] at h
    refine .allocLabel fun brk hb => .allocLabel fun cont hc => .allocReg fun iter =>
      .allocReg fun propName => (emits_compileExpr hinl right h.ready).seq <| emits_steps ?_ <|
      emits_label hc <| emits_steps ?_ ?_
    · simp [Typing, h.ready.raises]
    · simp [Typing, h.ready.raises]
    have hdone : Typing pg.ranges (pg.forInHead scopes.decl).tag pg.note (.jtrue brk) pg.note :=
      ⟨rfl, jumps_forInHead _ (by simp [hb]) fun hs => by simp [hb, Note.push_of_not hs]⟩
    refine Emits.seq (emits_emit hdone) <| keeps_block h fun hinit => ?_
    refine (emits_createLRef hinl left hinit.ready).bind ?_
    rintro lref _ rfl
    refine emits_step rfl <| (emits_setValue hinl isDecl left lref hinit.ready).seq ?_
    refine keeps_loopEnvScope hinit.wf scopes.decl target_none fun decl hdecl => ?_
    have hdecl' : (decl.atScope (scopes.decl :: pg.scope)).Accepts k body.weight N :=
      hdecl.accepts (Scope.envs_push h.envs_eq) h.need_le
    have hnote : decl.note = pg.note.push scopes.decl := hdecl.note_eq
    have hnext : Jumps (decl.forInHead scopes.decl).tag decl.note cont :=
      jumps_forInHead _ (by simp [hc, hnote]) fun hs => by simp [hc, hnote, Note.push_of_not hs]
    refine Emits.seq (keeps_loopBody hdecl' (target_loop ?_ ?_) fun loop hloop =>
      emits_compileStmt hinl body hloop) ?_
    · simp [hb, hnote, PandaGen.atScope]
    · simp [hc, hnote, PandaGen.atScope]
    exact Emits.seq (emits_emit (b := decl.note) hnext) (emits_lastLabel (hb.trans hnote.symm))
  | .forOf isAwait scopes left isDecl right body, pg, N, h => by
    rw [compileStmt]
    rw [Stmt.weight] at h
    refine keeps_block h fun hinit => (emits_compileExpr hinl right hinit.ready).seq <|
      .allocLabel fun brk hb => .allocLabel fun cont hc => (emits_newIterator hinit.wf _).bind ?_
    rintro iter _ rfl
    refine emits_label hc <|
      (emits_iteratorNext (emits_await hinl) hinit.wf hinit.ready.need_le iter).seq <|
      emits_steps ?_ <| emits_step ⟨rfl, jumps_of_eq hb⟩ <| .allocReg fun value => emits_steps ?_ <|
      (emits_createLRef hinl left hinit.ready).bind ?_
    · simp [iteratorComplete, Typing, hinit.ready.raises]
    · simp [iteratorValue, Typing, hinit.ready.raises]
    rintro lref _ rfl
    refine .fresh fun id hid => .allocLabel fun catchEnd hce => ?_
    let ctx := (pg.withScope scopes.init.toScope).forOfContext id iter brk cont
    have hctx : ctx.Accepts k body.weight (id + 1) :=
      (hinit.of_le (Nat.le_refl _) (Nat.le_succ_of_le hid)).inForOf (by simp [hb, PandaGen.withScope])
        (by simp [hc, PandaGen.withScope])
    have hdepth : ∀ r ∈ ctx.ranges, r.depth < ctx.tryDepth :=
      hinit.wf.depth_lt (c := .iterator id iter (.loop brk cont)) rfl
    show Emits ctx.ranges ctx.note _ _ _
    refine (emits_protect (Q := fun _ => True) hdepth ?_).bind ?_
    · intro table hnote hdepth'
      have hrange : (ctx.inRange table).Accepts k body.weight (id + 1) :=
        hctx.inRange (hnote ▸ rfl) hdepth'
      show Emits (ctx.inRange table).ranges (ctx.inRange table).note _ _ _
      refine emits_step rfl <| (emits_setValue hinl isDecl left lref hrange.ready).seq ?_
      refine (keeps_loopEnvScope hrange.wf scopes.decl target_none fun decl hdecl => ?_).mono
        fun _ _ hb => ⟨trivial, hb⟩
      have hdecl' : (decl.atScope (scopes.decl :: pg.scope)).Accepts k body.weight (id + 1) :=
        hdecl.accepts (Scope.envs_push h.envs_eq) hrange.need_le
      exact keeps_loopBody hdecl' target_none fun loop hloop => emits_compileStmt hinl body hloop
    · rintro ⟨table, _⟩ _ ⟨htable, -, rfl⟩
      exact emits_branch hce <| emits_label htable <|
        (emits_closeIterator hinl true iter ctx _ hctx.wf hctx.ready.need_le).seq <|
        emits_label hce <| emits_branch hc <| emits_lastLabel hb
  | .while scope test body, pg, N, h => by
    rw [compileStmt]
    rw [Stmt.weight] at h
    refine .allocLabel fun brk hb => .allocLabel fun cont hc => emits_label hc <|
      (emits_condition hinl test hb h.ready).seq <| Emits.seq (keeps_block h fun h => ?_) <|
      emits_branch hc <| emits_lastLabel hb
    exact emits_compileStmt hinl body (h.withLabel (target_loop (by simp [hb, PandaGen.withScope]) (by simp [hc, PandaGen.withScope])))
  | .doWhile scope body test, pg, N, h => by
    rw [compileStmt]
    rw [Stmt.weight] at h
    refine .allocLabel fun start hs => .allocLabel fun brk hb => .allocLabel fun cont hc =>
      emits_label hs <| Emits.seq (keeps_block h fun h => ?_) <| emits_label hc <|
      (emits_condition hinl test hb h.ready).seq <| emits_branch hs <| emits_lastLabel hb
    exact emits_compileStmt hinl body (h.withLabel (target_loop (by simp [hb, PandaGen.withScope]) (by simp [hc, PandaGen.withScope])))
  | .switch scope discriminant cases, pg, N, h => by
    rw [compileStmt]
    rw [Stmt.weight] at h
    refine keeps_block h fun h => .allocLabel fun last hl => ?_
    let ctx := (pg.withScope scope.toScope).withContext (.label (.named (some last) .break))
    have hctx : ctx.Accepts k cases.weight N := h.withLabel (target_named (by simp [hl]))
    refine (emits_allocLabels ctx _ _ _).bind ?_
    rintro caseLabels _ ⟨rfl, hls⟩
    have hls' : ∀ l ∈ caseLabels, l.note = ctx.note := hls
    have hl' : last.note = ctx.note := hl
    exact .allocReg fun _ => (emits_compileExpr hinl discriminant hctx.ready).seq <|
      emits_step rfl <| (keeps_compileTests hinl hctx.ready hls' cases).seq <|
      (keeps_jumpToDefault hls' hl' _).seq <|
      (emits_compileCases hinl caseLabels cases hls' hctx).seq <| emits_lastLabel hl'
  | .labelled ident body, pg, N, h => by
    rw [compileStmt]
    rw [Stmt.weight] at h
    split
    · refine .allocLabel fun l hl => Emits.seq (?_ : Emits _ _ _ _ fun _ b => b = pg.note) (emits_lastLabel hl)
      exact emits_compileStmt hinl body (h.withLabel (target_named (by simp [hl])))
    · exact emits_compileStmt hinl body (h.withLabel (target_named (by simp)))
  | .tryCatch block head body, pg, N, h => by
    rw [compileStmt]
    rw [Stmt.weight] at h
    refine .fresh fun id hid => .allocLabel fun catchEnd hce => ?_
    have h' := h.of_le (Nat.le_refl _) (Nat.le_succ_of_le hid)
    let t : TryContext := { id, hasFinalizer := true }
    refine (emits_tryRange (t := t) rfl rfl (by simp [t]) h'.wf (Nat.le_refl _) ?_).bind ?_
    · rintro table inner rfl hwf hle
      have := h.need_le
      exact emits_compileStmt hinl block ⟨hwf, h.envs_eq, by omega⟩
    · rintro ⟨table, _⟩ _ ⟨htable, rfl⟩
      have hctx := (h'.withTry (t := t) rfl rfl (by simp [t])).weaken (Nat.le_add_left _ _)
      exact emits_branch hce <| emits_label htable <|
        (keeps_catchClause hinl hctx head fun _ h => emits_compileStmts hinl body h).seq <|
        emits_lastLabel hce
  | .tryFinally block finalizer, pg, N, h => by
    rw [compileStmt]
    rw [Stmt.weight] at h
    have h' : pg.Accepts k (block.weight + 0 + finalizer.weight + 1) N := h
    refine keeps_compileTry h' (fun _ _ h => emits_compileStmt hinl block h) ?_
      fun _ _ h => emits_compileStmt hinl finalizer h
    intro inner N h
    exact emits_emit h.ready.raises
  | .tryCatchFinally block head body finalizer, pg, N, h => by
    rw [compileStmt]
    rw [Stmt.weight] at h
    refine keeps_compileTry h (fun _ _ h => emits_compileStmt hinl block h) ?_
      fun _ _ h => emits_compileStmt hinl finalizer h
    intro inner N h
    exact keeps_catchClause hinl h head fun _ h => emits_compileStmts hinl body h
  | .break label, pg, N, h => by
    rw [compileStmt]
    exact emits_compileJump hinl h.ready .break label
  | .continue label, pg, N, h => by
    rw [compileStmt]
    exact emits_compileJump hinl h.ready .continue label
  | .return argument, pg, N, h => by
    rw [compileStmt]
    exact emits_compileReturn hinl h.ready argument
  | .throw argument, pg, N, h => by
    rw [compileStmt]
    exact (emits_compileExpr hinl argument h.ready).seq (emits_emit h.ready.raises)

theorem emits_compileStmts (hinl : InlineOk k inl) : ∀ (ss : Stmts) {pg : PandaGen} {N : ℕ},
    pg.Accepts k ss.weight N → pg.Keeps N (compileStmts inl pg ss)
  | .nil, pg, N, _ => by
    rw [compileStmts]
    exact .pure rfl
  | .cons s ss, pg, N, h => by
    rw [compileStmts]
    rw [Stmts.weight] at h
    exact (emits_compileStmt hinl s (h.weaken (Nat.le_add_right _ _))).seq
      (emits_compileStmts hinl ss (h.weaken (Nat.le_add_left _ _)))

theorem emits_compileCases (hinl : InlineOk k inl) : ∀ (ls : List Label) (cs : Cases)
    {pg : PandaGen} {N : ℕ}, (∀ l ∈ ls, l.note = pg.note) → pg.Accepts k cs.weight N →
      pg.Keeps N (compileCases inl pg ls cs)
  | [], cs, pg, N, _, _ => by
    rw [compileCases]
    · exact .pure rfl
    · simp
  | l :: ls, .nil, pg, N, _, _ => by
    rw [compileCases]
    · exact .pure rfl
    · simp
  | l :: ls, .cons test consequent cs, pg, N, hls, h => by
    rw [compileCases]
    rw [Cases.weight] at h
    obtain ⟨hl, hls⟩ := List.forall_mem_cons.mp hls
    exact emits_label hl <|
      (emits_compileStmts hinl consequent (h.weaken (Nat.le_add_right _ _))).seq <|
      emits_compileCases hinl ls cs hls (h.weaken (Nat.le_add_left _ _))

end

theorem inlineOk_compileNested (k : ℕ) : InlineOk k (compileNested k) := by
  induction k with
  | zero =>
    intro pg s N _ _ hlt
    omega
  | succ k ih =>
    intro pg s N hwf henvs hlt
    exact emits_compileStmt ih s ⟨hwf, henvs, Nat.le_of_lt_succ hlt⟩

/-! ### Functions -/

section

variable (hinl : InlineOk k inl)
include hinl

theorem emits_compileBody (h : pg.Accepts k w N) {body : Expr ⊕ Stmts}
    (hw : ∀ ss, body = .inr ss → ss.weight ≤ w) : pg.Keeps N (compileBody inl pg body) := by
  cases body with
  | inl e =>
    exact (emits_compileExpr hinl e h.ready).seq
      (emits_directReturn h.ready.raises [] (by simp) pg.note)
  | inr body =>
    refine (emits_compileStmts hinl body (h.weaken (hw body rfl))).seq ?_
    split
    · exact .pure rfl
    · exact emits_implicitReturn h.ready.raises h.ready.inScope pg.note

theorem keeps_compileParam (h : pg.Ready k N) (paramReg : Reg)
    (param : FormalParam) : pg.Keeps N (compileParam inl pg paramReg param) := by
  refine (emits_createLRef hinl param.target h).bind ?_
  rintro lref _ rfl
  have hset := emits_setValue hinl true param.target lref h
  split
  · refine emits_step rfl <| .allocLabel fun nonDefault hn => ?_
    split
    · exact .allocLabel fun loadParam hl => emits_step rfl <| emits_step ⟨rfl, jumps_of_eq hl⟩ <|
        (emits_compileExpr hinl _ h).seq <| emits_branch hn <| emits_label hl <| emits_step rfl <|
        emits_label hn hset
    · exact emits_step rfl <| emits_step ⟨rfl, jumps_of_eq hn⟩ <|
        (emits_compileExpr hinl _ h).seq <| hset.seq <| emits_lastLabel hn
  · split
    · exact emits_step (h.op _) hset
    · split
      · exact emits_step rfl hset
      · exact .pure rfl

theorem keeps_compileParams (h : pg.Ready k N) (ps : List FormalParam)
    (index : ℕ) : pg.Keeps N (compileParams inl pg index ps) := by
  induction ps generalizing index with
  | nil => exact .pure rfl
  | cons p ps ih => exact (keeps_compileParam hinl h _ p).seq (ih _)

theorem keeps_compileInstanceFields (h : pg.Ready k N)
    (fields : List (Option Expr)) : pg.Keeps N (compileInstanceFields inl pg fields) := by
  induction fields with
  | nil => exact .pure rfl
  | cons value fields ih =>
    exact (keeps_valueOrUndefined hinl h value).seq <| emits_step (h.op _) ih

theorem keeps_compileHead (h : pg.Ready k N) (f : ScriptFunction) :
    pg.Keeps N (compileHead inl pg f) := by
  let params := pg.inForeignScope.atScope (f.paramScope.toScope :: f.outer)
  have hparams : params.Ready k N := ⟨h.wf.congr rfl rfl rfl rfl, .inl rfl, h.need_le⟩
  have hfields : pg.Keeps N (do
      let thisReg ← allocReg
      pg.emits (pg.getThis ++ [.sta thisReg])
      compileInstanceFields inl pg f.instanceFields) := by
    refine .allocReg fun _ => emits_steps (straight_append.mpr ⟨?_, ?_⟩)
      (keeps_compileInstanceFields hinl h _)
    · exact straight_loadVar h.raises h.inScope _ _
    · simp [Typing]
  have hname (name : String) : pg.Keeps N (do
      pg.emits (pg.loadVar "=f" false)
      params.initializeBinding name) :=
    emits_steps (straight_loadVar h.raises h.inScope _ _) (keeps_initializeBinding hparams name)
  exact (keeps_when hfields).seq <| Emits.seq (keeps_forSome fun name _ => hname name) <|
    keeps_compileParams hinl hparams _ _

end

theorem straight_prepare (h : pg.Ready k N) (funcObj : Reg) : pg.Straight (pg.prepare funcObj) := by
  have hr := h.raises
  unfold prepare
  split <;> simp [Typing, hr]

theorem keeps_cleanUp (h : pg.Ready k N) : pg.Keeps N (pg.emits pg.cleanUp) := by
  have hr := h.raises
  unfold cleanUp
  split
  · exact .pure rfl
  · exact emits_emits_concat [.op .asyncFunctionReject] (by simp [Typing, hr]) trivial
  · exact emits_emits_concat [.op .generatorComplete] (by simp [Typing, hr]) hr
  · exact emits_emits_concat [.op .asyncGeneratorReject] (by simp [Typing, hr]) trivial

theorem emits_compileFunctionOrProgram (hinl : InlineOk k inl) (f : ScriptFunction)
    (h : pg.Accepts k f.weight N) : pg.Keeps N (compileFunctionOrProgram inl pg f) := by
  have hw : ∀ ss, f.body = .inr ss → ss.weight ≤ f.weight := fun ss hss => by
    simp [ScriptFunction.weight, hss]
  have harguments : pg.Keeps N (do
      pg.emit (.op .getUnmappedArgs)
      pg.initializeBinding "arguments") :=
    emits_step (h.ready.op _) (keeps_initializeBinding h.ready _)
  refine (keeps_when harguments).seq <|
    emits_steps (straight_hoist h.wf h.ready.inScope f.scope) ?_
  split
  · exact emits_compileBody hinl h hw
  · split
    · exact (keeps_compileHead hinl h.ready f).seq (emits_compileBody hinl h hw)
    · refine .fresh fun id hid => .allocReg fun funcObj => ?_
      have h' := h.of_le (Nat.le_refl _) (Nat.le_succ_of_le hid)
      have hctx : (pg.withContext (.try { id })).Accepts k f.weight (id + 1) :=
        h'.withTry rfl rfl (by simp)
      refine (keeps_compileHead hinl hctx.ready f).seq <|
        emits_steps (straight_prepare hctx.ready _) ?_
      refine (emits_tryRange (t := { id }) rfl rfl (by simp) h'.wf (Nat.le_refl _) ?_).bind ?_
      · rintro table inner rfl hwf hle
        have := h.need_le
        exact emits_compileBody hinl ⟨hwf, h.envs_eq, by omega⟩ hw
      · rintro ⟨table, _⟩ _ ⟨htable, rfl⟩
        exact emits_label htable (keeps_cleanUp hctx.ready)

theorem straight_copyFunctionArguments (hs : pg.Scoped) (vs : List Variable) (i : ℕ) :
    pg.Straight (pg.copyFunctionArguments i vs) := by
  induction vs generalizing i with
  | nil => simp [copyFunctionArguments]
  | cons v vs ih =>
    refine straight_append.mpr ⟨?_, ih _⟩
    split <;> simp [Typing, hs.access]

theorem accepts_init (f : ScriptFunction) :
    ((init f).withNote ((init f).note.push f.scope)).Accepts f.weight f.weight 1 where
  wf := by
    refine ⟨List.Subset.refl _, ?_, ?_, .inr ?_, ?_, ?_, ?_⟩ <;> simp [init, withNote]
  envs_eq := by
    refine Scope.envs_push ?_
    show Scope.envs (f.paramScope.toScope :: f.outer) = Scope.envs f.outer
    rw [Scope.envs_cons, f.paramScope.needLexEnv_eq]
    rfl
  need_le := by simp [need, init, withNote]

theorem emits_compileFunction (f : ScriptFunction) :
    Emits [] (init f).note 1 (compileFunction f) fun _ b => b = (init f).note.push f.scope := by
  have h := accepts_init f
  have hnewEnv : Typing [] (init f).tag (init f).note
      (if f.scope.needLexEnv then .newLexEnv f.scope.id f.scope.slotIndex else .ldLexEnv)
      ((init f).note.push f.scope) := by
    unfold Note.push
    split <;> simp [Typing]
  refine Emits.seq (emits_emit hnewEnv) ?_
  show Emits ((init f).withNote ((init f).note.push f.scope)).ranges
    ((init f).withNote ((init f).note.push f.scope)).note _ _ _
  refine emits_step rfl <| emits_steps (straight_copyFunctionArguments h.ready.inScope _ _) ?_
  exact emits_compileFunctionOrProgram (inlineOk_compileNested f.weight) f h

theorem output_fragment (f : ScriptFunction) :
    (∃ b, Fragment [] { env := Scope.envs f.outer } (output f).code (output f).tables b) ∧
      ((output f).tables.map Range.id).Nodup := by
  obtain ⟨b, -, -, hfrag, -, hnodup⟩ := emits_compileFunction f 1 (Nat.le_refl _)
  exact ⟨⟨b, hfrag⟩, hnodup⟩

end PandaGen

end ArkTs2abc.Es2panda
