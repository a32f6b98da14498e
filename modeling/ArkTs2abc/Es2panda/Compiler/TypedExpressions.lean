import ArkTs2abc.Es2panda.Compiler.TypedPandaGen

/-!
# What expressions emit is well formed

By induction on the tree, one case for each node. An expression takes up the note
of the state it is compiled in and leaves the same note, whatever the contexts
around it are.

## Main definitions

* `PandaGen.Ready` — a state that an expression can be compiled in.

## Main results

* `emits_compileExpr`, `emits_setValue` — expressions and assignment targets.
-/

namespace ArkTs2abc.Es2panda

open FlatCode Emit

namespace PandaGen

variable {pg : PandaGen} {k N : ℕ} {inl : Inline}

/-- A state that an expression can be compiled in. -/
structure Ready (k : ℕ) (pg : PandaGen) (N : ℕ) : Prop where
  wf : pg.WellFormed pg.note.kept N
  inScope : pg.Scoped
  need_le : pg.need ≤ k

/-- What is compiled leaves the note as it is. -/
abbrev Keeps (pg : PandaGen) (N : ℕ) (m : Emit Unit) : Prop :=
  Emits pg.ranges pg.note N m fun _ b => b = pg.note

namespace Ready

theorem raises (h : pg.Ready k N) : Raises pg.ranges pg.tag pg.note := h.wf.raises

theorem op (h : pg.Ready k N) (o : Op) : Typing pg.ranges pg.tag pg.note (.op o) pg.note :=
  ⟨rfl, fun _ => h.raises⟩

theorem withScope (h : pg.Ready k N) (s : LocalScope) : (pg.withScope s.toScope).Ready k N :=
  ⟨h.wf.withScope _, h.inScope.withScope s, h.need_le⟩

end Ready

theorem keeps_localRegScope {s : LocalScope} {body : PandaGen → Emit Unit} (h : pg.Ready k N)
    (hbody : (pg.withScope s.toScope).Ready k N → (pg.withScope s.toScope).Keeps N
      (body (pg.withScope s.toScope))) : pg.Keeps N (pg.localRegScope s.toScope body) :=
  emits_localRegScope h.wf (h.inScope.withScope s) (hbody (h.withScope s))

theorem keeps_tryRange {t : TryContext} (ht : t.pendingFinalizer = none)
    (houter : t.outer.env = Scope.envs t.scope) (hfin : ∀ x ∈ t.outer.fin, x < N)
    (h : pg.Ready k N) {body : PandaGen → Emit Unit}
    (hbody : ∀ inner : PandaGen, inner.note = pg.note → inner.Ready k N →
      inner.Keeps N (body inner)) :
    Emits pg.ranges pg.note N ((pg.withContext (.try t)).protect pg.note pg.note body) fun r b =>
      r.1.handler.note = pg.note ∧ b = pg.note := by
  refine emits_tryRange ht houter hfin h.wf h.need_le ?_
  rintro table inner rfl hwf hneed
  exact hbody _ rfl ⟨hwf, h.inScope, hneed⟩

theorem Ready.withTry (h : pg.Ready k N) {t : TryContext} (ht : t.pendingFinalizer = none)
    (houter : t.outer.env = Scope.envs t.scope) (hfin : ∀ x ∈ t.outer.fin, x < N) :
    (pg.withContext (.try t)).Ready k N where
  wf := h.wf.withContext (DynamicContext.ok_try houter hfin)
  inScope := h.inScope
  need_le := by
    have := h.need_le
    simpa [need, PandaGen.withContext, DynamicContext.weight, ht] using this

theorem keeps_forSome {β : Type} {o : Option β} {f : β → Emit Unit}
    (h : ∀ x ∈ o, pg.Keeps N (f x)) : pg.Keeps N (forSome o f) := by
  cases o with
  | none => exact .pure rfl
  | some x => exact h x rfl

theorem keeps_when {b : Bool} {m : Emit Unit} (h : pg.Keeps N m) : pg.Keeps N (when b m) := by
  cases b with
  | false => exact .pure rfl
  | true => exact h

theorem keeps_initializeBinding (h : pg.Ready k N) (name : String) :
    pg.Keeps N (pg.initializeBinding name) :=
  emits_storeVar h.wf h.inScope name false true

theorem keeps_onIterDone {doneTarget : Option Label} (hdone : ∀ l ∈ doneTarget, l.note = pg.note) :
    pg.Keeps N (pg.onIterDone doneTarget) := by
  cases doneTarget with
  | none => exact emits_emit rfl
  | some l => exact emits_emit (jumps_of_eq (hdone l rfl))

theorem keeps_step (hinl : InlineOk k inl) (h : pg.Ready k N) (it : DestructuringIterator)
    {doneTarget : Option Label} (hdone : ∀ l ∈ doneTarget, l.note = pg.note) :
    pg.Keeps N (pg.step inl it doneTarget) := by
  refine emits_plainTry fun id => .allocLabel fun normalClose hnc => .allocLabel fun noClose hno =>
    .allocLabel fun catchEnd hce => ?_
  refine (keeps_tryRange rfl rfl (by simp) h ?_).bind ?_
  · intro inner hnote hinner
    have hr := hinner.raises
    rw [← hnote] at hnc hno hdone
    refine (emits_iteratorNext (emits_await hinl) hinner.wf hinner.need_le _).seq <|
      emits_steps (by simp [iteratorComplete, Typing, hr]) <| emits_step rfl <|
      emits_step ⟨rfl, jumps_of_eq hnc⟩ <| emits_steps (straight_storeConst _ _) <|
      emits_step rfl <| (keeps_onIterDone hdone).seq <| emits_branch hno <| emits_label hnc <|
      emits_steps ?_ <| emits_step rfl <| emits_lastLabel hno
    simp [iteratorValue, Typing, hr]
  · rintro ⟨table, _⟩ _ ⟨htable, rfl⟩
    refine emits_branch hce <| emits_label htable <| emits_steps ?_ <|
      emits_leave (a := pg.note) h.raises <| emits_lastLabel hce
    simp [storeConst, Typing]

theorem emits_newDestructuringIterator (h : pg.Ready k N) :
    Emits pg.ranges pg.note N pg.newDestructuringIterator fun _ b => b = pg.note := by
  refine (emits_newIterator h.wf _).bind ?_
  rintro iter _ rfl
  refine .allocReg fun _ => .allocReg fun _ => emits_steps ?_ (.pure rfl)
  simp [storeConst, Typing]

theorem keeps_defaultInit {init : Emit Unit} (hinit : pg.Keeps N init) (value : Reg) :
    pg.Keeps N (pg.defaultInit value init) := by
  refine .allocLabel fun assignValue ha => .allocLabel fun getDefault hg => emits_step rfl <|
    emits_step ⟨rfl, jumps_of_eq hg⟩ <| emits_step rfl <| emits_branch ha <| emits_label hg <|
    hinit.seq <| emits_lastLabel ha

theorem keeps_closeArray (hinl : InlineOk k inl) (h : pg.Ready k N) (it : DestructuringIterator)
    {table : CatchTable} (htable : table.handler.note = pg.note) {catchEnd : Label}
    (hce : catchEnd.note = pg.note) : pg.Keeps N (pg.closeArray inl it table catchEnd) := by
  have hclose (abrupt : Bool) := emits_closeIterator hinl abrupt it.iter pg N h.wf h.need_le
  refine emits_step rfl <| emits_step ⟨rfl, jumps_of_eq hce⟩ <| (hclose false).seq <|
    emits_branch hce <| .allocLabel fun last hl => emits_label htable <|
    emits_steps (by simp [Typing]) <| emits_step ⟨rfl, jumps_of_eq hl⟩ <| emits_step rfl <|
    (hclose true).seq <| emits_label hl <| emits_step rfl <|
    emits_leave (a := pg.note) h.raises <| emits_lastLabel hce

theorem keeps_genArray (hinl : InlineOk k inl) (h : pg.Ready k N) (it : DestructuringIterator)
    {isEmpty : Bool} {elements : PandaGen → Emit Unit}
    (helements : ∀ inner : PandaGen, inner.Ready k N → inner.Keeps N (elements inner)) :
    pg.Keeps N (pg.genArray inl it isEmpty elements) := by
  unfold genArray
  split
  · exact emits_closeIterator hinl false it.iter pg N h.wf h.need_le
  · refine emits_plainTry fun id => .allocLabel fun catchEnd hce => ?_
    refine (keeps_tryRange rfl rfl (by simp) h fun inner _ => helements inner).bind ?_
    rintro ⟨table, _⟩ _ ⟨htable, rfl⟩
    exact keeps_closeArray hinl (h.withTry rfl rfl (by simp)) it htable hce

theorem keeps_throwIfNullish (h : pg.Ready k N) (rhs : Reg) :
    pg.Keeps N (pg.throwIfNullish rhs) := by
  refine .allocLabel fun notNullish hn => emits_steps ?_ <|
    emits_step ⟨rfl, jumps_of_eq hn⟩ <| emits_step (h.op _) <| emits_lastLabel hn
  simp [Typing, h.raises]

theorem straight_getValue (h : pg.Ready k N) (p : Pattern) : pg.Straight (pg.getValue p) := by
  unfold getValue
  split
  · exact straight_loadVar h.raises h.inScope _ _
  · simp [Typing, h.raises]

mutual

theorem emits_compileExpr (hinl : InlineOk k inl) : ∀ (e : Expr) {pg : PandaGen} {N : ℕ},
    pg.Ready k N → pg.Keeps N (compileExpr inl pg e)
  | .literal, pg, N, _ => by
    rw [compileExpr]
    exact emits_emit rfl
  | .ident name isTdz, pg, N, h => by
    rw [compileExpr]
    exact emits_emits (straight_loadVar h.raises h.inScope _ _)
  | .operation operands, pg, N, h => by
    rw [compileExpr]
    exact (emits_compileExprs hinl operands h).seq (emits_emit (h.op _))
  | .unary argument, pg, N, h => by
    rw [compileExpr]
    refine .allocReg fun _ => (emits_compileExpr hinl argument h).seq (emits_emits ?_)
    simp [Typing, h.raises]
  | .binary left right, pg, N, h => by
    rw [compileExpr]
    exact .allocReg fun _ => (emits_compileExpr hinl left h).seq <| emits_step rfl <|
      (emits_compileExpr hinl right h).seq (emits_emit (h.op _))
  | .logical isAnd left right, pg, N, h => by
    rw [compileExpr]
    refine .allocReg fun _ => .allocLabel fun skipRight hs => .allocLabel fun endLabel he =>
      (emits_compileExpr hinl left h).seq <| emits_steps ?_ <| emits_step ?_ <|
      (emits_compileExpr hinl right h).seq <| emits_branch he <| emits_label hs <|
      emits_step rfl <| emits_lastLabel he
    · simp [Typing, h.raises]
    · split <;> exact ⟨rfl, jumps_of_eq hs⟩
  | .conditional test consequent alternate, pg, N, h => by
    rw [compileExpr]
    exact .allocLabel fun falseLabel hf => .allocLabel fun endLabel he =>
      (emits_condition hinl test hf h).seq <| (emits_compileExpr hinl consequent h).seq <|
      emits_branch he <| emits_label hf <| (emits_compileExpr hinl alternate h).seq <|
      emits_lastLabel he
  | .assign left right, pg, N, h => by
    rw [compileExpr]
    refine (emits_createLRef hinl left h).bind ?_
    rintro lref _ rfl
    exact (emits_compileExpr hinl right h).seq (emits_setValue hinl false left lref h)
  | .compoundAssign left right, pg, N, h => by
    rw [compileExpr]
    refine (emits_createLRef hinl left h).bind ?_
    rintro lref _ rfl
    exact .allocReg fun _ => emits_steps (straight_getValue h left) <| emits_step rfl <|
      (emits_compileExpr hinl right h).seq <| emits_step (h.op _) <|
      emits_setValue hinl false left lref h
  | .update argument isPrefixForm, pg, N, h => by
    rw [compileExpr]
    refine .allocReg fun _ => (emits_createLRef hinl argument h).bind ?_
    rintro lref _ rfl
    refine emits_steps (straight_getValue h argument) <| emits_steps ?_ <|
      (emits_setValue hinl false argument lref h).seq (keeps_when (emits_emit (h.op _)))
    simp [Typing, h.raises]
  | .function index, pg, N, _ => by
    rw [compileExpr]
    exact emits_emit rfl
  | .await argument, pg, N, h => by
    rw [compileExpr]
    exact (emits_compileExpr hinl argument h).seq (emits_await hinl pg N h.wf h.need_le)
  | .yield argument, pg, N, h => by
    rw [compileExpr]
    exact (emits_compileExpr hinl argument h).seq (emits_yield hinl pg N h.wf h.need_le)
  | .yieldStar argument, pg, N, h => by
    rw [compileExpr]
    exact (emits_compileExpr hinl argument h).seq (emits_yieldStar hinl pg N h.wf h.need_le)
  | .classDefinition scope ident superClass members, pg, N, h => by
    rw [compileExpr]
    refine .allocReg fun _ => keeps_localRegScope h fun h => .allocReg fun _ =>
      (emits_compileExpr hinl superClass h).seq <| emits_steps ?_ <|
      (keeps_forSome fun name _ => keeps_initializeBinding h name).seq <|
      (emits_compileExprs hinl members h).seq <| emits_emits ?_
    · simp [Typing, h.raises]
    · simp [Typing, h.raises]

theorem emits_compileExprs (hinl : InlineOk k inl) : ∀ (es : Exprs) {pg : PandaGen} {N : ℕ},
    pg.Ready k N → pg.Keeps N (compileExprs inl pg es)
  | .nil, pg, N, _ => by
    rw [compileExprs]
    exact .pure rfl
  | .cons e es, pg, N, h => by
    rw [compileExprs]
    exact .allocReg fun _ => (emits_compileExpr hinl e h).seq <| emits_step rfl <|
      emits_compileExprs hinl es h

theorem emits_condition (hinl : InlineOk k inl) {falseLabel : Label} :
    ∀ (test : Test) {pg : PandaGen} {N : ℕ}, falseLabel.note = pg.note → pg.Ready k N →
      pg.Keeps N (condition inl pg falseLabel test)
  | .comparison left right, pg, N, hf, h => by
    rw [condition]
    exact .allocReg fun _ => (emits_compileExpr hinl left h).seq <| emits_step rfl <|
      (emits_compileExpr hinl right h).seq <| emits_step (h.op _) <|
      emits_emit ⟨rfl, jumps_of_eq hf⟩
  | .and left right, pg, N, hf, h => by
    rw [condition]
    exact (emits_compileExpr hinl left h).seq <| emits_step (h.op _) <|
      emits_step ⟨rfl, jumps_of_eq hf⟩ <| (emits_compileExpr hinl right h).seq <|
      emits_step (h.op _) <| emits_emit ⟨rfl, jumps_of_eq hf⟩
  | .or left right, pg, N, hf, h => by
    rw [condition]
    exact .allocLabel fun endLabel he => (emits_compileExpr hinl left h).seq <|
      emits_step (h.op _) <| emits_step ⟨rfl, jumps_of_eq he⟩ <|
      (emits_compileExpr hinl right h).seq <| emits_step (h.op _) <|
      emits_step ⟨rfl, jumps_of_eq hf⟩ <| emits_lastLabel he
  | .not argument, pg, N, hf, h => by
    rw [condition]
    exact (emits_compileExpr hinl argument h).seq <| emits_step (h.op _) <|
      emits_emit ⟨rfl, jumps_of_eq hf⟩
  | .other e, pg, N, hf, h => by
    rw [condition]
    exact (emits_compileExpr hinl e h).seq <| emits_step (h.op _) <|
      emits_emit ⟨rfl, jumps_of_eq hf⟩

theorem emits_createLRef (hinl : InlineOk k inl) : ∀ (p : Pattern) {pg : PandaGen} {N : ℕ},
    pg.Ready k N → Emits pg.ranges pg.note N (createLRef inl pg p) fun _ b => b = pg.note
  | .ident .., pg, N, _ => by
    rw [createLRef]
    exact .pure rfl
  | .member object key, pg, N, h => by
    rw [createLRef]
    exact .allocReg fun _ => (emits_compileExpr hinl object h).seq <| emits_step rfl <|
      .allocReg fun _ => (emits_compileExpr hinl key h).seq <| emits_step rfl <| .pure rfl
  | .array _, pg, N, _ => by
    rw [createLRef]
    exact .pure rfl
  | .object _, pg, N, _ => by
    rw [createLRef]
    exact .pure rfl

theorem emits_setValue (hinl : InlineOk k inl) (isDecl : Bool) :
    ∀ (p : Pattern) (lref : LReference) {pg : PandaGen} {N : ℕ},
      pg.Ready k N → pg.Keeps N (setValue inl pg isDecl p lref)
  | .ident name isTdz, _, pg, N, h => by
    rw [setValue]
    exact emits_storeVar h.wf h.inScope name isTdz isDecl
  | .member .., _, pg, N, h => by
    rw [setValue]
    exact emits_emit (h.op _)
  | .array elements, _, pg, N, h => by
    rw [setValue]
    refine .allocReg fun rhs => emits_step rfl <| (emits_newDestructuringIterator h).bind ?_
    rintro it _ rfl
    exact (keeps_genArray hinl h it fun inner h => emits_genElements hinl isDecl it elements h).seq
      (emits_emit rfl)
  | .object properties, _, pg, N, h => by
    rw [setValue]
    exact .allocReg fun _ => emits_step rfl <| (keeps_when (keeps_throwIfNullish h _)).seq <|
      (emits_genProperties hinl isDecl properties h).seq (emits_emit rfl)

theorem emits_genElements (hinl : InlineOk k inl) (isDecl : Bool) (it : DestructuringIterator) :
    ∀ (es : Elements) {pg : PandaGen} {N : ℕ}, pg.Ready k N →
      pg.Keeps N (genElements inl pg isDecl it es)
  | .nil, pg, N, _ => by
    rw [genElements]
    exact .pure rfl
  | .omitted tail, pg, N, h => by
    rw [genElements]
    exact (keeps_step hinl h it (by simp)).seq (emits_genElements hinl isDecl it tail h)
  | .element target tail, pg, N, h => by
    rw [genElements]
    refine (emits_createLRef hinl target h).bind ?_
    rintro lref _ rfl
    exact (keeps_step hinl h it (by simp)).seq <| (emits_setValue hinl isDecl target lref h).seq <|
      emits_genElements hinl isDecl it tail h
  | .elementInit target init tail, pg, N, h => by
    rw [genElements]
    refine (emits_createLRef hinl target h).bind ?_
    rintro lref _ rfl
    exact (keeps_step hinl h it (by simp)).seq <|
      (keeps_defaultInit (emits_compileExpr hinl init h) _).seq <|
      (emits_setValue hinl isDecl target lref h).seq <| emits_genElements hinl isDecl it tail h
  | .rest target, pg, N, h => by
    rw [genElements]
    refine .allocReg fun array => .allocReg fun index => .allocLabel fun next hn =>
      .allocLabel fun done hd => (emits_createLRef hinl target h).bind ?_
    rintro lref _ rfl
    refine emits_steps (by simp [storeConst, Typing, h.raises]) <| emits_label hn <|
      (keeps_step hinl h it (by simpa using hd)).seq <| emits_steps ?_ <| emits_branch hn <|
      emits_label hd <| emits_step rfl <| emits_setValue hinl true target lref h
    simp [Typing, h.raises]

theorem emits_genProperties (hinl : InlineOk k inl) (isDecl : Bool) :
    ∀ (ps : Properties) {pg : PandaGen} {N : ℕ}, pg.Ready k N →
      pg.Keeps N (genProperties inl pg isDecl ps)
  | .nil, pg, N, _ => by
    rw [genProperties]
    exact .pure rfl
  | .property key target tail, pg, N, h => by
    rw [genProperties]
    refine .allocReg fun _ => .allocReg fun _ => (emits_compileExpr hinl key h).seq <|
      emits_step rfl <| (emits_createLRef hinl target h).bind ?_
    rintro lref _ rfl
    exact emits_steps (by simp [Typing, h.raises]) <|
      (emits_setValue hinl isDecl target lref h).seq <| emits_genProperties hinl isDecl tail h
  | .propertyInit key target init tail, pg, N, h => by
    rw [genProperties]
    refine .allocReg fun _ => .allocReg fun _ => (emits_compileExpr hinl key h).seq <|
      emits_step rfl <| (emits_createLRef hinl target h).bind ?_
    rintro lref _ rfl
    exact emits_steps (by simp [Typing, h.raises]) <|
      (keeps_defaultInit (emits_compileExpr hinl init h) _).seq <|
      (emits_setValue hinl isDecl target lref h).seq <| emits_genProperties hinl isDecl tail h
  | .rest target, pg, N, h => by
    rw [genProperties]
    refine (emits_createLRef hinl target h).bind ?_
    rintro lref _ rfl
    exact emits_step (h.op _) <| emits_setValue hinl true target lref h

end

end PandaGen

end ArkTs2abc.Es2panda
