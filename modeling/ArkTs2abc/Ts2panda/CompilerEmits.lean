import ArkTs2abc.Ts2panda.Emits
import ArkTs2abc.Ts2panda.Compiler

/-!
# What the compiler emits is put together properly

`Emitting` carries the judgement `Emits` over to computations. There is a lemma for
each of the generator's operations and one for each kind of statement, about
whatever is compiled below it; the induction over statements assembles them.

A context is accepted when its counters are those of its nest, and when the
finalizers in it can be compiled wherever a jump may stand.

## Main definitions

* `Emitting` — the judgement, for computations.
* `Context.Accepts` — contexts that statements can be compiled in.
* `Compiles` — code that can be compiled in any accepted context.

## Main results

* `compiles_compileStatement` — statements.
* `emits_compileFunctionBody` — functions.
-/

namespace ArkTs2abc.Ts2panda.Compiler

open FlatCode (Point LabelPair)
open Gen

variable {E : Type}

/-- Whenever the computation succeeds with `a` environments alive, it has put its code together
properly, and leaves `b` of them. -/
def Emitting (K : List Range) (L : Multiset ℕ) (a : ℕ) (m : Gen E Unit) (b : ℕ) : Prop :=
  ∀ pg pg', pg.live = a → m pg = some ((), pg') → ∃ new, Emits K L pg new pg' ∧ pg'.live = b

/-- The context is one of code under the try statements `K`, at the depth `n`. -/
structure Context.At (c : Context E) (K : List Range) (n : ℕ) : Prop where
  ranges : c.ranges = K
  openRanges : openRanges c.nest = K
  wellNested : WellNested c.nest
  envs : envCount c.nest = n

theorem Gen.bind_eq_some {α β : Type} {m : Gen E α} {f : α → Gen E β} {pg pg' : PandaGen E} {b : β} :
    (m >>= f) pg = some (b, pg') ↔ ∃ a pg₁, m pg = some (a, pg₁) ∧ f a pg₁ = some (b, pg') := by
  change (StateT.bind m f) pg = some (b, pg') ↔ _
  unfold StateT.bind
  cases m pg with
  | none => simp
  | some x =>
    obtain ⟨a, pg₁⟩ := x
    simp

namespace Emitting

variable {K : List Range} {L L' : Multiset ℕ} {a b d n : ℕ} {m k : Gen E Unit} {c : Context E}

theorem congr (h : Emitting K L a m b) (hL : L' = L) : Emitting K L' a m b := hL ▸ h

theorem pure : Emitting K 0 a (pure () : Gen E Unit) a := by
  intro pg pg' hlive h
  obtain rfl : pg = pg' := (Prod.mk.inj (Option.some.inj h)).2
  exact ⟨_, .nil, hlive⟩

theorem failure : Emitting K L a (failure : Gen E Unit) b := by
  intro pg pg' _ h
  cases h

theorem bind (h : Emitting K L a m b) (h' : Emitting K L' b k d) :
    Emitting K (L + L') a (m >>= fun _ => k) d := by
  intro pg pg' hlive hm
  obtain ⟨⟨⟩, pg₁, hm₁, hm₂⟩ := bind_eq_some.mp hm
  obtain ⟨new, hnew, hlive₁⟩ := h pg pg₁ hlive hm₁
  obtain ⟨new', hnew', hlive'⟩ := h' pg₁ pg' hlive₁ hm₂
  exact ⟨_, hnew.append hnew', hlive'⟩

theorem newLabel {f : Label → Gen E Unit}
    (h : ∀ l : Label, l.note = n → Emitting K ({l.id} + L) a (f l) b) :
    Emitting K L a (Gen.newLabel n >>= f) b := by
  intro pg pg' hlive hm
  obtain ⟨l, pg₁, hm₁, hm₂⟩ := bind_eq_some.mp hm
  obtain ⟨rfl, rfl⟩ : ⟨pg.nextLabel, n⟩ = l ∧ { pg with nextLabel := pg.nextLabel + 1 } = pg₁ := by
    simpa [Gen.newLabel] using hm₁
  obtain ⟨new, hnew, hlive'⟩ := h _ rfl { pg with nextLabel := pg.nextLabel + 1 } _ hlive hm₂
  exact ⟨new, .newLabel hnew, hlive'⟩

section

variable (hc : c.At K n)
include hc

theorem newLabelAt {f : Label → Gen E Unit} (h : ∀ l : Label, l.note = n → Emitting K ({l.id} + L) a (f l) b) :
    Emitting K L a (c.newLabel >>= f) b := by
  have hn : c.newLabel = Gen.newLabel n := congrArg Gen.newLabel hc.envs
  rw [hn]
  exact newLabel h

theorem add {i : Insn E} {origin : Origin} (h : Goes ⟨c.nest, origin⟩ a i (i.leaves c.nest a)) (hb : i.leaves c.nest a = b) :
    Emitting K 0 a (Gen.add c.ranges ⟨c.nest, origin⟩ i) b := by
  intro pg pg' hlive hm
  obtain rfl : pg.add c.ranges ⟨c.nest, origin⟩ i = pg' := by simpa [Gen.add] using hm
  rw [hc.ranges]
  subst hlive
  exact ⟨_, .insn hc.openRanges hc.wellNested h, hb⟩

theorem code {e : E} (hnest : Nested c.nest) :
    Emitting K 0 n (c.add (.code e)) n := by
  obtain rfl := hc.envs
  exact add hc (.code hnest rfl) rfl

theorem operation {o : Operation} (hnest : Nested c.nest) :
    Emitting K 0 n (c.add (.operation o)) n := by
  obtain rfl := hc.envs
  exact add hc (.operation hnest rfl) rfl

theorem move : Emitting K 0 a (c.add .move) a := add hc .move rfl

theorem createLexEnv : Emitting K 0 a (c.add .createLexEnv) (a + 1) :=
  add hc .createLexEnv rfl

theorem popLexicalEnv : Emitting K 0 (a + 1) (c.add .popLexicalEnv) a :=
  add hc .popLexicalEnv rfl

end

variable {l : Label}

theorem branch (hc : c.At K n) (hl : l.note = a) :
    Emitting K 0 a (c.add (.branch l)) n := by
  subst hl
  exact add hc (.branch rfl) hc.envs

theorem condition (hc : c.At K n) (hl : l.note = a) :
    Emitting K 0 a (c.add (.condition l)) a := by
  subst hl
  exact add hc (.condition rfl) rfl

theorem label (hc : c.At K n) (hl : l.note = n) :
    Emitting K {l.id} n (c.label l) n := by
  intro pg pg' hlive hm
  obtain rfl : pg.label c.ranges ⟨c.nest, .other⟩ l = pg' := by
    simpa [Context.label, Gen.label] using hm
  rw [hc.ranges]
  have hmarks : Marks K ⟨c.nest, .other⟩ l :=
    ⟨hc.openRanges, hc.wellNested, hl.trans hc.envs.symm, by rintro ⟨⟩⟩
  exact ⟨_, .label hmarks (hlive.trans hl.symm), hl⟩

theorem updateName2LabelTarget (t : LabelTarget) (names : List String) :
    Emitting K 0 a (updateName2LabelTarget t names : Gen E Unit) a := by
  induction names with
  | nil => exact pure
  | cons name names ih =>
    intro pg pg' hlive hm
    unfold Gen.updateName2LabelTarget at hm
    split at hm
    · cases hm
    · have hadded : { pg with name2LabelTarget :=
          (name, t.breakTargetLabel.id) :: pg.name2LabelTarget }.live = a := hlive
      obtain ⟨new, hnew, hlive'⟩ := ih _ pg' hadded hm
      exact ⟨new, zero_add (0 : Multiset ℕ) ▸ Emits.names.append hnew, hlive'⟩

theorem deleteName2LabelTarget (name : String) :
    Emitting K 0 a (deleteName2LabelTarget name : Gen E Unit) a := by
  intro pg pg' hlive hm
  obtain rfl : { pg with name2LabelTarget := _ } = pg' := by
    simpa [Gen.deleteName2LabelTarget] using hm
  exact ⟨_, .names, hlive⟩

section

variable (hc : c.At K n)
include hc

theorem createLoopEnv {need : Bool} :
    Emitting K 0 a (createLoopEnv c need) (a + need.toNat) := by
  cases need with
  | false => exact pure
  | true => exact createLexEnv hc

theorem popLoopEnvIfNeeded {need : Bool} :
    Emitting K 0 (a + need.toNat) (c.popLoopEnvIfNeeded need) a := by
  cases need with
  | false => exact pure
  | true => exact popLexicalEnv hc

theorem popLoopEnv (times : ℕ) :
    Emitting K 0 (a + times) (c.popLoopEnv times) a := by
  induction times with
  | zero => exact pure
  | succ times ih => exact (popLexicalEnv hc).bind ih

theorem expressions (hnest : Nested c.nest) (es : List E) :
    Emitting K 0 n (compileExpressions c es) n := by
  induction es with
  | nil => exact pure
  | cons e es ih => exact (code hc hnest).bind ih

theorem condition' (hnest : Nested c.nest) (hl : l.note = n) (cond : Condition E) :
    Emitting K 0 n (compileCondition c l cond) n := by
  cases cond with
  | and left right =>
    exact (code hc hnest).bind ((condition hc hl).bind ((code hc hnest).bind (condition hc hl)))
  | or left right =>
    refine newLabelAt hc fun endLabel hend => ?_
    refine ((code hc hnest).bind ((condition hc hend).bind ((code hc hnest).bind
      ((condition hc hl).bind (label hc hend))))).congr ?_
    abel
  | other e => exact (code hc hnest).bind (condition hc hl)

theorem conditionIfExisted (hnest : Nested c.nest) (hl : l.note = n)
    (cond : Option (Condition E)) : Emitting K 0 n (compileConditionIfExisted c l cond) n := by
  cases cond with
  | none => exact pure
  | some cond => exact condition' hc hnest hl cond

end

end Emitting

/-- The counters in the context are those of its nest. -/
structure Context.Coherent (c : Context E) : Prop where
  targets : c.labelTargets = targets c.nest
  tries : c.tryStatements.map (fun t => (t.catchTable, t.loopEnvLevel)) = tries (lexical c.nest)
  nested : Nested c.nest
  depth : ∀ r, .tryBlock r ∈ c.nest → r.depth < c.currentTryStatementDepth

/-- Every finalizer can be compiled in place of a jump, whatever is around it there. -/
inductive GoodChain : List (TryStatement E) → Prop where
  | nil : GoodChain []
  | cons {t outer} : GoodChain outer →
      (∀ finalizer, t.finalizer = some finalizer → ∀ cfc l around,
        Context.Coherent ⟨around, outer⟩ →
        Emitting (outer.map TryStatement.catchTable) 0 (envCount around.nest)
          (finalizer cfc l around) (envCount around.nest)) →
      GoodChain (t :: outer)

structure Context.Accepts (c : Context E) : Prop extends c.Coherent where
  chain : GoodChain c.tryStatements

/-- Code that can be compiled in any accepted context, and comes back to its depth. -/
def Compiles (f : CompileStatement E) : Prop :=
  ∀ c K n, c.Accepts → c.At K n → Emitting K 0 n (f c) n

namespace Context

variable {c : Context E} {K : List Range} {n : ℕ} {t : LabelTarget}

theorem Coherent.ranges_eq (h : c.Coherent) : c.ranges = Compiler.openRanges c.nest := by
  rw [openRanges_eq_map, ← h.tries, List.map_map]
  rfl

theorem Coherent.at (h : c.Coherent) : c.At c.ranges (envCount c.nest) :=
  ⟨rfl, h.ranges_eq.symm, h.nested.wellNested, rfl⟩

theorem map_increaseLoopEnvLevel (outer : List (TryStatement E)) :
    (increaseLoopEnvLevel outer).map TryStatement.catchTable = outer.map TryStatement.catchTable := by
  cases outer with
  | nil => rfl
  | cons t outer => rfl

@[simp]
theorem ranges_pushLabelTarget (c : Context E) (t : LabelTarget) :
    (c.pushLabelTarget t).ranges = c.ranges := by
  unfold pushLabelTarget ranges
  split
  · exact map_increaseLoopEnvLevel _
  · rfl

theorem GoodChain.increased {outer : List (TryStatement E)} (h : GoodChain outer) :
    GoodChain (increaseLoopEnvLevel outer) := by
  cases h with
  | nil => exact .nil
  | cons houter ht => exact .cons houter ht

theorem At.enter (h : c.At K n) (t : LabelTarget) :
    ((c.pushLabelTarget t).enter t).At K (n + t.envs) where
  ranges := (ranges_pushLabelTarget c t).trans h.ranges
  openRanges := h.openRanges
  wellNested := h.wellNested
  envs := congrArg (· + t.envs) h.envs

theorem At.push (h : c.At K n) (t : LabelTarget) : (c.pushLabelTarget t).At K n where
  ranges := (ranges_pushLabelTarget c t).trans h.ranges
  openRanges := h.openRanges
  wellNested := h.wellNested
  envs := h.envs

theorem Accepts.enter (h : c.Accepts) (ht : t.Fits c.nest) :
    ((c.pushLabelTarget t).enter t).Accepts where
  targets := congrArg (pushTarget t) h.targets
  tries := by
    change (c.pushLabelTarget t).tryStatements.map _ = Compiler.tries (.target t :: lexical c.nest)
    unfold Compiler.tries
    rw [← h.tries]
    unfold pushLabelTarget LabelTarget.envs
    cases t.hasLoopEnv <;> cases c.tryStatements <;> simp [increaseLoopEnvLevel]
  nested := ⟨ht, h.nested⟩
  depth := fun r hr => h.depth r (by simpa [Context.enter, pushLabelTarget] using hr)
  chain := by
    change GoodChain (c.pushLabelTarget t).tryStatements
    unfold pushLabelTarget
    split
    · exact GoodChain.increased h.chain
    · exact h.chain

theorem Accepts.pairwise (h : c.Accepts) : c.ranges.Pairwise fun r s => s.depth < r.depth :=
  h.ranges_eq ▸ h.nested.wellNested.pairwise

end Context

section Finalizers

variable {c : Context E} {K : List Range} {n : ℕ} {t : TryStatement E}
  {pre outer : List (TryStatement E)}

theorem GoodChain.append_right (h : GoodChain (pre ++ outer)) : GoodChain outer := by
  induction pre with
  | nil => exact h
  | cons t pre ih =>
    cases h with
    | cons houter _ => exact ih houter

theorem Context.Accepts.ne_of_mem (h : c.Accepts) (hs : c.tryStatements = pre ++ t :: outer) :
    ∀ s ∈ pre, s.catchTable ≠ t.catchTable := by
  intro s hmem heq
  have hpw := h.pairwise
  unfold Context.ranges at hpw
  rw [hs, List.map_append, List.pairwise_append] at hpw
  have hlt := hpw.2.2 _ (List.mem_map_of_mem hmem) _ (.head _)
  rw [heq] at hlt
  exact Nat.lt_irrefl _ hlt

theorem Context.Accepts.inlined (h : c.Accepts) (hs : c.tryStatements = pre ++ t :: outer) :
    (c.inlined t outer).Coherent where
  targets := h.targets
  tries := by
    have hdrop (xs : List (TryStatement E)) (hxs : ∀ s ∈ xs, s.catchTable ≠ t.catchTable) :
        (((xs ++ t :: outer).map fun t => (t.catchTable, t.loopEnvLevel)).dropWhile
          fun x => x.1 ≠ t.catchTable).tail =
        outer.map fun t => (t.catchTable, t.loopEnvLevel) := by
      induction xs with
      | nil => simp
      | cons s xs ih => simpa [hxs s (.head _)] using ih fun s' hs' => hxs s' (.tail _ hs')
    change _ = Compiler.tries (lexical (.finalizer t.catchTable :: c.nest))
    rw [tries_lexical_finalizer, ← h.tries, hs]
    exact (hdrop pre (h.ne_of_mem hs)).symm
  nested := by
    refine ⟨?_, h.nested⟩
    rw [← h.ranges_eq]
    unfold Context.ranges
    simp [hs]
  depth := fun r hr => h.depth r (by simpa [Context.inlined] using hr)

theorem updateCatchTables_eq {inlinedPair : LabelPair ℕ} {pg : PandaGen E}
    (h : ∀ s ∈ pre, s.catchTable ≠ t.catchTable) :
    updateCatchTables inlinedPair t.catchTable (pre ++ t :: outer) pg =
      some ((), pg.splitLabelPairs inlinedPair
        (pre.map TryStatement.catchTable ++ [t.catchTable])) := by
  induction pre generalizing pg with
  | nil =>
    simp only [List.nil_append, updateCatchTables, bind, StateT.bind, Gen.splitLabelPair]
    rfl
  | cons s pre ih =>
    have ih := @ih (pg.splitLabelPair inlinedPair s.catchTable.id) fun s' hs' => h s' (.tail _ hs')
    simp only [List.cons_append, updateCatchTables, bind, StateT.bind, Gen.splitLabelPair,
      if_neg (h s (.head _))]
    exact ih

theorem emitting_inlineFinalizer (h : c.Accepts) (hat : c.At K n)
    (hs : c.tryStatements = pre ++ t :: outer) (cfc : ControlFlowChange) (l : Option Label) :
    Emitting K 0 n (inlineFinalizer c cfc l t outer t.finalizer) n := by
  cases hfin : t.finalizer with
  | none => exact .pure
  | some finalizer =>
    refine .newLabelAt hat fun x hx => .newLabelAt hat fun y hy => ?_
    have hco := h.inlined hs
    have hgood : GoodChain (t :: outer) := GoodChain.append_right (hs ▸ h.chain)
    have hK : K = pre.map TryStatement.catchTable ++ t.catchTable ::
        outer.map TryStatement.catchTable := by
      rw [← hat.ranges]
      unfold Context.ranges
      rw [hs, List.map_append, List.map_cons]
    have hcopy : (c.inlined t outer).At (outer.map TryStatement.catchTable) n :=
      ⟨rfl, hco.ranges_eq.symm, hco.nested.wellNested, hat.envs⟩
    intro pg pg' hlive hm
    obtain ⟨⟨⟩, pg₁, hx₁, hm⟩ := Gen.bind_eq_some.mp hm
    obtain rfl : pg.label _ _ x = pg₁ := by simpa [Gen.label] using hx₁
    obtain ⟨⟨⟩, pg₂, hfinal, hm⟩ := Gen.bind_eq_some.mp hm
    obtain ⟨⟨⟩, pg₃, hy₁, hm⟩ := Gen.bind_eq_some.mp hm
    obtain rfl : pg₂.label _ _ y = pg₃ := by simpa [Context.label, Gen.label] using hy₁
    rw [hs, updateCatchTables_eq (h.ne_of_mem hs)] at hm
    obtain rfl := (Prod.mk.inj (Option.some.inj hm)).2
    have hrun : Emitting (outer.map TryStatement.catchTable) 0 n
        (finalizer cfc l (c.inlined t outer).toSurroundings) n := by
      cases hgood with
      | cons _ hgood => exact hcopy.envs ▸ hgood finalizer hfin cfc l _ hco
    obtain ⟨new, hnew, hlive₂⟩ := hrun _ _ hx hfinal
    have hmarks : Marks (outer.map TryStatement.catchTable)
        ⟨(c.inlined t outer).nest, .inlineFinallyBegin⟩ x :=
      ⟨hcopy.openRanges, hcopy.wellNested, hx.trans hcopy.envs.symm, fun _ => ⟨_, _, rfl, hco.nested⟩⟩
    have hmarks' : Marks K ⟨c.nest, .other⟩ y :=
      ⟨hat.openRanges, hat.wellNested, hy.trans hat.envs.symm, by rintro ⟨⟩⟩
    subst hK
    have hcut := Emits.copy hmarks (hlive.trans hx.symm) hnew hmarks' (hlive₂.trans hy.symm)
    have hL : ({y.id} + ({x.id} + 0) : Multiset ℕ) = {x.id} + 0 + {y.id} := by abel
    rw [hat.ranges, hL]
    refine ⟨_, hcut, ?_⟩
    rw [PandaGen.live_splitLabelPairs]
    exact hy

section

variable (h : c.Accepts) (hat : c.At K n) (endTry : Option Range) (cfc : ControlFlowChange) (l : Option Label)
include h hat endTry cfc l

theorem emitting_finallyBeforeCFC (hs : c.tryStatements = pre ++ outer) :
    Emitting K 0 n (finallyBeforeCFC c endTry cfc l outer) n := by
  induction outer generalizing pre with
  | nil =>
    unfold finallyBeforeCFC
    split
    · exact .pure
    · exact .failure
  | cons t outer ih =>
    unfold finallyBeforeCFC
    split
    · exact .pure
    · exact (emitting_inlineFinalizer h hat hs cfc l).bind (@ih (pre ++ [t]) (by simp [hs]))

theorem emitting_compileFinallyBeforeCFC :
    Emitting K 0 n (compileFinallyBeforeCFC c endTry cfc l) n :=
  emitting_finallyBeforeCFC h hat endTry cfc l (List.nil_append _).symm

end

end Finalizers

section Try

variable {c : Context E} {K : List Range} {L : Multiset ℕ} {n d : ℕ}

theorem Context.At.newTryStatement (h : c.At K n) {r : Range} (finalizer : Option (Finalizer E))
    (hr : ∀ s, .tryBlock s ∈ c.nest → s.depth < r.depth) :
    (c.newTryStatement r finalizer).At (r :: K) n where
  ranges := congrArg (r :: ·) h.ranges
  openRanges := congrArg (r :: ·) h.openRanges
  wellNested := ⟨hr, h.wellNested⟩
  envs := h.envs

theorem Context.Accepts.newTryStatement (h : c.Accepts) {r : Range}
    {finalizer : Option (Finalizer E)} (hnote : r.handler.note = envCount c.nest)
    (hdepth : r.depth = c.currentTryStatementDepth)
    (hfin : ∀ f, finalizer = some f → ∀ cfc l around,
      Context.Coherent ⟨around, c.tryStatements⟩ →
      Emitting c.ranges 0 (envCount around.nest) (f cfc l around) (envCount around.nest)) :
    (c.newTryStatement r finalizer).Accepts where
  targets := h.targets
  tries := congrArg ((r, 0) :: ·) h.tries
  nested := ⟨hnote, fun s hs => hdepth ▸ h.depth s hs, h.nested⟩
  depth := by
    intro s hs
    rcases List.mem_cons.mp hs with heq | hs
    · cases heq
      exact Nat.lt_succ_of_le (Nat.le_of_eq hdepth)
    · exact Nat.lt_succ_of_lt (h.depth s hs)
  chain := .cons h.chain hfin

/-- The block of a try statement, with its table, and what follows it up to the handler. -/
theorem Emitting.protect {block after : Context E} {t : CatchTable} {b e : Label} {L' : Multiset ℕ}
    {blk finally_ pop branch rest : Gen E Unit} {n' n'' : ℕ} (hpairs : t.labelPairs = [⟨b, e⟩])
    (hdepth : ∀ r ∈ K, r.depth < t.depth) (hblock : block.At (t.range :: K) n)
    (hafter : after.At K n') (hb : b.note = n) (he : e.note = n')
    (hcatch : t.catchBeginLabel.note = n') (hblk : Emitting (t.range :: K) L n blk n')
    (hfinally : Emitting K 0 n' finally_ n') (hpop : Emitting K 0 n' pop n'')
    (hbranch : Emitting K 0 n'' branch n') (hrest : Emitting K L' n' rest d) :
    Emitting K ({b.id} + L + ({e.id} + (0 + (0 + 0)) + {t.catchBeginLabel.id}) + L') n
      (do
        newCatchTable t
        block.label b
        blk
        after.label e
        finally_
        pop
        branch
        after.label t.catchBeginLabel
        rest) d := by
  intro pg pg' hlive hm
  obtain ⟨⟨⟩, pg₁, h₁, hm⟩ := Gen.bind_eq_some.mp hm
  obtain rfl : pg.newCatchTable t = pg₁ := by simpa [Gen.newCatchTable] using h₁
  obtain ⟨⟨⟩, pg₂, h₂, hm⟩ := Gen.bind_eq_some.mp hm
  obtain rfl : (pg.newCatchTable t).label _ _ b = pg₂ := by
    simpa [Context.label, Gen.label] using h₂
  obtain ⟨⟨⟩, pg₃, h₃, hm⟩ := Gen.bind_eq_some.mp hm
  obtain ⟨new, hnew, hlive₃⟩ := hblk _ _ hb h₃
  obtain ⟨⟨⟩, pg₄, h₄, hm⟩ := Gen.bind_eq_some.mp hm
  obtain rfl : pg₃.label _ _ e = pg₄ := by simpa [Context.label, Gen.label] using h₄
  obtain ⟨⟨⟩, pg₅, h₅, hm⟩ := Gen.bind_eq_some.mp hm
  obtain ⟨⟨⟩, pg₆, h₆, hm⟩ := Gen.bind_eq_some.mp hm
  obtain ⟨⟨⟩, pg₇, h₇, hm⟩ := Gen.bind_eq_some.mp hm
  obtain ⟨new₅, hnew₅, hlive₅⟩ := hfinally _ _ he h₅
  obtain ⟨new₆, hnew₆, hlive₆⟩ := hpop _ _ hlive₅ h₆
  obtain ⟨new₇, hnew₇, hlive₇⟩ := hbranch _ _ hlive₆ h₇
  obtain ⟨⟨⟩, pg₈, h₈, hm⟩ := Gen.bind_eq_some.mp hm
  obtain rfl : pg₇.label _ _ t.catchBeginLabel = pg₈ := by
    simpa [Context.label, Gen.label] using h₈
  obtain ⟨new', hnew', hlive'⟩ := hrest _ _ hcatch hm
  rw [hblock.ranges] at hnew
  rw [hafter.ranges] at hnew₅ hnew'
  have hmid := hnew₅.append (hnew₆.append hnew₇)
  have hbegin : Marks (t.range :: K) ⟨block.nest, .other⟩ b :=
    ⟨hblock.openRanges, hblock.wellNested, hb.trans hblock.envs.symm, by rintro ⟨⟩⟩
  have hend : Marks K ⟨after.nest, .other⟩ e :=
    ⟨hafter.openRanges, hafter.wellNested, he.trans hafter.envs.symm, by rintro ⟨⟩⟩
  have hhandler : Marks K ⟨after.nest, .other⟩ t.catchBeginLabel :=
    ⟨hafter.openRanges, hafter.wellNested, hcatch.trans hafter.envs.symm, by rintro ⟨⟩⟩
  have hprotect := Emits.protect hpairs hdepth hbegin (hlive.trans hb.symm) hnew hend
    (hlive₃.trans he.symm) hmid hhandler (hlive₇.trans hcatch.symm)
  exact ⟨_, hprotect.append hnew', hlive'⟩

/-- The end label, where it is the try statement's own. -/
def ownEndLabel (endLabel : Option Label) (l : Label) : Multiset ℕ :=
  match endLabel with
  | some _ => 0
  | none => {l.id}

theorem Emitting.newCatchEndLabel {f : Label → Gen E Unit} {a : ℕ} {endLabel : Option Label}
    (hc : c.At K n) (hend : ∀ l, endLabel = some l → l.note = n)
    (h : ∀ l : Label, l.note = n → Emitting K (ownEndLabel endLabel l + L) a (f l) d) :
    Emitting K L a (newCatchEndLabel c endLabel >>= f) d := by
  cases endLabel with
  | none => exact .newLabelAt hc h
  | some l =>
    have hpure : (Compiler.newCatchEndLabel c (some l) >>= f) = f l := pure_bind l f
    rw [hpure]
    exact (h l (hend l rfl)).congr (zero_add L).symm

theorem Emitting.placeCatchEndLabel {l : Label} {endLabel : Option Label} (hc : c.At K n)
    (hl : l.note = n) (hend : endLabel = none → d = n) :
    Emitting K (ownEndLabel endLabel l) d (placeCatchEndLabel c l endLabel) d := by
  cases endLabel with
  | none =>
    obtain rfl := hend rfl
    exact .label hc hl
  | some l' => exact .pure

theorem emitting_constructTry {b : TryBuilder E} (hc : c.At K n)
    (hdepth : ∀ r, .tryBlock r ∈ c.nest → r.depth < c.currentTryStatementDepth)
    (hafter : b.after.At K (n + b.needCreateLoopEnv.toNat))
    (hend : ∀ l, b.endLabel = some l → l.note = n)
    (hblock : ∀ r : Range, r.depth = c.currentTryStatementDepth →
      r.handler.note = n + b.needCreateLoopEnv.toNat →
      Emitting (r :: K) L n (b.compileTryBlock r (c.newTryStatement r b.finalizer))
        (n + b.needCreateLoopEnv.toNat))
    (hfinally : Emitting K 0 (n + b.needCreateLoopEnv.toNat) b.compileFinallyBlockIfExisted
      (n + b.needCreateLoopEnv.toNat))
    (hhandler : Emitting K 0 (n + b.needCreateLoopEnv.toNat) b.compileExceptionHandler d)
    (hd : b.endLabel = none → d = n) : Emitting K L n (constructTry c b) d := by
  refine .newLabelAt hc fun tryBegin hbegin => .newLabelAt hafter fun tryEnd htryEnd =>
    .newLabelAt hafter fun catchBegin hcatch => .newCatchEndLabel hc hend fun catchEnd hcatchEnd => ?_
  let table : CatchTable :=
    ⟨catchBegin, [⟨tryBegin, tryEnd⟩], c.currentTryStatementDepth⟩
  have hK (r : Range) (hr : r ∈ K) : r.depth < c.currentTryStatementDepth :=
    hdepth r (tryBlock_mem (hc.openRanges ▸ hr))
  have hopen : (c.newTryStatement table.range b.finalizer).At (table.range :: K) n :=
    hc.newTryStatement b.finalizer hdepth
  refine (Emitting.protect rfl hK hopen hafter hbegin htryEnd hcatch
    (hblock table.range rfl hcatch) hfinally (.popLoopEnvIfNeeded hafter) (.branch hafter hcatchEnd)
    (hhandler.bind (.placeCatchEndLabel hc hcatchEnd hd))).congr ?_
  abel

end Try

namespace Emitting

variable {c : Context E} {body : CompileStatement E} {labels : List String}

section

variable (hbody : Compiles body)
include hbody

theorem doStatement (need : Bool) (expression : Condition E) :
    Compiles fun c => compileDoStatement c labels need body expression := by
  intro c K n h hc
  obtain rfl := hc.envs
  refine newLabelAt hc fun start hstart => newLabel fun last hlast => newLabel fun cond hcond => ?_
  let t := c.newLabelTarget .doStatement last (some cond) need
  have ht : t.Fits c.nest := ⟨rfl, hlast, cond, rfl, hcond⟩
  have hloop := h.enter ht
  have hl := hc.enter t
  refine ((updateName2LabelTarget _ _).bind <| (label hc hstart).bind <|
    (createLoopEnv hc).bind <| (hbody _ _ _ hloop hl).bind <| (label hl hcond).bind <|
    (condition' hl hloop.nested hlast _).bind <| (popLoopEnvIfNeeded hl).bind <|
    (branch hl hstart).bind <| (label hl hlast).bind <| popLoopEnvIfNeeded hl).congr ?_
  abel

theorem whileStatement (need : Bool) (expression : Condition E) :
    Compiles fun c => compileWhileStatement c labels need expression body := by
  intro c K n h hc
  obtain rfl := hc.envs
  refine newLabelAt hc fun start hstart => newLabel fun last hlast => ?_
  let t := c.newLabelTarget .whileStatement last (some start) need
  have ht : t.Fits c.nest := ⟨rfl, hlast, start, rfl, hstart⟩
  have hloop := h.enter ht
  have hl := hc.enter t
  refine ((updateName2LabelTarget _ _).bind <| (label hc hstart).bind <|
    (createLoopEnv hc).bind <| (condition' hl hloop.nested hlast _).bind <|
    (hbody _ _ _ hloop hl).bind <| (popLoopEnvIfNeeded hl).bind <| (branch hl hstart).bind <|
    (label hl hlast).bind <| popLoopEnvIfNeeded hl).congr ?_
  abel

theorem forAtBegining (header : ForHeader E) :
    Compiles fun c => compileForAtBegining c labels header body := by
  intro c K n h hc
  obtain rfl := hc.envs
  refine newLabel fun start hstart => newLabel fun last hlast => newLabel fun inc hinc => ?_
  let t := c.newLabelTarget .forStatement last (some inc) true
  have ht : t.Fits c.nest := ⟨rfl, hlast, inc, rfl, hinc⟩
  have hloop := h.enter ht
  have hl := hc.enter t
  refine ((updateName2LabelTarget _ _).bind <| (createLexEnv hc).bind <|
    (expressions hl hloop.nested _).bind <| (label hl hstart).bind <|
    (conditionIfExisted hl hloop.nested hlast _).bind <| (hbody _ _ _ hloop hl).bind <|
    (label hl hinc).bind <| (expressions hl hloop.nested _).bind <| (popLexicalEnv hl).bind <|
    (createLexEnv hc).bind <| (move hl).bind <| (expressions hl hloop.nested _).bind <|
    (branch hl hstart).bind <| (label hl hlast).bind <| popLexicalEnv hl).congr ?_
  abel

theorem forFast (header : ForHeader E) :
    Compiles fun c => compileForFast c labels header body := by
  intro c K n h hc
  obtain rfl := hc.envs
  refine newLabelAt hc fun start hstart => newLabel fun last hlast => newLabel fun inc hinc => ?_
  let t := c.newLabelTarget .forStatement last (some inc) header.needCreateLoopEnv
  have ht : t.Fits c.nest := ⟨rfl, hlast, inc, rfl, hinc⟩
  have hloop := h.enter ht
  have hl := hc.enter t
  refine ((updateName2LabelTarget _ _).bind <| (expressions hc h.nested _).bind <|
    (label hc hstart).bind <| (createLoopEnv hc).bind <|
    (conditionIfExisted hl hloop.nested hlast _).bind <| (hbody _ _ _ hloop hl).bind <|
    (label hl hinc).bind <| (expressions hl hloop.nested _).bind <|
    (popLoopEnvIfNeeded hl).bind <| (branch hl hstart).bind <| (label hl hlast).bind <|
    popLoopEnvIfNeeded hl).congr ?_
  abel

theorem forStatement (header : ForHeader E) :
    Compiles fun c => compileForStatement c labels header body := by
  intro c K n h hc
  unfold compileForStatement
  split
  · exact forAtBegining hbody header c K n h hc
  · exact forFast hbody header c K n h hc

theorem forInStatement (need : Bool) (initializer expression : E) :
    Compiles fun c => compileForInStatement c labels need initializer expression body := by
  intro c K n h hc
  obtain rfl := hc.envs
  refine newLabelAt hc fun start hstart => newLabel fun last hlast => ?_
  let t := c.newLabelTarget .forInStatement last (some start) need
  have ht : t.Fits c.nest := ⟨rfl, hlast, start, rfl, hstart⟩
  have hloop := h.enter ht
  have hl := hc.enter t
  refine ((updateName2LabelTarget _ _).bind <| (code hc h.nested).bind <|
    (operation hc h.nested).bind <| (move hc).bind <| (label hc hstart).bind <|
    (createLoopEnv hc).bind <| (operation hl hloop.nested).bind <| (move hl).bind <|
    (condition hl hlast).bind <| (code hl hloop.nested).bind <| (hbody _ _ _ hloop hl).bind <|
    (popLoopEnvIfNeeded hl).bind <| (branch hl hstart).bind <| (label hl hlast).bind <|
    popLoopEnvIfNeeded hl).congr ?_
  abel

end

variable {K : List Range} {n : ℕ}

theorem throw (hc : c.At K n) (hnest : Nested c.nest) :
    Emitting K 0 n (c.add .throw) n := by
  obtain rfl := hc.envs
  exact add hc (.throw hnest rfl) rfl

theorem iteratorClose {l : Label} (hc : c.At K n) (hnest : Nested c.nest) (hl : l.note = n) :
    Emitting K 0 n (iteratorClose c l) n :=
  (operation hc hnest).bind <| (move hc).bind <| (condition hc hl).bind <| operation hc hnest

theorem forOfHandler (hc : c.At K n) (hnest : Nested c.nest) :
    Emitting K 0 n (compileForOfHandler c) n := by
  refine newLabelAt hc fun noReturn hl => ?_
  refine ((move hc).bind <| (condition hc hl).bind <| (iteratorClose hc hnest hl).bind <|
    (label hc hl).bind <| (move hc).bind <| throw hc hnest).congr ?_
  abel

theorem forOfFinalizer {outer : List (TryStatement E)} {next : Label} {around : Surroundings}
    (h : Context.Coherent ⟨around, outer⟩) (cfc : ControlFlowChange) (l : Option Label) :
    Emitting (outer.map TryStatement.catchTable) 0 (envCount around.nest)
      (compileForOfFinalizer outer next cfc l around) (envCount around.nest) := by
  have hc : Context.At ⟨around, outer⟩ (outer.map TryStatement.catchTable) (envCount around.nest) :=
    h.at
  unfold compileForOfFinalizer
  dsimp only
  split
  · refine newLabelAt hc fun noReturn hl => ?_
    refine ((iteratorClose hc h.nested hl).bind <| (move hc).bind <|
      (operation hc h.nested).bind <| label hc hl).congr ?_
    abel
  · exact pure

theorem forOfStatement (hbody : Compiles body) (need : Bool) (initializer expression : E) :
    Compiles fun c => compileForOfStatement c labels need initializer expression body := by
  intro c K n h hc
  obtain rfl := hc.envs
  refine newLabelAt hc fun next hnext => newLabel fun last hlast => ?_
  let t := c.newLabelTarget .forOfStatement last (some next) need
  let pushed := c.pushLabelTarget t
  have ht : t.Fits c.nest := ⟨rfl, hlast, next, rfl, hnext⟩
  have hloop := h.enter ht
  have hl := hc.enter t
  have hblock (r : Range) (hr : r.depth = pushed.currentTryStatementDepth)
      (hnote : r.handler.note = envCount c.nest + need.toNat) :
      Emitting (r :: K) {next.id} (envCount c.nest)
        (compileForOfTryBlock t next c.nest initializer body r
          (pushed.newTryStatement r (some (compileForOfFinalizer pushed.tryStatements next))))
        (envCount c.nest + need.toNat) := by
    have hdepth (s : Range) (hs : .tryBlock s ∈ c.nest) : s.depth < r.depth :=
      hr ▸ h.depth s hs
    have hb := (hc.push t).newTryStatement
      (some (compileForOfFinalizer pushed.tryStatements next)) hdepth
    have hin := hl.newTryStatement (some (compileForOfFinalizer pushed.tryStatements next))
      fun s hs => hdepth s (by simpa [Context.enter, Context.pushLabelTarget] using hs)
    have hgood : (((c.pushLabelTarget t).enter t).newTryStatement r
        (some (compileForOfFinalizer pushed.tryStatements next))).Accepts := by
      refine hloop.newTryStatement hnote hr ?_
      rintro f ⟨⟩ cfc l around haround
      exact forOfFinalizer haround cfc l
    refine ((move hb).bind <| (label hb hnext).bind <| (createLoopEnv hb).bind <|
      (operation hin hgood.nested).bind <| (move hin).bind <| (operation hin hgood.nested).bind <|
      (operation hin hgood.nested).bind <| (condition hin hlast).bind <|
      (operation hin hgood.nested).bind <| (move hin).bind <| (code hin hgood.nested).bind <|
      hbody _ _ _ hgood hin).congr ?_
    abel
  have htry := emitting_constructTry (hc.push t) h.depth (b := ⟨(c.pushLabelTarget t).enter t,
    some next, some (compileForOfFinalizer pushed.tryStatements next),
    compileForOfTryBlock t next c.nest initializer body, Pure.pure (), need,
    compileForOfHandler ((c.pushLabelTarget t).enter t)⟩) hl
    (by rintro l ⟨⟩; exact hnext) hblock pure (forOfHandler hl hloop.nested) (by rintro ⟨⟩)
  refine ((code hc h.nested).bind <| (operation hc h.nested).bind <| (move hc).bind <|
    (operation hc h.nested).bind <| (move hc).bind <| (updateName2LabelTarget _ _).bind <|
    htry.bind <| (label hl hlast).bind <| popLoopEnvIfNeeded hl).congr ?_
  abel

theorem newLabels {L : Multiset ℕ} {a b : ℕ} (k : ℕ) {f : List Label → Gen E Unit}
    (h : ∀ ls : List Label, ls.length = k → (∀ l ∈ ls, l.note = n) →
      Emitting K ((ls.map FlatCode.Label.id : List ℕ) + L) a (f ls) b) :
    Emitting K L a (Gen.newLabels n k >>= f) b := by
  induction k generalizing f L with
  | zero => exact (h [] rfl (by simp)).congr (zero_add L).symm
  | succ k ih =>
    unfold Gen.newLabels
    simp only [bind_assoc, pure_bind]
    refine newLabel fun l hl => ih fun ls hlength hls => ?_
    refine (h (l :: ls) (by simp [hlength]) (List.forall_mem_cons.mpr ⟨hl, hls⟩)).congr ?_
    rw [List.map_cons, ← Multiset.cons_coe, ← Multiset.singleton_add]
    abel

theorem jumpIfCases {K : List Range} {n : ℕ} (hc : c.At K n) (hnest : Nested c.nest)
    (clauses : List (Clause E × Label)) (hl : ∀ x ∈ clauses, x.2.note = n) :
    Emitting K 0 n (jumpIfCases c clauses) n := by
  induction clauses with
  | nil => exact pure
  | cons x rest ih =>
    obtain ⟨⟨e, statements⟩, l⟩ := x
    have hrest := ih fun y hy => hl y (.tail _ hy)
    cases e with
    | none => exact pure.bind hrest
    | some e =>
      exact ((code hc hnest).bind (condition hc (hl _ (.head _)))).bind hrest

theorem caseStatements (h : c.Accepts) (hc : c.At K n) (clauses : List (Clause E × Label))
    (hall : ∀ x ∈ clauses, x.2.note = n ∧ Compiles x.1.statements) :
    Emitting K ((clauses.map fun x => x.2.id : List ℕ)) n (compileCaseStatements c clauses) n := by
  induction clauses with
  | nil => exact pure
  | cons x rest ih =>
    obtain ⟨clause, l⟩ := x
    have hrest := ih fun y hy => hall y (.tail _ hy)
    obtain ⟨hl, hclause⟩ := hall _ (.head _)
    refine ((label hc hl).bind <| (hclause _ _ _ h hc).bind hrest).congr ?_
    rw [List.map_cons, ← Multiset.cons_coe, ← Multiset.singleton_add]
    abel

theorem defaultTarget_note {l : Label} (hl : l.note = n) {clauses : List (Clause E × Label)}
    (hall : ∀ x ∈ clauses, x.2.note = n) :
    (defaultTarget l clauses).note = n := by
  unfold defaultTarget
  split
  · next i caseLabel hlast =>
    split
    · obtain ⟨entry, hentry, heq⟩ := List.mem_map.mp (List.mem_of_getLast? hlast)
      obtain ⟨-, rfl⟩ := Prod.mk.inj heq
      have hmem := (List.mem_filter.mp hentry).1
      exact hall entry.1 (List.fst_mem_of_mem_zipIdx hmem)
    · exact hl
  · exact hl

theorem switchStatement {clauses : List (Clause E)}
    (hall : ∀ clause ∈ clauses, Compiles clause.statements) (expression : E) :
    Compiles fun c => compileSwitchStatement c labels expression clauses := by
  intro c K n h hc
  obtain rfl := hc.envs
  refine newLabelAt hc fun last hlast => newLabels _ fun ls hlength hls => ?_
  let t := c.newLabelTarget .switchStatement last (getCloseContinueTarget c) false
  have ht : t.Fits c.nest := by
    refine ⟨rfl, rfl, hlast, ?_⟩
    rw [← closeContinueTarget_eq h.nested, ← h.targets]
    rfl
  have hin := h.enter ht
  have hi : ((c.pushLabelTarget t).enter t).At K (envCount c.nest) := hc.enter t
  have hnotes : ∀ x ∈ clauses.zip ls, x.2.note = envCount c.nest := fun x hx =>
    hls _ (List.of_mem_zip hx).2
  have hcheck : Emitting K 0 (envCount c.nest)
      (checkDefaultNum (defaultLabels (clauses.zip ls)).length : Gen E Unit) (envCount c.nest) := by
    unfold checkDefaultNum
    split
    · exact failure
    · exact pure
  have hcases := caseStatements hin hi (clauses.zip ls) fun x hx =>
    ⟨hnotes x hx, hall _ (List.of_mem_zip hx).1⟩
  have hids : (clauses.zip ls).map (fun x => x.2.id) = ls.map FlatCode.Label.id := by
    have hsnd : (clauses.zip ls).map Prod.snd = ls := List.map_snd_zip (Nat.le_of_eq hlength)
    rw [← hsnd, List.map_map, hsnd]
    rfl
  rw [hids] at hcases
  refine ((updateName2LabelTarget _ _).bind <| (code hi hin.nested).bind <| (move hi).bind <|
    (jumpIfCases hi hin.nested _ hnotes).bind <| hcheck.bind <|
    (branch hi (defaultTarget_note hlast hnotes)).bind <| hcases.bind <| label hi hlast).congr ?_
  abel

theorem getLabelTarget {L : Multiset ℕ} {a b : ℕ} {name : Option String}
    {f : Option ℕ × LabelTarget → Gen E Unit}
    (h : ∀ target t, c.labelTargets.find? (LabelTarget.chosenBy target) = some t →
      Emitting K L a (f (target, t)) b) :
    Emitting K L a (getLabelTarget c name >>= f) b := by
  intro pg pg' hlive hm
  obtain ⟨⟨target, t⟩, pg₁, hm₁, hm₂⟩ := bind_eq_some.mp hm
  unfold Compiler.getLabelTarget at hm₁
  obtain ⟨target', -, hm₁⟩ := Option.bind_eq_some_iff.mp hm₁
  obtain ⟨t', hfind, hm₁⟩ := Option.bind_eq_some_iff.mp hm₁
  obtain ⟨⟨rfl, rfl⟩, rfl⟩ : (target' = target ∧ t' = t) ∧ pg = pg₁ := by simpa using hm₁
  exact h _ _ hfind pg pg' hlive hm₂

theorem popAndBranch (h : c.Accepts) (hc : c.At K n) {change : ControlFlowChange} {name : Option ℕ}
    {t : LabelTarget} {l : Label}
    (hfind : c.labelTargets.find? (LabelTarget.chosenBy name) = some t)
    (hl : t.label change = some l) : Emitting K 0 n (popAndBranch c change name t l) n := by
  obtain rfl := hc.envs
  rw [h.targets] at hfind
  have htimes : (if t.loopEnvLevel = 0 then 0 else t.popTimes (change = .continue)) =
      t.popTimes (change = .continue) := by
    split
    · next hzero =>
      unfold LabelTarget.popTimes
      split <;> simp [hzero]
    · rfl
  have hle : t.popTimes (change = .continue) ≤ envCount c.nest := popTimes_le h.nested hfind
  have hsum := Nat.sub_add_cancel hle
  unfold Compiler.popAndBranch
  rw [htimes]
  have hpops := popLoopEnv (a := envCount c.nest - t.popTimes (change = .continue)) hc
    (t.popTimes (change = .continue))
  rw [hsum] at hpops
  exact hpops.bind (add hc (.jump h.nested rfl hfind hl hsum) rfl)

theorem breakStatement (label : Option String) :
    Compiles fun c : Context E => compileBreakStatement c label := by
  intro c K n h hc
  exact getLabelTarget fun name t hfind =>
    (emitting_compileFinallyBeforeCFC h hc _ _ _).bind (popAndBranch h hc hfind rfl)

theorem continueStatement (label : Option String) :
    Compiles fun c : Context E => compileContinueStatement c label := by
  intro c K n h hc
  refine getLabelTarget fun name t hfind => ?_
  dsimp only
  cases hcont : t.continueTargetLabel with
  | none => exact failure
  | some l =>
    have hl : t.label .continue = some l := hcont
    exact (emitting_compileFinallyBeforeCFC h hc _ _ _).bind (popAndBranch h hc hfind hl)

theorem returnStatement (expression check : Option E) :
    Compiles fun c => compileReturnStatement c expression check := by
  intro c K n h hc
  obtain rfl := hc.envs
  exact (expressions hc h.nested _).bind <| (move hc).bind <|
    (emitting_compileFinallyBeforeCFC h hc _ _ _).bind <| (move hc).bind <|
    (expressions hc h.nested _).bind <| add hc .return rfl

theorem throwStatement (expression : E) :
    Compiles fun c => compileThrowStatement c expression := by
  intro c K n h hc
  obtain rfl := hc.envs
  refine ((code hc h.nested).bind ?_).congr (zero_add 0).symm
  have htries := h.tries
  cases hs : c.tryStatements with
  | nil =>
    rw [hs] at htries
    refine (pure.bind (add hc (.throwStatement h.nested rfl fun r level outer heq => ?_) rfl)).congr
      (zero_add 0).symm
    rw [heq] at htries
    cases htries
  | cons t outer =>
    rw [hs] at htries
    have hlevel := level_le htries.symm
    have hsum := Nat.sub_add_cancel hlevel
    have hpops := popLoopEnv (a := envCount c.nest - t.loopEnvLevel) hc t.loopEnvLevel
    rw [hsum] at hpops
    refine (hpops.bind (add hc (.throwStatement h.nested rfl fun r level outer' heq => ?_) rfl)).congr
      (zero_add 0).symm
    rw [heq] at htries
    obtain rfl : t.loopEnvLevel = level := (Prod.mk.inj (List.cons.inj htries).1).2
    exact hsum

theorem labeledBlock {names : List String} (hbody : Compiles body) :
    Compiles fun c => compileLabeledBlock c names body := by
  intro c K n h hc
  obtain rfl := hc.envs
  refine newLabelAt hc fun last hlast => ?_
  have ht : (c.newLabelTarget .labeledStatement last none false).Fits c.nest :=
    ⟨rfl, rfl, hlast, rfl⟩
  have hin := h.enter ht
  have hi := hc.enter (c.newLabelTarget .labeledStatement last none false)
  refine ((updateName2LabelTarget _ _).bind <| (hbody _ _ _ hin hi).bind <|
    label hi hlast).congr ?_
  abel

theorem labeledStatement {isBlockOrIf : Bool} {name : String}
    {statement : List String → CompileStatement E} (hbody : ∀ names, Compiles (statement names)) :
    Compiles fun c => compileLabeledStatement c name labels isBlockOrIf statement := by
  intro c K n h hc
  refine (bind ?_ (deleteName2LabelTarget name)).congr (zero_add 0).symm
  split
  · exact labeledBlock (hbody []) c K n h hc
  · exact hbody _ c K n h hc

theorem ifThen {thenStatement : CompileStatement E} (hthen : Compiles thenStatement)
    (expression : Condition E) : Compiles fun c => compileIfThen c expression thenStatement := by
  intro c K n h hc
  refine newLabelAt hc fun last hlast => ?_
  refine ((condition' hc h.nested hlast _).bind <| (hthen _ _ _ h hc).bind <|
    label hc hlast).congr ?_
  abel

theorem ifElse {thenStatement elseStatement : CompileStatement E} (hthen : Compiles thenStatement)
    (helse : Compiles elseStatement) (expression : Condition E) :
    Compiles fun c => compileIfElse c expression thenStatement elseStatement := by
  intro c K n h hc
  refine newLabelAt hc fun other hother => newLabelAt hc fun last hlast => ?_
  refine ((condition' hc h.nested hother _).bind <| (hthen _ _ _ h hc).bind <|
    (branch hc hlast).bind <| (label hc hother).bind <| (helse _ _ _ h hc).bind <|
    label hc hlast).congr ?_
  abel

theorem tryCatch {tryBlock catchBlock : CompileStatement E} (htry : Compiles tryBlock)
    (hcatch : Compiles catchBlock) (variableDeclaration : Option E) :
    Compiles fun c => compileTryCatch c tryBlock variableDeclaration catchBlock := by
  intro c K n h hc
  obtain rfl := hc.envs
  refine emitting_constructTry hc h.depth hc (by rintro l ⟨⟩) (fun r hr hnote => ?_) pure
    ((expressions hc h.nested _).bind (hcatch _ _ _ h hc)) fun _ => rfl
  exact htry _ _ _ (h.newTryStatement hnote hr (by rintro f ⟨⟩))
    (hc.newTryStatement none fun s hs => hr ▸ h.depth s hs)

theorem tryFinally {tryBlock finallyBlock : CompileStatement E} (htry : Compiles tryBlock)
    (hfinally : Compiles finallyBlock) :
    Compiles fun c => compileTryFinally c tryBlock finallyBlock := by
  intro c K n h hc
  obtain rfl := hc.envs
  refine emitting_constructTry hc h.depth hc (by rintro l ⟨⟩) (fun r hr hnote => ?_)
    (hfinally _ _ _ h hc)
    ((move hc).bind <| (hfinally _ _ _ h hc).bind <| (move hc).bind <| throw hc h.nested)
    fun _ => rfl
  refine htry _ _ _ (h.newTryStatement hnote hr ?_)
    (hc.newTryStatement _ fun s hs => hr ▸ h.depth s hs)
  rintro f ⟨⟩ cfc l around haround
  exact hfinally _ _ _ ⟨haround, h.chain⟩ haround.at

end Emitting

mutual

/-- What a statement is compiled into is put together properly. -/
theorem compiles_compileStatement : ∀ (s : Stmt E) (labels : List String),
    Compiles (compileStatement s labels)
  | .expression _, _ => fun _ _ _ h hc => .code hc h.nested
  | .block _ statements, _ => fun c K n h hc =>
    (Emitting.expressions hc h.nested _).bind (compiles_compileStatements statements c K n h hc)
  | .ifThen expression s, _ => .ifThen (compiles_compileStatement s []) expression
  | .ifElse expression s s', _ =>
    .ifElse (compiles_compileStatement s []) (compiles_compileStatement s' []) expression
  | .doWhile need s expression, _ =>
    .doStatement (compiles_compileStatement s []) need expression
  | .while need expression s, _ =>
    .whileStatement (compiles_compileStatement s []) need expression
  | .for header s, _ => .forStatement (compiles_compileStatement s []) header
  | .forIn need initializer expression s, _ =>
    .forInStatement (compiles_compileStatement s []) need initializer expression
  | .forOf need initializer expression s, _ =>
    .forOfStatement (compiles_compileStatement s []) need initializer expression
  | .switch expression clauses, _ => .switchStatement (compiles_compileClauses clauses) expression
  | .labeled _ s, _ => .labeledStatement (compiles_compileStatement s)
  | .continue label, _ => .continueStatement label
  | .break label, _ => .breakStatement label
  | .return expression check, _ => .returnStatement expression check
  | .throw expression, _ => .throwStatement expression
  | .tryCatch s variableDeclaration statements, _ =>
    .tryCatch (compiles_compileStatement s []) (compiles_compileStatements statements)
      variableDeclaration
  | .tryFinally s s', _ =>
    .tryFinally (compiles_compileStatement s []) (compiles_compileStatement s' [])

theorem compiles_compileStatements : ∀ s : Stmts E, Compiles (compileStatements s)
  | .nil => fun _ _ _ _ _ => .pure
  | .cons s rest => fun c K n h hc =>
    (compiles_compileStatement s [] c K n h hc).bind (compiles_compileStatements rest c K n h hc)

theorem compiles_compileClauses : ∀ (s : Clauses E), ∀ clause ∈ compileClauses s,
    Compiles clause.statements
  | .nil => by simp [compileClauses]
  | .case _ statements rest => by
    rw [compileClauses, List.forall_mem_cons]
    exact ⟨compiles_compileStatements statements, compiles_compileClauses rest⟩
  | .default statements rest => by
    rw [compileClauses, List.forall_mem_cons]
    exact ⟨compiles_compileStatements statements, compiles_compileClauses rest⟩

end

theorem Context.accepts_empty : (Context.empty : Context E).Accepts where
  targets := rfl
  tries := rfl
  nested := trivial
  depth := by rintro r ⟨⟩
  chain := .nil

theorem emits_compileFunctionBody {s : Stmts E} {pg : PandaGen E}
    (h : compileFunctionBody s = some pg) : Emits [] 0 PandaGen.empty pg.insns pg := by
  obtain ⟨⟨⟨⟩, pg'⟩, hrun, rfl⟩ := Option.map_eq_some_iff.mp h
  have hc : (Context.empty : Context E).At [] 0 := ⟨rfl, rfl, trivial, rfl⟩
  have hall : Emitting [] (0 + (0 + 0)) 0 (do
      compileStatements s Context.empty
      Context.empty.add .move
      Context.empty.add .return) 0 :=
    (compiles_compileStatements s _ _ _ Context.accepts_empty hc).bind <|
      (Emitting.move hc).bind <| Emitting.add hc .return rfl
  obtain ⟨new, hnew, -⟩ := hall PandaGen.empty pg' rfl hrun
  have hinsns := hnew.insns_eq
  rw [show (PandaGen.empty : PandaGen E).insns = [] from rfl, List.nil_append] at hinsns
  rw [hinsns]
  simpa using hnew

end ArkTs2abc.Ts2panda.Compiler
