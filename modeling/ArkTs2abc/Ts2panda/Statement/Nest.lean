import ArkTs2abc.Ts2panda.Statement.LabelTarget

/-!
# What the counters say about the nest

`Nested` says that the labels and handlers in a nest are noted with the depths that
the nest gives them. For such a nest the counters of the targets and of the try
statements can be read off it, and it is plain arithmetic when they bring a jump, a
throw or a finalizer to the depth that its label is noted with.

## Main definitions

* `LabelTarget.Fits`, `Nested` — the notes of a nest.
* `tries` — try statements with their counters.

## Main results

* `jumpBalanced_iff`, `handlerBalanced_iff`, `throwBalanced_iff` — when the depth is right.
-/

namespace ArkTs2abc.Ts2panda.Compiler

/-- A target as it is constructed, with the notes that its labels have around it. -/
def LabelTarget.Fits (t : LabelTarget) (nest : List Frame) : Prop :=
  t.loopEnvLevel = t.envs ∧
  match t.node with
  | .doStatement | .forStatement => t.breakTargetLabel.note = envCount nest + t.envs ∧
      ∃ l, t.continueTargetLabel = some l ∧ l.note = envCount nest + t.envs
  | .whileStatement | .forInStatement | .forOfStatement =>
      t.breakTargetLabel.note = envCount nest + t.envs ∧
      ∃ l, t.continueTargetLabel = some l ∧ l.note = envCount nest
  | .switchStatement => t.hasLoopEnv = false ∧ t.breakTargetLabel.note = envCount nest ∧
      t.continueTargetLabel = (enclosingLoop nest).bind LabelTarget.continueTargetLabel
  | .labeledStatement => t.hasLoopEnv = false ∧ t.breakTargetLabel.note = envCount nest ∧
      t.continueTargetLabel = none

/-- The labels and handlers of the nest have the notes that they ought to have. -/
def Nested : List Frame → Prop
  | [] => True
  | .target t :: nest => t.Fits nest ∧ Nested nest
  | .tryBlock r :: nest =>
    r.handler.note = envCount nest ∧ (∀ s, .tryBlock s ∈ nest → s.depth < r.depth) ∧ Nested nest
  | .finalizer r :: nest => r ∈ openRanges nest ∧ Nested nest

/-- The nest, as far as the try statements in it go. -/
def WellNested : List Frame → Prop
  | [] => True
  | .target _ :: nest => WellNested nest
  | .tryBlock r :: nest => (∀ s, .tryBlock s ∈ nest → s.depth < r.depth) ∧ WellNested nest
  | .finalizer r :: nest => r ∈ openRanges nest ∧ WellNested nest

/-- The try statements of a nest without finalizers, each with the environments that loops have
pushed while it was the innermost one. -/
def tries : List Frame → List (Range × ℕ)
  | [] => []
  | .target t :: nest =>
    match tries nest with
    | [] => []
    | (r, level) :: outer => (r, level + t.envs) :: outer
  | .tryBlock r :: nest => (r, 0) :: tries nest
  | .finalizer _ :: nest => tries nest

section OpenRanges

variable {r : Range} {t : LabelTarget} {nest : List Frame}

theorem map_fst_tries (nest : List Frame) : (tries nest).map Prod.fst = nest.filterMap fun
    | .tryBlock r => some r
    | _ => none := by
  induction nest with
  | nil => rfl
  | cons f nest ih =>
    cases f with
    | target t =>
      simp only [tries, List.filterMap_cons, ← ih]
      split <;> simp_all
    | tryBlock r => simp [tries, ← ih]
    | finalizer r => simpa [tries] using ih

theorem openRanges_eq_map (nest : List Frame) :
    openRanges nest = (tries (lexical nest)).map Prod.fst := (map_fst_tries _).symm

@[simp]
theorem openRanges_nil : openRanges [] = [] := rfl

@[simp]
theorem openRanges_target : openRanges (.target t :: nest) = openRanges nest := rfl

@[simp]
theorem openRanges_tryBlock : openRanges (.tryBlock r :: nest) = r :: openRanges nest := rfl

theorem tries_outside (r : Range) (nest : List Frame) :
    tries (outside r nest) = ((tries nest).dropWhile fun x => x.1 ≠ r).tail := by
  induction nest with
  | nil => rfl
  | cons f nest ih =>
    cases f with
    | target t =>
      have h : outside r (.target t :: nest) = outside r nest := by simp [outside]
      rw [h, ih]
      cases hnest : tries nest with
      | nil => simp [tries, hnest]
      | cons x xs => by_cases hx : x.1 = r <;> simp [tries, hnest, hx]
    | tryBlock s =>
      by_cases hs : s = r
      · simp [outside, tries, hs]
      · simpa [outside, tries, hs] using ih
    | finalizer s => simpa [outside, tries] using ih

theorem tries_lexical_finalizer (r : Range) (nest : List Frame) :
    tries (lexical (.finalizer r :: nest)) =
      ((tries (lexical nest)).dropWhile fun x => x.1 ≠ r).tail :=
  tries_outside r _

theorem mem_of_mem_outside {f : Frame} (h : f ∈ outside r nest) : f ∈ nest :=
  (List.dropWhile_suffix _).subset (List.mem_of_mem_tail h)

theorem mem_of_mem_lexical {f : Frame} (h : f ∈ lexical nest) : f ∈ nest := by
  induction nest with
  | nil => exact h
  | cons g nest ih =>
    cases g with
    | target t => exact (List.mem_cons.mp h).elim (fun h => h ▸ .head _) fun h => .tail _ (ih h)
    | tryBlock s => exact (List.mem_cons.mp h).elim (fun h => h ▸ .head _) fun h => .tail _ (ih h)
    | finalizer s => exact .tail _ (ih (mem_of_mem_outside h))

theorem mem_openRanges : r ∈ openRanges nest ↔ .tryBlock r ∈ lexical nest := by
  unfold openRanges
  rw [List.mem_filterMap]
  constructor
  · rintro ⟨f, hf, hr⟩
    cases f with
    | tryBlock s => exact Option.some.inj hr ▸ hf
    | target t => cases hr
    | finalizer s => cases hr
  · intro h
    exact ⟨_, h, rfl⟩

theorem tryBlock_mem (h : r ∈ openRanges nest) : .tryBlock r ∈ nest :=
  mem_of_mem_lexical (mem_openRanges.mp h)

theorem Nested.wellNested (h : Nested nest) : WellNested nest := by
  induction nest with
  | nil => trivial
  | cons f nest ih =>
    cases f with
    | target t => exact ih h.2
    | tryBlock r => exact ⟨h.2.1, ih h.2.2⟩
    | finalizer r => exact ⟨h.1, ih h.2⟩

theorem WellNested.pairwise (h : WellNested nest) :
    (openRanges nest).Pairwise fun r s => s.depth < r.depth := by
  induction nest with
  | nil => exact .nil
  | cons f nest ih =>
    cases f with
    | target t => exact ih h
    | tryBlock r => exact List.pairwise_cons.mpr ⟨fun s hs => h.1 s (tryBlock_mem hs), ih h.2⟩
    | finalizer r =>
      have hsub : (openRanges (.finalizer r :: nest)).Sublist (openRanges nest) := by
        rw [openRanges_eq_map, openRanges_eq_map, tries_lexical_finalizer]
        exact (((List.tail_sublist _).trans (List.dropWhile_sublist _))).map _
      exact (ih h.2).sublist hsub

theorem WellNested.tryBlock_mem_of_finalizer (h : WellNested nest) (hr : .finalizer r ∈ nest) :
    .tryBlock r ∈ nest := by
  induction nest with
  | nil => cases hr
  | cons f nest ih =>
    cases f with
    | target t => exact .tail _ (ih h (by simpa using hr))
    | tryBlock s => exact .tail _ (ih h.2 (by simpa using hr))
    | finalizer s =>
      rcases List.mem_cons.mp hr with heq | hr
      · cases heq
        exact .tail _ (tryBlock_mem h.1)
      · exact .tail _ (ih h.2 hr)

theorem WellNested.tryBlock_mem_inside {s : Range} (h : WellNested nest) (hr : .tryBlock r ∈ nest)
    (hs : .tryBlock s ∈ nest) : .tryBlock s ∈ inside r nest ↔ r.depth < s.depth := by
  induction nest with
  | nil => cases hr
  | cons f nest ih =>
    cases f with
    | target t => simpa [inside] using ih h (by simpa using hr) (by simpa using hs)
    | finalizer u => simpa [inside] using ih h.2 (by simpa using hr) (by simpa using hs)
    | tryBlock u =>
      by_cases hu : u = r
      · subst hu
        rcases List.mem_cons.mp hs with heq | hs
        · cases heq
          simp [inside]
        · have hlt := h.1 s hs
          simp only [inside, decide_not, ne_eq, List.takeWhile_cons, decide_true, Bool.not_true,
            Bool.false_eq_true, if_false, List.not_mem_nil, false_iff]
          omega
      · have hr : .tryBlock r ∈ nest := by simpa [Ne.symm hu] using hr
        by_cases hus : u = s
        · subst hus
          simp [inside, hu, h.1 r hr]
        · have hs : .tryBlock s ∈ nest := by simpa [Ne.symm hus] using hs
          simpa [inside, hu, Ne.symm hus] using ih h.2 hr hs

theorem mem_dropWhile_tail {s : Range} {rs : List Range}
    (h : rs.Pairwise fun r s => s.depth < r.depth) (hs : s ∈ rs) :
    r ∈ (rs.dropWhile (· ≠ s)).tail ↔ r ∈ rs ∧ r.depth < s.depth := by
  induction rs with
  | nil => cases hs
  | cons u rs ih =>
    obtain ⟨hu, hrs⟩ := List.pairwise_cons.mp h
    by_cases hus : u = s
    · subst hus
      simp only [ne_eq, decide_not, List.dropWhile_cons, decide_true, Bool.not_true,
        Bool.false_eq_true, if_false, List.tail_cons, List.mem_cons]
      refine ⟨fun hr => ⟨.inr hr, hu r hr⟩, ?_⟩
      rintro ⟨rfl | hr, hlt⟩
      · exact absurd hlt (Nat.lt_irrefl _)
      · exact hr
    · have hmem : s ∈ rs := by simpa [Ne.symm hus] using hs
      have hdrop : (u :: rs).dropWhile (· ≠ s) = rs.dropWhile (· ≠ s) := by simp [hus]
      rw [hdrop, ih hrs hmem, List.mem_cons]
      refine ⟨fun h => ⟨.inr h.1, h.2⟩, ?_⟩
      rintro ⟨rfl | hr, hlt⟩
      · exact absurd hlt (Nat.lt_asymm (hu s hmem))
      · exact ⟨hr, hlt⟩

/-- The table of a try statement is meant for what stands in its block, except for the finalizers
compiled in place whose own block is not in there: its own, and those of the try statements around
that are left together with it. -/
theorem mem_openRanges_iff (h : WellNested nest) :
    r ∈ openRanges nest ↔ .tryBlock r ∈ nest ∧
      ∀ s, .finalizer s ∈ inside r nest → .tryBlock s ∈ inside r nest := by
  induction nest with
  | nil => simp
  | cons f nest ih =>
    cases f with
    | target t => simpa [inside] using ih h
    | tryBlock u =>
      by_cases hu : u = r
      · subst hu
        simp [inside]
      · have hne : Frame.tryBlock r ≠ .tryBlock u := fun heq => hu (Frame.tryBlock.inj heq).symm
        rw [openRanges_tryBlock, List.mem_cons, ih h.2]
        simp only [inside, List.takeWhile_cons, ne_eq, Frame.tryBlock.injEq, hu, not_false_eq_true,
          decide_true, if_true, List.mem_cons, reduceCtorEq, false_or, Ne.symm hu]
        refine and_congr_right fun hr => forall_congr' fun s => imp_congr_right fun hs => ?_
        refine ⟨.inr, ?_⟩
        rintro (heq | hmem)
        · obtain rfl := heq
          have hself := h.1 s (h.2.tryBlock_mem_of_finalizer ((List.takeWhile_sublist _).subset hs))
          exact absurd hself (Nat.lt_irrefl _)
        · exact hmem
    | finalizer s =>
      obtain ⟨hs, hnest⟩ := h
      have hopen : openRanges (.finalizer s :: nest) = ((openRanges nest).dropWhile (· ≠ s)).tail := by
        rw [openRanges_eq_map, openRanges_eq_map, tries_lexical_finalizer, List.map_tail,
          List.dropWhile_map]
        rfl
      have hblock : inside r (.finalizer s :: nest) = .finalizer s :: inside r nest := by
        simp [inside]
      rw [hopen, mem_dropWhile_tail hnest.pairwise hs, ih hnest, hblock]
      simp only [List.mem_cons, reduceCtorEq, false_or, Frame.finalizer.injEq, forall_eq_or_imp]
      constructor
      · rintro ⟨⟨hr, hall⟩, hlt⟩
        exact ⟨hr, (hnest.tryBlock_mem_inside hr (tryBlock_mem hs)).mpr hlt, hall⟩
      · rintro ⟨hr, hmem, hall⟩
        exact ⟨⟨hr, hall⟩, (hnest.tryBlock_mem_inside hr (tryBlock_mem hs)).mp hmem⟩

end OpenRanges

section Counters

variable {r : Range} {t lt : LabelTarget} {name : Option ℕ} {nest around : List Frame} {crossed : ℕ}

theorem level_eq {level : ℕ} {outer : List (Range × ℕ)} (h : tries nest = (r, level) :: outer) :
    level = envCount (inside r nest) := by
  induction nest generalizing level outer with
  | nil => cases h
  | cons f nest ih =>
    cases f with
    | target t =>
      cases hnest : tries nest with
      | nil => simp [tries, hnest] at h
      | cons x xs =>
        obtain ⟨⟨rfl, rfl⟩, rfl⟩ : (x.1 = r ∧ x.2 + t.envs = level) ∧ xs = outer := by
          simpa [tries, hnest] using h
        have hlevel := ih hnest
        simp [inside] at hlevel ⊢
        simp [envCount, hlevel]
    | tryBlock s =>
      obtain ⟨⟨rfl, rfl⟩, -⟩ : (s = r ∧ 0 = level) ∧ tries nest = outer := by
        simpa [tries] using h
      simp [inside, envCount]
    | finalizer s => simpa [inside, envCount] using ih h

theorem Nested.handler_note (h : Nested nest) (hr : .tryBlock r ∈ nest) :
    r.handler.note + envCount (inside r nest) = envCount nest := by
  induction nest with
  | nil => cases hr
  | cons f nest ih =>
    cases f with
    | target t =>
      have ih := ih h.2 (by simpa using hr)
      simp [inside, envCount] at ih ⊢
      omega
    | tryBlock s =>
      by_cases hs : s = r
      · subst hs
        simp [inside, envCount, h.1]
      · have ih := ih h.2.2 (by simpa [Ne.symm hs] using hr)
        simpa [inside, envCount, hs] using ih
    | finalizer s => simpa [inside, envCount] using ih h.2 (by simpa using hr)

theorem handlerBalanced_iff (h : Nested nest) (hr : r ∈ openRanges nest) :
    envCount nest = r.handler.note ↔ HandlerBalanced r nest := by
  have hnote := h.handler_note (tryBlock_mem hr)
  unfold HandlerBalanced
  omega

theorem throwBalanced_iff (h : Nested nest) {level live : ℕ} {outer : List (Range × ℕ)}
    (hr : tries (lexical nest) = (r, level) :: outer) (hlive : live + level = envCount nest) :
    live = r.handler.note ↔ ThrowBalanced r nest := by
  have hmem : r ∈ openRanges nest := by
    rw [openRanges_eq_map, hr]
    exact .head _
  have hnote := h.handler_note (tryBlock_mem hmem)
  have hlevel := level_eq hr
  unfold ThrowBalanced
  omega

/-- `pushLabelTarget`, of a target with an environment, for the targets that are there. -/
def increased (lt : LabelTarget) : LabelTarget := if lt.onStack then lt.increaseLoopEnvLevel else lt

theorem chosenBy_increased (name : Option ℕ) (lt : LabelTarget) :
    (increased lt).chosenBy name = lt.chosenBy name := by
  unfold increased
  split <;> cases name <;> rfl

theorem find_pushTarget (targets : List LabelTarget) :
    (pushTarget t targets).find? (LabelTarget.chosenBy name) =
      if t.chosenBy name then some t
      else (targets.find? (LabelTarget.chosenBy name)).map fun lt =>
        if t.hasLoopEnv then increased lt else lt := by
  by_cases ht : t.chosenBy name
  · simp [pushTarget, ht]
  · have hcomp : LabelTarget.chosenBy name ∘ increased = LabelTarget.chosenBy name :=
      funext (chosenBy_increased name)
    cases henv : t.hasLoopEnv with
    | false => simp [pushTarget, ht, henv]
    | true =>
      have hpush : pushTarget t targets = t :: targets.map increased := by
        simp [pushTarget, henv, increased]
      rw [hpush, List.find?_cons_of_neg ht, List.find?_map, hcomp]
      simp [ht]

/-- What a jump names is looked up in the nest; the counter is what has been pushed since. -/
theorem leave_of_find (h : (targets nest).find? (LabelTarget.chosenBy name) = some lt) :
    ∃ crossed t around, leave name nest = some (crossed, t, around) ∧
      lt = { t with loopEnvLevel := t.loopEnvLevel + if t.onStack then crossed else 0 } := by
  induction nest generalizing lt with
  | nil => cases h
  | cons f nest ih =>
    cases f with
    | tryBlock s => exact ih h
    | finalizer s => exact ih h
    | target t =>
      rw [targets, find_pushTarget] at h
      by_cases ht : t.chosenBy name
      · obtain rfl : t = lt := by simpa [ht] using h
        exact ⟨0, t, nest, by simp [leave, ht], by simp⟩
      · rw [if_neg ht] at h
        obtain ⟨lt', hlt', rfl⟩ := Option.map_eq_some_iff.mp h
        obtain ⟨crossed, t', around, hleave, rfl⟩ := ih hlt'
        refine ⟨crossed + t.envs, t', around, by simp [leave, ht, hleave], ?_⟩
        cases henv : t.hasLoopEnv with
        | false => simp [LabelTarget.envs, henv]
        | true =>
          by_cases hstack : t'.onStack
          · have hstack' : t'.node ≠ .labeledStatement := by simpa [LabelTarget.onStack] using hstack
            simp [increased, LabelTarget.onStack, hstack', LabelTarget.increaseLoopEnvLevel,
              LabelTarget.envs, henv, Nat.add_assoc]
          · have hstack' : t'.node = .labeledStatement := by simpa [LabelTarget.onStack] using hstack
            simp [increased, LabelTarget.onStack, hstack']

theorem leave_fits (h : Nested nest) (hleave : leave name nest = some (crossed, t, around)) :
    t.Fits around ∧ Nested around ∧ envCount nest = envCount around + t.envs + crossed := by
  induction nest generalizing crossed with
  | nil => cases hleave
  | cons f nest ih =>
    cases f with
    | tryBlock s => exact ih h.2.2 hleave
    | finalizer s => exact ih h.2 hleave
    | target u =>
      by_cases hu : u.chosenBy name
      · obtain ⟨rfl, rfl, rfl⟩ : 0 = crossed ∧ u = t ∧ nest = around := by
          simpa [leave, hu] using hleave
        exact ⟨h.1, h.2, rfl⟩
      · rw [leave, if_neg hu] at hleave
        obtain ⟨⟨crossed', found⟩, hleave', heq⟩ := Option.map_eq_some_iff.mp hleave
        obtain ⟨rfl, rfl⟩ : crossed' + u.envs = crossed ∧ found = (t, around) := by simpa using heq
        obtain ⟨hfits, hnested, hcount⟩ := ih h.2 hleave'
        refine ⟨hfits, hnested, ?_⟩
        simp only [envCount, hcount]
        omega

theorem LabelTarget.Fits.envs_eq_zero (h : t.Fits nest) (ht : t.node.isLoop = false) :
    t.envs = 0 := by
  unfold LabelTarget.Fits at h
  cases hnode : t.node <;> simp_all [SyntaxKind.isLoop, LabelTarget.envs]

theorem enclosingLoop_fits (h : Nested nest) (hloop : enclosingLoop nest = some t) :
    ∃ outer, t.Fits outer ∧ t.node.isLoop ∧ envCount nest = envCount outer + t.envs := by
  induction nest with
  | nil => cases hloop
  | cons f nest ih =>
    cases f with
    | tryBlock s => exact ih h.2.2 hloop
    | finalizer s => exact ih h.2 hloop
    | target u =>
      by_cases hu : u.node.isLoop
      · obtain rfl : u = t := by simpa [enclosingLoop, hu] using hloop
        exact ⟨nest, h.1, hu, rfl⟩
      · obtain ⟨outer, hfits, hisLoop, hcount⟩ := ih h.2 (by simpa [enclosingLoop, hu] using hloop)
        refine ⟨outer, hfits, hisLoop, ?_⟩
        rw [envCount, hcount, h.1.envs_eq_zero (by simpa using hu)]
        rfl

theorem closeContinueTarget_eq (h : Nested nest) :
    ((targets nest).find? LabelTarget.onStack).bind LabelTarget.continueTargetLabel =
      (enclosingLoop nest).bind LabelTarget.continueTargetLabel := by
  induction nest with
  | nil => rfl
  | cons f nest ih =>
    cases f with
    | tryBlock s => exact ih h.2.2
    | finalizer s => exact ih h.2
    | target t =>
      have ih := ih h.2
      have hfits := h.1
      unfold LabelTarget.Fits at hfits
      cases hnode : t.node <;>
        simp_all [targets, pushTarget, LabelTarget.onStack, enclosingLoop, SyntaxKind.isLoop]

theorem continue_note_iff {l : Label} (h : Nested nest)
    (hl : (enclosingLoop nest).bind LabelTarget.continueTargetLabel = some l) :
    envCount nest = l.note ↔ ∀ loop, enclosingLoop nest = some loop →
      loop.hasLoopEnv = false ∨ loop.node = .doStatement ∨ loop.node = .forStatement := by
  obtain ⟨loop, hloop, hcont⟩ := Option.bind_eq_some_iff.mp hl
  obtain ⟨outer, ⟨-, hfits⟩, hisLoop, hcount⟩ := enclosingLoop_fits h hloop
  simp only [hloop, Option.some.injEq, forall_eq']
  cases hnode : loop.node <;> cases henv : loop.hasLoopEnv <;>
    simp_all [SyntaxKind.isLoop, LabelTarget.envs]

/-- A break or continue statement arrives at the depth of its label where `JumpBalanced` says. -/
theorem jumpBalanced_iff {change : ControlFlowChange} {l : Label} {live : ℕ} (h : Nested nest)
    (hfind : (targets nest).find? (LabelTarget.chosenBy name) = some lt)
    (hl : lt.label change = some l)
    (hlive : live + lt.popTimes (change = .continue) = envCount nest) :
    live = l.note ↔ JumpBalanced change name nest := by
  obtain ⟨crossed, t, around, hleave, rfl⟩ := leave_of_find hfind
  obtain ⟨⟨hlevel, hfits⟩, hnested, hcount⟩ := leave_fits h hleave
  have hiff : JumpBalanced change name nest ↔ t.Balanced change crossed around := by
    simp [JumpBalanced, hleave]
  rw [hiff]
  cases hnode : t.node with
  | switchStatement =>
    obtain ⟨henv, hbreak, hcont⟩ : t.hasLoopEnv = false ∧ t.breakTargetLabel.note = envCount around ∧
        t.continueTargetLabel = (enclosingLoop around).bind LabelTarget.continueTargetLabel := by
      simpa [hnode] using hfits
    have harrives : live = envCount around := by
      simp [LabelTarget.popTimes, LabelTarget.onStack, LabelTarget.envs, hnode, henv] at *
      omega
    cases change with
    | «break» =>
      obtain rfl : t.breakTargetLabel = l := by simpa [LabelTarget.label] using hl
      simp [LabelTarget.Balanced, hnode, harrives, hbreak]
    | «continue» =>
      have hl : t.continueTargetLabel = some l := hl
      simp only [LabelTarget.Balanced, hnode]
      rw [harrives, continue_note_iff hnested (hcont ▸ hl)]
  | labeledStatement =>
    obtain ⟨henv, hbreak, hcont⟩ : t.hasLoopEnv = false ∧ t.breakTargetLabel.note = envCount around ∧
        t.continueTargetLabel = none := by
      simpa [hnode] using hfits
    cases change with
    | «break» =>
      obtain rfl : t.breakTargetLabel = l := by simpa [LabelTarget.label] using hl
      simp [LabelTarget.popTimes, LabelTarget.onStack, LabelTarget.envs, LabelTarget.Balanced, hnode,
        henv] at *
      omega
    | «continue» => simp [LabelTarget.label, hcont] at hl
  | _ =>
    cases change <;> cases henv : t.hasLoopEnv <;>
      simp [LabelTarget.popTimes, LabelTarget.onStack, LabelTarget.envs, LabelTarget.Balanced,
        LabelTarget.label, hnode, henv] at * <;> grind

theorem popTimes_le {isContinue : Bool} (h : Nested nest)
    (hfind : (targets nest).find? (LabelTarget.chosenBy name) = some lt) :
    lt.popTimes isContinue ≤ envCount nest := by
  obtain ⟨crossed, t, around, hleave, rfl⟩ := leave_of_find hfind
  obtain ⟨⟨hlevel, -⟩, -, hcount⟩ := leave_fits h hleave
  have hle : t.loopEnvLevel + (if t.onStack then crossed else 0) ≤ envCount nest := by
    split <;> omega
  unfold LabelTarget.popTimes
  cases isContinue <;> split <;> simp <;> omega

theorem envCount_le_of_sublist {l l' : List Frame} (h : l.Sublist l') :
    envCount l ≤ envCount l' := by
  induction h with
  | slnil => exact Nat.le_refl _
  | cons f _ ih => cases f <;> simp only [envCount] <;> omega
  | cons_cons f _ ih => cases f <;> simp only [envCount] <;> omega

theorem lexical_sublist (nest : List Frame) : (lexical nest).Sublist nest := by
  induction nest with
  | nil => exact .slnil
  | cons f nest ih =>
    cases f with
    | target t => exact ih.cons_cons _
    | tryBlock r => exact ih.cons_cons _
    | finalizer r =>
      exact (((List.tail_sublist _).trans (List.dropWhile_sublist _)).trans ih).cons _

theorem level_le {level : ℕ} {outer : List (Range × ℕ)}
    (h : tries (lexical nest) = (r, level) :: outer) : level ≤ envCount nest := by
  rw [level_eq h]
  exact envCount_le_of_sublist ((List.takeWhile_sublist _).trans (lexical_sublist nest))

end Counters

end ArkTs2abc.Ts2panda.Compiler
