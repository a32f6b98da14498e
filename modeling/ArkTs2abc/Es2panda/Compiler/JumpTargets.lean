import ArkTs2abc.Es2panda.Compiler.JumpPlaces
import ArkTs2abc.Es2panda.Compiler.Statements
import Mathlib.Data.List.Sort

/-!
# Where labelled jumps lead

A labelled `break` is to lead to the end of its statement, and a `continue` to the next iteration of
its loop, closing the iterators of the `for-of` loops in between. Both are right as far as the
contexts of the statement are right, and nothing that belongs to another statement is in front of
them with the same label.

## Main definitions

* `LabelledBreak`, `Continue` — jumps at places in the program.
* `JumpsTo` — where the code of a jump ends up.
* `Hides` — a context in front of a statement's, with the label looked for.

## Main results

* `LabelledBreak.jumpsToEnd_iff` — a labelled `break` is right for blocks, loops and switches.
* `Continue.continues_iff` — a labelled `continue` is right for loops other than `for-of`.
-/

namespace ArkTs2abc.Es2panda.Jumps

open PandaGen

/-! ## The walk, over targets -/

section Walk

variable {cfc : ControlFlowChange} {name : LabelName}

theorem walk_append {ts : List LabelTarget} (us : List LabelTarget) (target : Option Label)
    (h : ∀ t ∈ ts, t.label cfc ≠ some name) :
    walk cfc name (ts ++ us) target = walk cfc name us (walk cfc name ts target) := by
  induction ts generalizing target with
  | nil => rfl
  | cons t ts ih =>
    have ht : t.label cfc ≠ some name := h t (by simp)
    simp only [List.cons_append, walk, ht, ↓reduceIte]
    exact ih _ fun t ht => h t (List.mem_cons_of_mem _ ht)

theorem walk_append_of_mem {ts : List LabelTarget} (us : List LabelTarget) (target : Option Label)
    (h : ∃ t ∈ ts, t.label cfc = some name) :
    walk cfc name (ts ++ us) target = walk cfc name ts target := by
  induction ts generalizing target with
  | nil => simp at h
  | cons t ts ih =>
    by_cases ht : t.label cfc = some name
    · simp only [List.cons_append, walk, ht, ↓reduceIte]
    · simp only [List.cons_append, walk, ht, ↓reduceIte]
      exact ih _ (by grind)

theorem mem_of_walk {ts : List LabelTarget} {target : Option Label} {l : Label}
    (h : walk cfc name ts target = some l) : target = some l ∨ ∃ t ∈ ts, t.target cfc = some l := by
  induction ts generalizing target with
  | nil => exact Or.inl h
  | cons t ts ih =>
    have hor : (t.target cfc).or target = some l → target = some l ∨ t.target cfc = some l := by
      cases t.target cfc <;> grind [Option.or]
    simp only [walk] at h
    split at h
    · rcases hor h with h | h
      · exact Or.inl h
      · exact Or.inr ⟨t, by simp, h⟩
    · rcases ih h with h | ⟨u, hu, h⟩
      · rcases hor h with h | h
        · exact Or.inl h
        · exact Or.inr ⟨t, by simp, h⟩
      · exact Or.inr ⟨u, by simp [hu], h⟩

attribute [simp] LabelTarget.named LabelTarget.target LabelTarget.label

theorem walk_labels (cfc : ControlFlowChange) {names : List String} {name : String} (hname : name ∈ names)
    (us : List LabelTarget) (target : Option Label) :
    walk cfc (.ident name) ((names.map fun name => .named none (.ident name)) ++ us) target =
      target := by
  induction names with
  | nil => simp at hname
  | cons x names ih =>
    by_cases hx : x = name
    · cases cfc <;> simp [walk, hx]
    · have hmem : name ∈ names := by grind
      cases cfc <;>
        simpa [walk, hx] using ih hmem

end Walk

/-! ## The links of a place -/

section Links

variable (num : Numbering)

/-- A link leads to nothing but its own statement. -/
structure Link.Own (l : Link) : Prop where
  breakTarget : ∀ t ∈ l.target.breakTarget, t = num.endLabel l.height
  continueTarget : ∀ t ∈ l.target.continueTarget, t = num.continueLabel l.height
  iterator : ∀ id ∈ l.iterator, id = num.iteratorId l.height ∧
    l.target.continueLabel = some .continue

attribute [simp] linkOf

attribute [simp] Numbering.loopTarget

attribute [simp] LabelTarget.loop

theorem FrameKind.contexts_own (h : ℕ) (k : FrameKind) :
    ∀ c ∈ k.contexts num h, (linkOf h c).Own num := by
  intro c hc
  cases k <;> simp only [FrameKind.contexts, List.mem_cons, List.not_mem_nil, or_false] at hc <;>
    rcases hc with rfl | rfl | rfl <;>
    constructor <;>
    simp [DynamicContext.target]

theorem Frame.labelContexts_own (h : ℕ) (f : Frame) :
    ∀ c ∈ f.labelContexts num h, (linkOf h c).Own num := by
  intro c hc
  obtain ⟨target, name, rfl, htarget⟩ : ∃ target name,
      c = .label (.named target name) ∧ ∀ t ∈ target, t = num.endLabel h := by
    unfold Frame.labelContexts at hc
    split at hc
    · simp at hc
    · rcases List.mem_cons.1 hc with rfl | hc
      · exact ⟨_, _, rfl, by split <;> simp⟩
      · obtain ⟨name, -, rfl⟩ := List.mem_map.1 hc
        exact ⟨none, _, rfl, by simp⟩
  constructor
  · exact htarget
  · simp [DynamicContext.target]
  · simp

theorem Frame.links_own (h : ℕ) (f : Frame) : ∀ l ∈ f.links num h, l.Own num := by
  intro l hl
  obtain ⟨c, hc, rfl⟩ := List.mem_map.1 hl
  rcases List.mem_append.1 hc with hc | hc
  · exact f.kind.contexts_own num h c hc
  · exact f.labelContexts_own num h c hc

theorem Place.links_own (p : Place) : ∀ l ∈ p.links num, l.Own num := by
  induction p with
  | function isPlain =>
    intro l hl
    cases isPlain with
    | true => simp [Place.links, linksOf, Place.entries, Place.state] at hl
    | false =>
      obtain rfl : l = linkOf 0 (.try { id := (num.tryContext 0).id }) := by
        simpa [Place.links, linksOf, Place.entries, Place.state] using hl
      constructor <;> simp [DynamicContext.target]
  | inside f outer ih =>
    intro l hl
    rw [links_inside] at hl
    rcases List.mem_append.1 hl with hl | hl
    · exact f.links_own num _ l hl
    · exact ih l hl
  | inlined exit h ih =>
    rw [links_inlined]
    exact ih

/-- The statements whose iterators are in the contexts. -/
def iteratorHeights (links : List Link) : List ℕ :=
  (links.filter (·.iterator.isSome)).map (·.height)

attribute [simp] FrameKind.contexts

theorem Frame.iteratorHeights_links (h : ℕ) (f : Frame) :
    iteratorHeights (f.links num h) = if f.kind.isForOf then [h] else [] := by
  have hlabels : iteratorHeights ((f.labelContexts num h).map (linkOf h)) = [] := by
    unfold Frame.labelContexts
    split <;> simp [iteratorHeights]
  have happ : iteratorHeights (f.links num h) =
      iteratorHeights ((f.kind.contexts num h).map (linkOf h)) ++
        iteratorHeights ((f.labelContexts num h).map (linkOf h)) := by
    simp [Frame.links, Frame.contexts, iteratorHeights]
  rw [happ, hlabels, List.append_nil]
  cases f.kind <;> simp [iteratorHeights, FrameKind.isForOf]

theorem Place.iteratorHeights_links (p : Place) :
    (iteratorHeights (p.links num)).Pairwise (· > ·) := by
  induction p with
  | function isPlain => cases isPlain <;> simp [Place.links, linksOf, Place.entries, Place.state,
      iteratorHeights]
  | inside f outer ih =>
    have happ : iteratorHeights ((Place.inside f outer).links num) =
        (if f.kind.isForOf then [outer.height + 1] else []) ++
          iteratorHeights (outer.links num) := by
      rw [← f.iteratorHeights_links num, links_inside]
      simp [iteratorHeights]
    rw [happ]
    refine List.pairwise_append.2 ⟨by split <;> simp, ih, fun a ha b hb => ?_⟩
    obtain ⟨l, hl, rfl⟩ := List.mem_map.1 hb
    have hle := (outer.located num).links_le l (List.mem_filter.1 hl).1
    grind
  | inlined exit h ih =>
    rw [links_inlined]
    exact ih

end Links

/-! ## The walk at the statement that is looked for -/

section Frames

variable {num : Numbering} {f : Frame} {h : ℕ} {label : String}

theorem Frame.links_target :
    (f.links num h).map (·.target) =
      (f.kind.contexts num h).map (·.target) ++ (f.labelContexts num h).map (·.target) := by
  simp [Frame.links, Frame.contexts, Function.comp_def]

theorem Frame.labelContexts_eq (hf : f.kind.isBlock = false) :
    f.labelContexts num h = f.labels.map fun name => .label (.named none (.ident name)) := by
  unfold Frame.labelContexts
  split <;> simp_all

theorem Frame.labelContexts_target (hf : f.kind.isBlock = false) :
    (f.labelContexts num h).map (·.target) = f.labels.map fun name => .named none (.ident name) := by
  simp [Frame.labelContexts_eq hf, DynamicContext.target, Function.comp_def]

attribute [simp] FrameKind.isLoop

attribute [simp] FrameKind.isBlock

theorem Frame.walk_break (hl : label ∈ f.labels) (us : List LabelTarget) (target : Option Label) :
    walk .break (.ident label) ((f.links num h).map (·.target) ++ us) target =
      if f.kind.hasEnd then some (num.endLabel h) else target := by
  rw [Frame.links_target]
  cases hblock : f.kind.isBlock with
  | true =>
    have hk : f.kind = .block := by cases hk : f.kind <;> simp_all
    cases hlabels : f.labels with
    | nil => simp [hlabels] at hl
    | cons name outer =>
      by_cases hname : name = label
      · simp [Frame.labelContexts, hlabels, hk, walk, DynamicContext.target, hname, FrameKind.hasEnd]
      · have hmem : label ∈ outer := by grind
        simpa [Frame.labelContexts, hlabels, hk, walk, DynamicContext.target, hname, FrameKind.hasEnd, Function.comp_def] using walk_labels .break hmem us _
  | false =>
    rw [Frame.labelContexts_target hblock]
    cases hk : f.kind <;>
      simp_all [FrameKind.hasEnd, DynamicContext.target, walk] <;>
      simpa using walk_labels .break hl us _

theorem Frame.walk_continue (hl : label ∈ f.labels) (hf : f.kind.isLoop) (us : List LabelTarget)
    (target : Option Label) :
    walk .continue (.ident label) ((f.links num h).map (·.target) ++ us) target =
      some (num.continueLabel h) := by
  rw [Frame.links_target,
    Frame.labelContexts_target (by cases hk : f.kind <;> simp_all)]
  cases hk : f.kind <;>
    simp_all [DynamicContext.target, walk] <;>
    simpa using walk_labels .continue hl us _

theorem Frame.walk_loop (hf : f.kind.isLoop) (us : List LabelTarget) (target : Option Label) :
    walk .continue .continue ((f.links num h).map (·.target) ++ us) target =
      some (num.continueLabel h) := by
  rw [Frame.links_target]
  cases hk : f.kind <;> simp_all [DynamicContext.target, walk]

end Frames

/-! ## The iterators that are closed -/

/-- `closings`, over links. -/
def closed (name : LabelName) : List Link → List ℕ
  | [] => []
  | l :: ls =>
    if l.target.continueLabel = some name then [] else l.iterator.toList ++ closed name ls

theorem closings_eq (name : LabelName) (es : List Entry) :
    closings name (es.map (·.context)) = closed name (linksOf es) := by
  induction es with
  | nil => rfl
  | cons e es ih =>
    have hstop (h : e.context.target.continueLabel = some name) : closes name e.context = none := by
      cases he : e.context <;> simp_all [closes, DynamicContext.target]
    have hgo (h : e.context.target.continueLabel ≠ some name) :
        closes name e.context = (linkOf e.height e.context).iterator := by
      cases he : e.context <;> simp_all [closes, DynamicContext.target]
    simp only [linksOf, List.map_cons, closed] at ih ⊢
    rw [← ih]
    by_cases h : e.context.target.continueLabel = some name
    · simp [closings, passed, hstop h, h]
    · simp only [closings, passed, LabelTarget.label, linkOf, h, ↓reduceIte, List.filterMap_cons,
        hgo h]
      cases e.context <;> rfl

theorem closed_append {name : LabelName} {ls : List Link} (ms : List Link)
    (h : ∀ l ∈ ls, l.target.continueLabel ≠ some name) :
    closed name (ls ++ ms) = ls.filterMap (·.iterator) ++ closed name ms := by
  induction ls with
  | nil => rfl
  | cons l ls ih =>
    have hl : l.target.continueLabel ≠ some name := h l (by simp)
    have ih := ih fun l hl => h l (List.mem_cons_of_mem _ hl)
    simp only [List.cons_append, closed, hl, ↓reduceIte, ih, List.filterMap_cons]
    cases l.iterator <;> simp

theorem filterMap_iterator {num : Numbering} {ls : List Link} (h : ∀ l ∈ ls, l.Own num) :
    ls.filterMap (·.iterator) = (iteratorHeights ls).map num.iteratorId := by
  induction ls with
  | nil => rfl
  | cons l ls ih =>
    have ih := ih fun l hl => h l (List.mem_cons_of_mem _ hl)
    have hl := (h l (by simp)).iterator
    cases hi : l.iterator with
    | none => simp [iteratorHeights, hi] at ih ⊢; exact ih
    | some id =>
      have hid : id = num.iteratorId l.height := (hl id (by simp [hi])).1
      simp [iteratorHeights, hi, hid] at ih ⊢
      exact ih

theorem closed_labels {h : ℕ} {names : List String} {name : String} (hname : name ∈ names)
    (ms : List Link) :
    closed (.ident name)
      (names.map (linkOf h ∘ fun name => .label (.named none (.ident name))) ++ ms) = [] := by
  induction names with
  | nil => simp at hname
  | cons x names ih =>
    by_cases hx : x = name
    · simp [closed, DynamicContext.target, hx]
    · have hmem : name ∈ names := by grind
      simpa [closed, DynamicContext.target, hx] using ih hmem

/-- At a labelled loop a `continue` closes the iterator of the loop itself. -/
theorem Frame.closed_labelled {num : Numbering} {f : Frame} {h : ℕ} {label : String}
    (hl : label ∈ f.labels) (hf : f.kind.isLoop) (ms : List Link) :
    closed (.ident label) (f.links num h ++ ms) =
      if f.kind.isForOf then [num.iteratorId h] else [] := by
  have hblock : f.kind.isBlock = false := by
    cases hk : f.kind <;> simp_all
  have hlabels : closed (.ident label) ((f.labelContexts num h).map (linkOf h) ++ ms) = [] := by
    rw [Frame.labelContexts_eq hblock, List.map_map]
    exact closed_labels hl ms
  cases hk : f.kind <;> simp_all [Frame.links, Frame.contexts, FrameKind.isForOf, DynamicContext.target, closed]

theorem Frame.closed_loop {num : Numbering} {f : Frame} {h : ℕ} (hf : f.kind.isLoop)
    (ms : List Link) : closed .continue (f.links num h ++ ms) = [] := by
  cases hk : f.kind <;> simp_all [Frame.links, Frame.contexts, DynamicContext.target, closed]

/-! ## Jumps -/

/-- The name that `ControlFlowChangeBreak` and `ControlFlowChangeContinue` look for. -/
def jumpName (cfc : ControlFlowChange) : Option String → LabelName
  | some name => .ident name
  | none =>
    match cfc with
    | .break => .break
    | .continue => .continue

/-- The state of a generator at a place. -/
def Place.generator (num : Numbering) (p : Place) (pg : PandaGen) : PandaGen :=
  { pg with dynamicContext := p.dynamicContext num }

theorem compileJump_eq (inl : Inline) (pg : PandaGen) (cfc : ControlFlowChange)
    (label : Option String) :
    pg.compileJump inl cfc label = (do
      let pg' ← abortAll (closeIterator inl false) inl cfc (jumpName cfc label) none
        (passed cfc (jumpName cfc label) pg.dynamicContext) pg.startUnwinding
      pg'.emit (.jmp (walk cfc (jumpName cfc label) (pg.dynamicContext.map (·.target)) none))) := by
  have hname : pg.controlFlowChange inl cfc label none =
      controlFlowChangeWith (closeIterator inl false) inl cfc (jumpName cfc label) none pg := by
    cases label <;> cases cfc <;> rfl
  simp only [compileJump, hname, controlFlowChangeWith, unwind_eq, Emit.bind_assoc, Emit.pure_bind]

/-- The code of a jump ends in a jump to a label, whatever the finalizers are on the way. -/
def JumpsTo (pg : PandaGen) (cfc : ControlFlowChange) (label : Option String) (l : Label) : Prop :=
  ∀ inl n, (pg.compileJump inl cfc label n).2.2.code.getLast?.map (·.node) =
    some (.insn (.jmp (some l)))

theorem jumpsTo_iff {pg : PandaGen} {cfc : ControlFlowChange} {label : Option String} {l : Label} :
    JumpsTo pg cfc label l ↔
      walk cfc (jumpName cfc label) (pg.dynamicContext.map (·.target)) none = some l := by
  have hlast (inl : Inline) (n : ℕ) :
      (pg.compileJump inl cfc label n).2.2.code.getLast?.map (·.node) =
        some (.insn (.jmp
          (walk cfc (jumpName cfc label) (pg.dynamicContext.map (·.target)) none))) := by
    rw [compileJump_eq]
    simp [Bind.bind, Emit.bind, PandaGen.emit, Emit.node]
  constructor
  · intro h
    have := (hlast (fun _ _ => Emit.pure ()) 0).symm.trans (h _ _)
    simpa using this
  · intro h inl n
    rw [hlast, h]

/-- A context in front of a statement's own is looked for as well. -/
def Place.Hides (num : Numbering) (p : Place) (h : ℕ) (cfc : ControlFlowChange)
    (name : LabelName) : Prop :=
  ∃ l ∈ p.links num, h < l.height ∧ l.target.label cfc = some name

theorem Place.target_dynamicContext (num : Numbering) (p : Place) :
    (p.dynamicContext num).map (·.target) = (p.links num).map (·.target) := by
  simp [Place.dynamicContext, Place.links, linksOf, Function.comp_def]

/-- The links of a place, cut at those of a statement around it. -/
structure Place.Cut (num : Numbering) (p : Place) (h : ℕ) (f : Frame) where
  above : List Link
  below : List Link
  eq : p.links num = above ++ (f.links num h ++ below)
  lt_above : ∀ l ∈ above, h < l.height
  below_lt : ∀ l ∈ below, l.height < h

theorem Place.cut {num : Numbering} {p : Place} {h : ℕ} {f : Frame} (hf : (h, f) ∈ p.nest num) :
    Nonempty (p.Cut num h f) := by
  obtain ⟨above, below, heq, ha, hb⟩ := (p.located num).nest h f hf
  exact ⟨above, below, by rw [heq, List.append_assoc], ha, hb⟩

namespace Place.Cut

variable {num : Numbering} {p : Place} {h : ℕ} {f : Frame} (cut : p.Cut num h f)
  {cfc : ControlFlowChange} {name : LabelName}

include cut

theorem mem_above {l : Link} : l ∈ cut.above ↔ l ∈ p.links num ∧ h < l.height := by
  constructor
  · intro hl
    exact ⟨by simp [cut.eq, hl], cut.lt_above l hl⟩
  · rintro ⟨hl, hlt⟩
    rw [cut.eq] at hl
    rcases List.mem_append.1 hl with hl | hl
    · exact hl
    · rcases List.mem_append.1 hl with hl | hl
      · have := height_of_mem_links hl
        omega
      · have := cut.below_lt l hl
        omega

theorem hides_iff :
    p.Hides num h cfc name ↔ ∃ l ∈ cut.above, l.target.label cfc = some name := by
  simp only [Place.Hides, cut.mem_above, and_assoc]

theorem walk_of_hides (hh : p.Hides num h cfc name) :
    walk cfc name ((p.dynamicContext num).map (·.target)) none =
      walk cfc name (cut.above.map (·.target)) none := by
  obtain ⟨l, hl, hlabel⟩ := cut.hides_iff.1 hh
  rw [Place.target_dynamicContext, cut.eq, List.map_append]
  exact walk_append_of_mem _ _ ⟨l.target, List.mem_map.2 ⟨l, hl, rfl⟩, hlabel⟩

theorem walk_of_not_hides (hh : ¬ p.Hides num h cfc name) :
    walk cfc name ((p.dynamicContext num).map (·.target)) none =
      walk cfc name ((f.links num h).map (·.target) ++ cut.below.map (·.target))
        (walk cfc name (cut.above.map (·.target)) none) := by
  rw [Place.target_dynamicContext, cut.eq, List.map_append, List.map_append]
  refine walk_append _ _ fun t ht hlabel => hh (cut.hides_iff.2 ?_)
  obtain ⟨l, hl, rfl⟩ := List.mem_map.1 ht
  exact ⟨l, hl, hlabel⟩

theorem walk_above_ne_end :
    walk .break name (cut.above.map (·.target)) none ≠ some (num.endLabel h) := by
  intro hw
  obtain ⟨l, hl, ht⟩ : ∃ l ∈ cut.above, l.target.breakTarget = some (num.endLabel h) := by
    simpa using mem_of_walk hw
  have hown := (p.links_own num l (cut.mem_above.1 hl).1).breakTarget _ ht
  have := num.endLabel_injective hown
  have := cut.lt_above l hl
  omega

theorem walk_above_ne_continue :
    walk .continue name (cut.above.map (·.target)) none ≠ some (num.continueLabel h) := by
  intro hw
  obtain ⟨l, hl, ht⟩ : ∃ l ∈ cut.above, l.target.continueTarget = some (num.continueLabel h) := by
    simpa using mem_of_walk hw
  have hown := (p.links_own num l (cut.mem_above.1 hl).1).continueTarget _ ht
  have := num.continueLabel_injective hown
  have := cut.lt_above l hl
  omega

end Place.Cut

/-! ## Labelled `break` -/

/-- A `break` with a label of a statement around it. -/
structure LabelledBreak (num : Numbering) where
  place : Place
  height : ℕ
  stmt : Frame
  label : String
  around : (height, stmt) ∈ place.nest num
  labelled : label ∈ stmt.labels

/-- What a labelled `break` is for. -/
def LabelledBreak.JumpsToEnd {num : Numbering} (b : LabelledBreak num) (pg : PandaGen) : Prop :=
  JumpsTo (b.place.generator num pg) .break (some b.label) (num.endLabel b.height)

/-- A labelled `break` jumps to the end of its statement when that is a block, a loop or a switch.
At another statement it jumps to the end of the outermost of those inside, or nowhere. -/
theorem LabelledBreak.jumpsToEnd_iff {num : Numbering} (b : LabelledBreak num) (pg : PandaGen) :
    b.JumpsToEnd pg ↔
      b.stmt.kind.hasEnd ∧ ¬ b.place.Hides num b.height .break (.ident b.label) := by
  obtain ⟨cut⟩ := Place.cut b.around
  rw [LabelledBreak.JumpsToEnd, jumpsTo_iff]
  simp only [Place.generator, jumpName]
  by_cases hh : b.place.Hides num b.height .break (.ident b.label)
  · rw [cut.walk_of_hides hh]
    simp [hh, cut.walk_above_ne_end]
  · rw [cut.walk_of_not_hides hh, Frame.walk_break b.labelled]
    cases b.stmt.kind.hasEnd <;> simp [hh, cut.walk_above_ne_end]

/-- One way to number. -/
def Numbering.standard : Numbering where
  endLabel h := ⟨2 * h, {}⟩
  continueLabel h := ⟨2 * h + 1, {}⟩
  iteratorId := id
  iterator h := ⟨.temp h, .temp h, .temp h, .sync⟩
  tryContext h := { id := h }
  innerId := id
  endLabel_injective h k heq := by
    have := (FlatCode.Label.mk.inj heq).1
    omega
  continueLabel_injective h k heq := by
    have := (FlatCode.Label.mk.inj heq).1
    omega
  iteratorId_injective := Function.injective_id

/-- `L: if (x) while (y) break L;` in a function. -/
def LabelledBreak.inLoopOfIf : LabelledBreak .standard where
  place := .inside { kind := .other } <| .inside { kind := .while } <|
    .inside { labels := ["L"], kind := .other } <| .function true
  height := 1
  stmt := { labels := ["L"], kind := .other }
  label := "L"
  around := by simp [Place.nest, Place.state, Place.height]
  labelled := by simp

theorem LabelledBreak.not_jumpsToEnd :
    ¬ ∀ (num : Numbering) (b : LabelledBreak num) (pg : PandaGen), b.JumpsToEnd pg := by
  intro h
  have := h _ inLoopOfIf { scope := [] } (fun _ _ => Emit.pure ()) 0
  revert this
  decide +kernel

/-! ## `continue` -/

/-- A `continue`, with its loop. -/
structure Continue (num : Numbering) where
  place : Place
  height : ℕ
  loop : Frame
  label : Option String
  around : (height, loop) ∈ place.nest num
  isLoop : loop.kind.isLoop
  /-- The loop has the label, or is the innermost one. -/
  isTarget :
    match label with
    | some label => label ∈ loop.labels
    | none => ∀ x ∈ place.nest num, height < x.1 → x.2.kind.isLoop = false

namespace Continue

variable {num : Numbering} (c : Continue num)

def name : LabelName := jumpName .continue c.label

/-- The `for-of` loops around the `continue` that are strictly inside its loop, innermost first. -/
def forOfs : List ℕ :=
  ((c.place.nest num).filter fun x => c.height < x.1 ∧ x.2.kind.isForOf).map (·.1)

/-- What a `continue` is for. -/
def Continues (pg : PandaGen) : Prop :=
  JumpsTo (c.place.generator num pg) .continue c.label (num.continueLabel c.height) ∧
    closings c.name (c.place.dynamicContext num) = c.forOfs.map num.iteratorId

/-- Of the iterators in front of the loop's contexts, each is that of a `for-of` loop around. -/
def NoForeignIterator : Prop :=
  ∀ l ∈ c.place.links num, c.height < l.height → l.iterator.isSome → l.height ∈ c.forOfs

theorem pairwise_forOfs : c.forOfs.Pairwise (· > ·) :=
  List.pairwise_map.2 ((c.place.located num).nest_below.1.filter _)

theorem mem_iteratorHeights {h : ℕ} (hh : h ∈ c.forOfs) :
    h ∈ iteratorHeights (c.place.links num) ∧ c.height < h := by
  obtain ⟨⟨h, f⟩, hx, rfl⟩ := List.mem_map.1 hh
  obtain ⟨hx, hlt⟩ := List.mem_filter.1 hx
  obtain ⟨above, below, heq, -⟩ := (c.place.located num).nest h f hx
  have hf : h ∈ iteratorHeights (f.links num h) := by
    rw [Frame.iteratorHeights_links]
    simp_all
  refine ⟨?_, by simp_all⟩
  rw [heq]
  simp only [iteratorHeights, List.filter_append, List.map_append, List.mem_append] at hf ⊢
  exact Or.inl (Or.inr hf)

section

variable (cut : c.place.Cut num c.height c.loop)
include cut

/-- The iterators in front are those of the `for-of` loops exactly when none is foreign. -/
theorem iteratorHeights_above :
    iteratorHeights cut.above = c.forOfs ↔ c.NoForeignIterator := by
  constructor
  · intro heq l hl hlt hi
    rw [← heq]
    exact List.mem_map.2 ⟨l, List.mem_filter.2 ⟨cut.mem_above.2 ⟨hl, hlt⟩, hi⟩, rfl⟩
  · intro hno
    have hsorted : (iteratorHeights cut.above).Pairwise (· > ·) := by
      have h := c.place.iteratorHeights_links num
      rw [cut.eq] at h
      simp only [iteratorHeights, List.filter_append, List.map_append] at h
      exact (List.pairwise_append.1 h).1
    refine hsorted.eq_of_mem_iff c.pairwise_forOfs fun h => ⟨fun hh => ?_, fun hh => ?_⟩
    · obtain ⟨l, hl, rfl⟩ := List.mem_map.1 hh
      obtain ⟨hl, hi⟩ := List.mem_filter.1 hl
      obtain ⟨hl, hlt⟩ := cut.mem_above.1 hl
      exact hno l hl hlt hi
    · obtain ⟨hmem, hlt⟩ := c.mem_iteratorHeights hh
      obtain ⟨l, hl, rfl⟩ := List.mem_map.1 hmem
      obtain ⟨hl, hi⟩ := List.mem_filter.1 hl
      exact List.mem_map.2 ⟨l, List.mem_filter.2 ⟨cut.mem_above.2 ⟨hl, hlt⟩, hi⟩, rfl⟩

theorem closings_eq_of_not_hides (hh : ¬ c.place.Hides num c.height .continue c.name) :
    closings c.name (c.place.dynamicContext num) =
      (iteratorHeights cut.above).map num.iteratorId ++
        closed c.name (c.loop.links num c.height ++ cut.below) := by
  have hown : ∀ l ∈ cut.above, l.Own num := fun l hl =>
    c.place.links_own num l (cut.mem_above.1 hl).1
  rw [← filterMap_iterator hown, Place.dynamicContext, closings_eq]
  change closed c.name (c.place.links num) = _
  rw [cut.eq]
  exact closed_append _ fun l hl hlabel => hh (cut.hides_iff.2 ⟨l, hl, hlabel⟩)

/-- For a `continue` without a label, that nothing hides the loop is enough. -/
theorem continues_plain (hlabel : c.label = none)
    (hh : ¬ c.place.Hides num c.height .continue c.name) :
    closings c.name (c.place.dynamicContext num) = c.forOfs.map num.iteratorId := by
  have hname : c.name = .continue := by simp [name, hlabel, jumpName]
  have habove : iteratorHeights cut.above = [] := by
    have : cut.above.filter (·.iterator.isSome) = [] := by
      refine List.filter_eq_nil_iff.2 fun l hl hi => hh (cut.hides_iff.2 ⟨l, hl, ?_⟩)
      obtain ⟨id, hid⟩ := Option.isSome_iff_exists.1 hi
      rw [hname]
      exact ((c.place.links_own num l (cut.mem_above.1 hl).1).iterator id hid).2
    simp [iteratorHeights, this]
  have hforOfs : c.forOfs = [] := by
    have htarget := c.isTarget
    simp only [hlabel] at htarget
    refine List.map_eq_nil_iff.2 (List.filter_eq_nil_iff.2 fun x hx hp => ?_)
    have hloop := htarget x hx (by simp_all)
    cases hk : x.2.kind <;> simp_all [FrameKind.isForOf]
  rw [c.closings_eq_of_not_hides cut hh, habove, hforOfs, hname, Frame.closed_loop c.isLoop]
  rfl

/-- For a `continue` with a label, the loop is not to be a `for-of` loop itself. -/
theorem continues_labelled {label : String}
    (hlabel : c.label = some label) (hh : ¬ c.place.Hides num c.height .continue c.name) :
    closings c.name (c.place.dynamicContext num) = c.forOfs.map num.iteratorId ↔
      c.loop.kind.isForOf = false ∧ c.NoForeignIterator := by
  have hname : c.name = .ident label := by simp [name, hlabel, jumpName]
  have hmem : label ∈ c.loop.labels := by
    have htarget := c.isTarget
    simpa only [hlabel] using htarget
  rw [← c.iteratorHeights_above cut, c.closings_eq_of_not_hides cut hh, hname,
    Frame.closed_labelled hmem c.isLoop]
  cases hforOf : c.loop.kind.isForOf with
  | false => simp [(List.map_injective_iff.2 num.iteratorId_injective).eq_iff]
  | true =>
    -- The iterator of the loop itself is closed, and it is not among those of the loops inside.
    simp only [↓reduceIte, Bool.true_eq_false, false_and, iff_false]
    intro heq
    have hin : num.iteratorId c.height ∈ c.forOfs.map num.iteratorId := by
      rw [← heq]
      simp
    obtain ⟨h, hh, hid⟩ := List.mem_map.1 hin
    have := num.iteratorId_injective hid
    have := (c.mem_iteratorHeights hh).2
    omega

end

/-- A `continue` without a label is right unless it stands in a finalizer that is compiled for an
exit out of another loop. A labelled one is right under the same condition, also for `for-of`
loops, unless its own loop is a `for-of` loop, whose iterator it closes. -/
theorem continues_iff (pg : PandaGen) :
    c.Continues pg ↔
      ¬ c.place.Hides num c.height .continue c.name ∧
        (c.label.isSome → c.loop.kind.isForOf = false ∧ c.NoForeignIterator) := by
  obtain ⟨cut⟩ := Place.cut c.around
  rw [Continues, jumpsTo_iff]
  change walk .continue c.name ((c.place.dynamicContext num).map (·.target)) none = _ ∧ _ ↔ _
  by_cases hh : c.place.Hides num c.height .continue c.name
  · rw [cut.walk_of_hides hh]
    simp [hh, cut.walk_above_ne_continue]
  · rw [cut.walk_of_not_hides hh]
    cases hlabel : c.label with
    | none =>
      have hname : c.name = .continue := by simp [name, hlabel, jumpName]
      have hclosings := c.continues_plain cut hlabel hh
      simp only [hname, Frame.walk_loop c.isLoop] at hclosings hh ⊢
      simp [hh, hclosings]
    | some label =>
      have hname : c.name = .ident label := by simp [name, hlabel, jumpName]
      have hmem : label ∈ c.loop.labels := by
        have htarget := c.isTarget
        simpa only [hlabel] using htarget
      have hclosings := c.continues_labelled cut hlabel hh
      simp only [hname, Frame.walk_continue hmem c.isLoop] at hclosings hh ⊢
      simp [hh, hclosings]

/-- `L: for (x of y) continue L;` in a function. -/
def ofForOf : Continue .standard where
  place := .inside { kind := .other } <|
    .inside { labels := ["L"], kind := .forOf false false } <| .function true
  height := 1
  loop := { labels := ["L"], kind := .forOf false false }
  label := some "L"
  around := by simp [Place.nest, Place.state, Place.height]
  isLoop := rfl
  isTarget := by simp

theorem not_continues :
    ¬ ∀ (num : Numbering) (c : Continue num) (pg : PandaGen), c.Continues pg := by
  intro h
  have := (h _ ofForOf { scope := [] }).2
  revert this
  decide +kernel

end Continue

end ArkTs2abc.Es2panda.Jumps
