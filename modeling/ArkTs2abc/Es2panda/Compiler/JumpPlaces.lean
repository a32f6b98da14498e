import ArkTs2abc.Es2panda.Compiler.PandaGen

/-!
# The places of jumps

Where a `break` or `continue` is compiled: the statements around it in the program, and the
dynamic contexts around it. The two agree in the code where a statement stands. A finalizer is
compiled once more at each exit that passes its try statement, below the contexts of the exit,
which may belong to statements that are not around the finalizer at all.

## Main definitions

* `FrameKind`, `Frame` — a statement around a jump, with its labels.
* `Place` — the way to a jump through statements and inlined finalizers.
* `Place.nest`, `Place.dynamicContext` — the statements and the contexts around.
* `passed`, `closings` — the contexts that a walk aborts, and the iterators that it closes.
* `Link`, `walk` — what a walk looks at, and where it leads.

## Main results

* `unwind_eq` — the walk of the code generator aborts the contexts passed and finds the target.
* `Place.located` — the contexts of a statement around a jump are among its contexts.
-/

namespace ArkTs2abc.Es2panda.Jumps

open PandaGen

/-- What the generator has handed out for the statements on the way to a jump. -/
structure Numbering where
  endLabel : ℕ → Label
  continueLabel : ℕ → Label
  iteratorId : ℕ → ℕ
  iterator : ℕ → Iterator
  /-- The context of a try statement, but for the finalizer. -/
  tryContext : ℕ → TryContext
  /-- The number of the second context of a try statement with a finalizer. -/
  innerId : ℕ → ℕ
  endLabel_injective : endLabel.Injective
  continueLabel_injective : continueLabel.Injective
  iteratorId_injective : iteratorId.Injective

/-- The statements around a jump, as far as they open contexts. The flags are for the environments
that the scopes of a loop have. -/
inductive FrameKind where
  /-- An `if` statement, or the jump itself. -/
  | other
  | block
  | while
  | doWhile
  | forUpdate (declEnv loopEnv : Bool)
  | forIn (declEnv loopEnv : Bool)
  | forOf (declEnv loopEnv : Bool)
  | switch
  /-- The block or the catch clause of a try statement without a finalizer. -/
  | tryCatch
  /-- The block or the catch clause of a try statement with a finalizer. -/
  | tryFinally (finalizer : Stmt)
  /-- The finalizer, where the try statement itself emits it. -/
  | finalizer (finalizer : Stmt)

namespace FrameKind

def isBlock : FrameKind → Bool
  | block => true
  | _ => false

def isForOf : FrameKind → Bool
  | forOf .. => true
  | _ => false

def isLoop : FrameKind → Bool
  | .while | doWhile | forUpdate .. | forIn .. | forOf .. => true
  | _ => false

/-- Some context leads to the end of the statement, once it is labelled. -/
def hasEnd : FrameKind → Bool
  | block | switch => true
  | k => k.isLoop

end FrameKind

/-- A statement with the labels in front of it, innermost first. -/
structure Frame where
  labels : List String := []
  kind : FrameKind

/-- The way to a jump. -/
inductive Place where
  /-- In the body of a function; that of a generator or an async function is in a context. -/
  | function (isPlain : Bool)
  | inside (frame : Frame) (outer : Place)
  /-- The finalizer of the try statement with a number, compiled for an exit. -/
  | inlined (exit : Place) (tryStmt : ℕ)

/-- Statements are numbered by how many are below them on the way. -/
def Place.height : Place → ℕ
  | function _ => 0
  | inside _ outer => outer.height + 1
  | inlined exit _ => exit.height

/-- The statements around a place with their numbers, innermost first. -/
abbrev Nest := List (ℕ × Frame)

/-- A dynamic context with the number of its statement and the statements around. -/
structure Entry where
  height : ℕ
  context : DynamicContext
  nest : Nest

section Contexts

variable (num : Numbering)

def Numbering.loopTarget (h : ℕ) : LabelTarget := .loop (num.endLabel h) (num.continueLabel h)

/-- `finallyContext`. -/
def Numbering.finallyContext (h : ℕ) (finalizer : Stmt) : TryContext :=
  { num.tryContext h with finallyBlock := some finalizer, hasFinalizer := true, inFinalizer := false }

/-- The contexts that `Compile` of a statement opens, innermost first. -/
def FrameKind.contexts (h : ℕ) : FrameKind → List DynamicContext
  | other | block => []
  | .while | doWhile => [.label (num.loopTarget h)]
  | forUpdate declEnv loopEnv | forIn declEnv loopEnv =>
    [.lexEnv loopEnv (num.loopTarget h), .lexEnv declEnv {}]
  | forOf declEnv loopEnv =>
    [.lexEnv loopEnv {}, .lexEnv declEnv {},
      .iterator (num.iteratorId h) (num.iterator h) (num.loopTarget h)]
  | switch => [.label (.named (some (num.endLabel h)) .break)]
  | tryCatch => [.try { id := (num.tryContext h).id, hasFinalizer := true }]
  | tryFinally s =>
    [.try { num.finallyContext h s with id := num.innerId h, hasFinalizer := false },
      .try (num.finallyContext h s)]
  | finalizer s => [.try { num.finallyContext h s with inFinalizer := true }]

/-- `LabelContext` of the labels of a statement: only the label in front of a block has a target. -/
def Frame.labelContexts (h : ℕ) (f : Frame) : List DynamicContext :=
  match f.labels with
  | [] => []
  | name :: outer =>
    .label (.named (if f.kind.isBlock then some (num.endLabel h) else none) (.ident name)) ::
      outer.map fun name => .label (.named none (.ident name))

def Frame.contexts (h : ℕ) (f : Frame) : List DynamicContext :=
  f.kind.contexts num h ++ f.labelContexts num h

def Entry.isTry (h : ℕ) (e : Entry) : Bool :=
  match e.context with
  | .try _ => e.height = h
  | _ => false

def Entry.enterFinalizer (id : ℕ) (e : Entry) : Entry :=
  { e with context := e.context.enterFinalizer id }

/-- The statements around a place, and the contexts around it. -/
def Place.state : Place → Nest × List Entry
  | function isPlain =>
    ([], if isPlain then [] else [⟨0, .try { id := (num.tryContext 0).id }, []⟩])
  | inside frame outer =>
    let h := outer.height + 1
    ((h, frame) :: outer.state.1,
      (frame.contexts num h).map (⟨h, ·, outer.state.1⟩) ++ outer.state.2)
  | inlined exit h =>
    (((exit.state.2.find? (·.isTry h)).map (·.nest)).getD [],
      exit.state.2.map (·.enterFinalizer (num.tryContext h).id))

def Place.nest (p : Place) : Nest := (p.state num).1

def Place.entries (p : Place) : List Entry := (p.state num).2

/-- `dynamicContext_` at the place. -/
def Place.dynamicContext (p : Place) : List DynamicContext := (p.entries num).map (·.context)

end Contexts

/-! ## The walk over the contexts -/

/-- The contexts that the walk of a jump aborts. -/
def passed (cfc : ControlFlowChange) (name : LabelName) : List DynamicContext → List DynamicContext
  | [] => []
  | c :: cs => c :: if c.target.label cfc = some name then [] else passed cfc name cs

/-- The iterator that `AbortContext` closes for a `continue`. -/
def closes (name : LabelName) : DynamicContext → Option ℕ
  | .iterator id _ target => if target.continueLabel = some name then none else some id
  | _ => none

/-- The iterators that a `continue` closes, in this order. -/
def closings (name : LabelName) (cs : List DynamicContext) : List ℕ :=
  (passed .continue name cs).filterMap (closes name)

/-- `AbortContext` of one context after the other. -/
def abortAll (close : PandaGen → Iterator → Emit Unit) (inl : Inline) (cfc : ControlFlowChange)
    (name : LabelName) (held : Option ℕ) : List DynamicContext → PandaGen → Emit PandaGen
  | [], pg => Emit.pure pg
  | c :: cs, pg => do
    let pg ← abortContext close inl cfc name held pg c
    abortAll close inl cfc name held cs pg

/-- What a walk looks at in a context, with the number of the context's statement. -/
structure Link where
  height : ℕ
  target : LabelTarget
  iterator : Option ℕ

def linkOf (h : ℕ) (c : DynamicContext) : Link where
  height := h
  target := c.target
  iterator :=
    match c with
    | .iterator id _ _ => some id
    | _ => none

/-- The target that the walk of a jump ends with. -/
def walk (cfc : ControlFlowChange) (name : LabelName) :
    List LabelTarget → Option Label → Option Label
  | [], target => target
  | t :: ts, target =>
    let target := (t.target cfc).or target
    if t.label cfc = some name then target else walk cfc name ts target

theorem Emit.pure_bind {α β : Type} (x : α) (f : α → Emit β) : (Emit.pure x >>= f) = f x := by
  funext n
  simp [Bind.bind, Emit.bind, Emit.pure]

theorem Emit.bind_assoc {α β γ : Type} (m : Emit α) (f : α → Emit β) (g : β → Emit γ) :
    (m >>= f >>= g) = m >>= fun x => f x >>= g := by
  funext n
  simp [Bind.bind, Emit.bind, List.append_assoc]

/-- The walk of the code generator: which contexts it aborts and where it leads does not depend on
the code that it emits. -/
theorem unwind_eq (close : PandaGen → Iterator → Emit Unit) (inl : Inline)
    (cfc : ControlFlowChange) (name : LabelName) (held : Option ℕ) (cs : List DynamicContext)
    (pg : PandaGen) (target : Option Label) :
    unwind close inl cfc name held cs pg target = (do
      let pg ← abortAll close inl cfc name held (passed cfc name cs) pg
      Emit.pure (pg, walk cfc name (cs.map (·.target)) target)) := by
  induction cs generalizing pg target with
  | nil => rfl
  | cons c cs ih =>
    simp only [unwind, passed, abortAll, List.map_cons, walk, Emit.bind_assoc]
    refine congrArg _ (funext fun pg => ?_)
    by_cases hc : c.target.label cfc = some name
    · simp only [hc, ↓reduceIte, abortAll, Emit.pure_bind]
    · simp only [hc, ↓reduceIte, ih]

/-! ## The contexts of a statement are among those of the jump -/

def linksOf (es : List Entry) : List Link := es.map fun e => linkOf e.height e.context

def Place.links (num : Numbering) (p : Place) : List Link := linksOf (p.entries num)

def Frame.links (num : Numbering) (h : ℕ) (f : Frame) : List Link :=
  (f.contexts num h).map (linkOf h)

theorem linkOf_enterFinalizer (h id : ℕ) (c : DynamicContext) :
    linkOf h (c.enterFinalizer id) = linkOf h c := by
  cases c <;> rfl

theorem linksOf_enterFinalizer (id : ℕ) (es : List Entry) :
    linksOf (es.map (·.enterFinalizer id)) = linksOf es := by
  simp [linksOf, Entry.enterFinalizer, linkOf_enterFinalizer]

/-- Each statement of a nest has its contexts among those given, and no others have its number. -/
def Located (num : Numbering) (nest : Nest) (links : List Link) : Prop :=
  ∀ h f, (h, f) ∈ nest → ∃ above below, links = above ++ f.links num h ++ below ∧
    (∀ l ∈ above, h < l.height) ∧ ∀ l ∈ below, l.height < h

/-- The numbers of a nest decrease, starting below a bound. -/
def Below (bound : ℕ) (nest : Nest) : Prop :=
  nest.Pairwise (fun x y => y.1 < x.1) ∧ ∀ x ∈ nest, x.1 ≤ bound

theorem Below.cons {bound : ℕ} {nest : Nest} (hn : Below bound nest) (f : Frame) :
    Below (bound + 1) ((bound + 1, f) :: nest) := by
  refine ⟨List.pairwise_cons.2 ⟨fun x hx => ?_, hn.1⟩, fun x hx => ?_⟩
  · exact Nat.lt_succ_of_le (hn.2 x hx)
  · rcases List.mem_cons.1 hx with rfl | hx
    · exact Nat.le_refl _
    · exact Nat.le_succ_of_le (hn.2 x hx)

theorem Below.mono {m n : ℕ} {nest : Nest} (hn : Below m nest) (h : m ≤ n) : Below n nest :=
  ⟨hn.1, fun x hx => Nat.le_trans (hn.2 x hx) h⟩

/-- What holds at every place of the statements around it and around each of its contexts. -/
structure Place.Located (num : Numbering) (p : Place) : Prop where
  links_le : ∀ l ∈ p.links num, l.height ≤ p.height
  nest_below : Below p.height (p.nest num)
  nest : Jumps.Located num (p.nest num) (p.links num)
  entry_below : ∀ e ∈ p.entries num, Below p.height e.nest
  entry : ∀ e ∈ p.entries num, Jumps.Located num e.nest (p.links num)

section Inside

variable {num : Numbering} {f : Frame} {outer : Place}

theorem links_inside :
    (Place.inside f outer).links num = f.links num (outer.height + 1) ++ outer.links num := by
  simp [Place.links, linksOf, Place.entries, Place.state, Frame.links, Function.comp_def]

theorem height_of_mem_links {h : ℕ} {l : Link} (hl : l ∈ f.links num h) : l.height = h := by
  obtain ⟨c, -, rfl⟩ := List.mem_map.1 hl
  rfl

theorem Located.inside {nest : Nest} (hn : Located num nest (outer.links num))
    (hb : Below outer.height nest) : Located num nest ((Place.inside f outer).links num) := by
  intro h g hg
  obtain ⟨above, below, heq, ha, hbelow⟩ := hn h g hg
  refine ⟨f.links num (outer.height + 1) ++ above, below, ?_, ?_, hbelow⟩
  · rw [links_inside, heq]
    simp only [List.append_assoc]
  · intro l hl
    rcases List.mem_append.1 hl with hl | hl
    · rw [height_of_mem_links hl]
      exact Nat.lt_succ_of_le (hb.2 _ hg)
    · exact ha l hl

theorem Located.cons (ho : outer.Located num) :
    Located num ((outer.height + 1, f) :: outer.nest num) ((Place.inside f outer).links num) := by
  intro h g hg
  rcases List.mem_cons.1 hg with heq | hg
  · cases heq
    refine ⟨[], outer.links num, by rw [links_inside]; rfl, by simp, fun l hl => ?_⟩
    exact Nat.lt_succ_of_le (ho.links_le l hl)
  · exact ho.nest.inside ho.nest_below h g hg

theorem mem_entries_inside {e : Entry} (he : e ∈ (Place.inside f outer).entries num) :
    e.nest = outer.nest num ∨ e ∈ outer.entries num := by
  rcases List.mem_append.1 he with he | he
  · obtain ⟨c, -, rfl⟩ := List.mem_map.1 he
    exact Or.inl rfl
  · exact Or.inr he

end Inside

theorem nest_inlined (num : Numbering) (exit : Place) (h : ℕ) :
    (Place.inlined exit h).nest num = [] ∨
      ∃ e ∈ exit.entries num, (Place.inlined exit h).nest num = e.nest := by
  simp only [Place.nest, Place.state, Place.entries]
  cases hfind : List.find? (fun e => Entry.isTry h e) (exit.state num).2 with
  | none => exact Or.inl rfl
  | some e => exact Or.inr ⟨e, List.mem_of_find?_eq_some hfind, rfl⟩

theorem links_inlined (num : Numbering) (exit : Place) (h : ℕ) :
    (Place.inlined exit h).links num = exit.links num :=
  linksOf_enterFinalizer _ _

/-- The contexts of a statement around a place are among the contexts of the place, and the
contexts that come first belong to statements of greater numbers. -/
theorem Place.located (num : Numbering) (p : Place) : p.Located num := by
  induction p with
  | function isPlain =>
    refine ⟨?_, ⟨List.Pairwise.nil, by simp [Place.nest, Place.state]⟩,
      by simp [Jumps.Located, Place.nest, Place.state], ?_, ?_⟩ <;>
      cases isPlain <;>
      simp [Place.links, linksOf, Place.entries, Place.state, linkOf, Place.height, Below,
        Jumps.Located]
  | inside f outer ih =>
    refine ⟨fun l hl => ?_, ih.nest_below.cons f, .cons ih, fun e he => ?_, fun e he => ?_⟩
    · rw [links_inside] at hl
      rcases List.mem_append.1 hl with hl | hl
      · exact Nat.le_of_eq (height_of_mem_links hl)
      · exact Nat.le_succ_of_le (ih.links_le l hl)
    · rcases mem_entries_inside he with heq | he
      · rw [heq]
        exact ih.nest_below.mono (Nat.le_succ _)
      · exact (ih.entry_below e he).mono (Nat.le_succ _)
    · rcases mem_entries_inside he with heq | he
      · rw [heq]
        exact ih.nest.inside ih.nest_below
      · exact (ih.entry e he).inside (ih.entry_below e he)
  | inlined exit h ih =>
    refine ⟨fun l hl => ?_, ?_, ?_, fun e he => ?_, fun e he => ?_⟩
    · rw [links_inlined] at hl
      exact ih.links_le l hl
    · rcases nest_inlined num exit h with heq | ⟨e, he, heq⟩ <;> rw [heq]
      · exact ⟨List.Pairwise.nil, by simp⟩
      · exact ih.entry_below e he
    · rw [links_inlined]
      rcases nest_inlined num exit h with heq | ⟨e, he, heq⟩ <;> rw [heq]
      · simp [Jumps.Located]
      · exact ih.entry e he
    · obtain ⟨e', he', rfl⟩ := List.mem_map.1 he
      exact ih.entry_below e' he'
    · obtain ⟨e', he', rfl⟩ := List.mem_map.1 he
      rw [links_inlined]
      exact ih.entry e' he'

end ArkTs2abc.Es2panda.Jumps
