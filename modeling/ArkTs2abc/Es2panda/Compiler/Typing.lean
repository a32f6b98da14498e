import ArkTs2abc.Es2panda.Compiler.Statements

/-!
# Rules for emitted code

`Typing` says what an instruction needs and leaves, in terms of notes: what is
accounted for is changed only by the instructions that push and pop environments,
enter try statements, start finalizers and release contexts, and it agrees
wherever control goes. Code that unwinds contexts, and code that is compiled in a
foreign scope, is tagged and exempt from part of the rules; what that means for
runs is said where the rules are used.

`Emits` is the judgement for computations of the generator: whatever fresh numbers
they start from, the output is a well-formed fragment.

## Main definitions

* `Typing` — the rules.
* `Emits` — well-formed output, with the rules for sequencing and `protect`.
* `WellFormed`, `Scoped` — what the compiling functions keep of the state.
-/

namespace ArkTs2abc.Es2panda

open FlatCode Emit

/-- The environments and the unfinished try statements are the same. -/
def Note.Agrees (a b : Note) : Prop := a.env = b.env ∧ a.fin = b.fin

/-- A place may be reached with more results held back than it knows of. -/
def Note.Le (a b : Note) : Prop := a.Agrees b ∧ b.kept ⊆ a.kept

@[simp] theorem Note.agrees_refl (a : Note) : a.Agrees a := ⟨rfl, rfl⟩

@[simp] theorem Note.le_refl (a : Note) : a.Le a := ⟨a.agrees_refl, List.Subset.refl _⟩

@[simp] theorem Note.push_kept (a : Note) (s : Scope) : (a.push s).kept = a.kept := by
  unfold Note.push
  split <;> rfl

@[simp] theorem Note.push_fin (a : Note) (s : Scope) : (a.push s).fin = a.fin := by
  unfold Note.push
  split <;> rfl

theorem Note.push_env (a : Note) (s : Scope) :
    (a.push s).env = if s.needLexEnv then s.id :: a.env else a.env := by
  unfold Note.push
  split <;> rfl

/-- An exception here finds a handler that expects it. -/
def Raises (K : List CatchTable) (t : Tag) (a : Note) : Prop :=
  ∀ r ∈ K.head?, r.handler.note.kept ⊆ a.kept ∧ (t.unwinding ∨ a.Agrees r.handler.note)

/-- A jump from here finds a label that expects it. -/
def Jumps (t : Tag) (a : Note) (l : Label) : Prop :=
  l.note.kept ⊆ a.kept ∧ (t.unwinding ∨ a.Agrees l.note)

/-- The contexts that the walk of an unlabelled `break` releases. -/
def releasedBy : List (Option ℕ × Bool) → List ℕ
  | [] => []
  | (release, stops) :: nest => release.toList ++ if stops then [] else releasedBy nest

/-- What an instruction needs and leaves. -/
def Typing : Rules Insn Note Tag := fun K t a i b =>
  match i with
  | .lda _ | .sta _ | .mov .. | .ldConst _ | .isUndefined | .copyLexEnv | .ldLexEnv
  | .defineFunction .. | .setRun _ | .ldResult _ => b = a
  | .op o => b = a ∧ (o.mayThrow → Raises K t a)
  | .jmp none | .return => True
  | .jmp (some l) => Jumps t a l
  | .jtrue l | .jfalse l => b = a ∧ Jumps t a l
  | .throw => Raises K t a
  | .rethrow | .throwUndefinedIfHole _ | .throwConstAssignment _ => b = a ∧ Raises K t a
  | .newLexEnv scope _ => b = { a with env := scope :: a.env }
  | .popLexEnv => b = { a with env := a.env.tail } ∧ (t.unwinding ∨ a.env ≠ [])
  | .ldLexVar x | .stLexVar x => b = a ∧ (t.foreignScope ∨ x.assumed = a.env)
  | .enterTry id => b = { a with fin := id :: a.fin } ∧ id ∉ a.fin
  | .branchIfRun id l => b = a ∧ id ∈ a.fin ∧ l.note.kept ⊆ a.kept ∧ a.env = l.note.env
  | .startFinalizer id outer =>
    b = outer ∧ outer.kept = a.kept ∧ (t.unwinding ∨ a.env = outer.env ∧ a.fin = id :: outer.fin)
  | .holdResult n => b = { a with kept := (n, []) :: a.kept } ∧ ∀ x ∈ a.kept, x.1 ≠ n
  | .release n id => ∃ ids rest, a.kept = (n, ids) :: rest ∧ (∀ x ∈ rest, x.1 ≠ n) ∧
      b = { a with kept := (n, ids ++ [id]) :: rest }
  | .returns (some n) _ nest => b = a ∧ ∃ rest, a.kept = (n, releasedBy nest) :: rest
  | .returns none _ nest => b = a ∧ releasedBy nest = []
  | .outOfFuel => False

/-- Code that is properly put together. -/
abbrev Fragment := Frag Typing Note.Le

/-- Whatever fresh number from `N` on the computation starts with, what it emits under the ranges
`K` is well formed, takes up the note `a` and leaves one that `Q` allows with the result. -/
def Emits {α : Type} (K : List CatchTable) (a : Note) (N : ℕ) (m : Emit α)
    (Q : α → Note → Prop) : Prop :=
  ∀ n ≥ N, ∃ b, Q (m n).1 b ∧ n ≤ (m n).2.1 ∧
    Fragment K a (m n).2.2.code (m n).2.2.tables b ∧
    (∀ r ∈ (m n).2.2.tables, n ≤ r.id ∧ r.id < (m n).2.1) ∧
    ((m n).2.2.tables.map Range.id).Nodup

namespace Emits

variable {α β : Type} {K : List CatchTable} {a a' : Note} {N : ℕ} {Q : α → Note → Prop}
  {R : β → Note → Prop}

theorem mono {m : Emit α} {R : α → Note → Prop} (h : Emits K a N m Q) (hQR : ∀ x b, Q x b → R x b) :
    Emits K a N m R := by
  intro n hn
  obtain ⟨b, hQ, h⟩ := h n hn
  exact ⟨b, hQR _ _ hQ, h⟩

theorem pure {x : α} (h : Q x a) : Emits K a N (Emit.pure x) Q :=
  fun n _ => ⟨a, h, Nat.le_refl n, .nil, by simp [Emit.pure], by simp [Emit.pure]⟩

theorem bind {m : Emit α} {f : α → Emit β} (h : Emits K a N m Q)
    (hf : ∀ x b, Q x b → Emits K b N (f x) R) :
    Emits K a N (m >>= f) R := by
  intro n hn
  obtain ⟨b, hQ, hle, hfrag, hids, hnodup⟩ := h n hn
  obtain ⟨c, hR, hle', hfrag', hids', hnodup'⟩ := hf _ b hQ _ (Nat.le_trans hn hle)
  refine ⟨c, hR, Nat.le_trans hle hle', hfrag.append hfrag', ?_, ?_⟩
  · intro r hr
    have hlt : ∀ r ∈ (m n).2.2.tables, r.id < ((f (m n).1) (m n).2.1).2.1 := fun r hr =>
      Nat.lt_of_lt_of_le (hids r hr).2 hle'
    rcases List.mem_append.mp hr with hr | hr
    · exact ⟨(hids r hr).1, hlt r hr⟩
    · exact ⟨Nat.le_trans hle (hids' r hr).1, (hids' r hr).2⟩
  · show (((m n).2.2.tables ++ (f (m n).1 (m n).2.1).2.2.tables).map Range.id).Nodup
    rw [List.map_append]
    refine hnodup.append hnodup' fun i hi hi' => ?_
    obtain ⟨r, hr, rfl⟩ := List.mem_map.mp hi
    obtain ⟨r', hr', heq⟩ := List.mem_map.mp hi'
    have := (hids r hr).2
    have := (hids' r' hr').1
    omega

theorem seq {m : Emit Unit} {m' : Emit β} (h : Emits K a N m fun _ b => b = a')
    (h' : Emits K a' N m' R) :
    Emits K a N (do m; m') R :=
  h.bind fun _ _ hb => hb ▸ h'

theorem fresh {f : ℕ → Emit β} (h : ∀ id ≥ N, Emits K a (id + 1) (f id) R) :
    Emits K a N (Emit.fresh >>= f) R := by
  intro n hn
  obtain ⟨b, hR, hle, hfrag, hids, hnodup⟩ := h n hn (n + 1) (Nat.le_refl _)
  exact ⟨b, hR, Nat.le_of_succ_le hle, Frag.append .nil hfrag,
    fun r hr => ⟨Nat.le_of_succ_le (hids r hr).1, (hids r hr).2⟩, hnodup⟩

theorem allocReg {f : Reg → Emit β} (h : ∀ n, Emits K a N (f (.temp n)) R) :
    Emits K a N (Emit.allocReg >>= f) R := by
  intro n hn
  obtain ⟨b, hR, hle, hfrag, hids, hnodup⟩ := h n (n + 1) (Nat.le_succ_of_le hn)
  exact ⟨b, hR, Nat.le_of_succ_le hle, Frag.append .nil hfrag,
    fun r hr => ⟨Nat.le_of_succ_le (hids r hr).1, (hids r hr).2⟩, hnodup⟩

theorem allocLabel {note : Note} {f : Label → Emit β}
    (h : ∀ l : Label, l.note = note → Emits K a N (f l) R) :
    Emits K a N (Emit.allocLabel note >>= f) R := by
  intro n hn
  obtain ⟨b, hR, hle, hfrag, hids, hnodup⟩ := h ⟨n, note⟩ rfl (n + 1) (Nat.le_succ_of_le hn)
  exact ⟨b, hR, Nat.le_of_succ_le hle, Frag.append .nil hfrag,
    fun r hr => ⟨Nat.le_of_succ_le (hids r hr).1, (hids r hr).2⟩, hnodup⟩

theorem of_le {m : Emit α} {N' : ℕ} (h : Emits K a N m Q) (hle : N ≤ N') :
    Emits K a N' m Q :=
  fun n hn => h n (Nat.le_trans hle hn)

end Emits

namespace PandaGen

variable {α : Type} {pg : PandaGen} {N : ℕ}

theorem emits_emit {i : Insn} {b : Note} (h : Typing pg.ranges pg.tag pg.note i b) :
    Emits pg.ranges pg.note N (pg.emit i) fun _ c => c = b :=
  fun n _ => ⟨b, rfl, Nat.le_refl n, .insn h, by simp [emit, node], by simp [emit, node]⟩

theorem emits_setLabel {a : Note} {l : Label} (h : a.Le l.note) :
    Emits pg.ranges a N (pg.setLabel l) fun _ b => b = l.note :=
  fun n _ => ⟨l.note, rfl, Nat.le_refl n, .label l h, by simp [setLabel, node],
    by simp [setLabel, node]⟩

/-- Instructions after which the note is as before. -/
def Straight (pg : PandaGen) (is : List Insn) : Prop :=
  ∀ i ∈ is, Typing pg.ranges pg.tag pg.note i pg.note

@[simp] theorem straight_nil : pg.Straight [] := by simp [Straight]

@[simp] theorem straight_cons {i : Insn} {is : List Insn} : pg.Straight (i :: is) ↔
    Typing pg.ranges pg.tag pg.note i pg.note ∧ pg.Straight is := by
  simp [Straight]

@[simp] theorem straight_append {is is' : List Insn} :
    pg.Straight (is ++ is') ↔ pg.Straight is ∧ pg.Straight is' := by
  simp [Straight, or_imp, forall_and]

theorem emits_emits {is : List Insn} (h : pg.Straight is) :
    Emits pg.ranges pg.note N (pg.emits is) fun _ b => b = pg.note := by
  induction is with
  | nil => exact .pure rfl
  | cons i is ih =>
    obtain ⟨hi, his⟩ := straight_cons.mp h
    exact (emits_emit hi).seq (ih his)

theorem emits_emits_concat (is : List Insn) {i : Insn} {b : Note} (h : pg.Straight is)
    (hi : Typing pg.ranges pg.tag pg.note i b) :
    Emits pg.ranges pg.note N (pg.emits (is ++ [i])) fun _ c => c = b := by
  induction is with
  | nil => exact (emits_emit hi).seq (.pure rfl)
  | cons j js ih =>
    obtain ⟨hj, hjs⟩ := straight_cons.mp h
    exact (emits_emit hj).seq (ih hjs)

section Sequences

variable {m : Emit α} {R : α → Note → Prop} {a : Note} {l : Label}

theorem emits_step {i : Insn} (h : Typing pg.ranges pg.tag pg.note i pg.note)
    (h' : Emits pg.ranges pg.note N m R) : Emits pg.ranges pg.note N (do pg.emit i; m) R :=
  (emits_emit h).seq h'

theorem emits_steps {is : List Insn} (h : pg.Straight is) (h' : Emits pg.ranges pg.note N m R) :
    Emits pg.ranges pg.note N (do pg.emits is; m) R :=
  (emits_emits h).seq h'

theorem emits_leave {i : Insn} (h : Typing pg.ranges pg.tag pg.note i a)
    (h' : Emits pg.ranges a N m R) : Emits pg.ranges pg.note N (do pg.emit i; m) R :=
  (emits_emit h).seq h'

theorem emits_leaves (is : List Insn) (i : Insn) (h : pg.Straight is)
    (hi : Typing pg.ranges pg.tag pg.note i a) (h' : Emits pg.ranges a N m R) :
    Emits pg.ranges pg.note N (do pg.emits (is ++ [i]); m) R :=
  (emits_emits_concat is h hi).seq h'

theorem emits_label (h : l.note = a) (h' : Emits pg.ranges a N m R) :
    Emits pg.ranges a N (do pg.setLabel l; m) R :=
  (emits_setLabel (h ▸ l.note.le_refl)).seq (h ▸ h')

theorem emits_lastLabel (h : l.note = a) :
    Emits pg.ranges a N (pg.setLabel l) fun _ b => b = a :=
  (emits_setLabel (h ▸ l.note.le_refl)).mono fun _ _ hb => hb.trans h

theorem jumps_of_eq (h : l.note = pg.note) : Jumps pg.tag pg.note l :=
  ⟨h ▸ List.Subset.refl _, .inr (h ▸ Note.agrees_refl _)⟩

theorem emits_branch (h : l.note = pg.note) (h' : Emits pg.ranges a N m R) :
    Emits pg.ranges pg.note N (do pg.branch l; m) R :=
  emits_leave (jumps_of_eq h) h'

end Sequences

/-- The state inside a new try range. -/
def inRange (pg : PandaGen) (table : CatchTable) : PandaGen :=
  { pg with ranges := table :: pg.ranges, tag := { pg.tag with unwinding := false } }

theorem emits_protect {handler final : Note} {body : PandaGen → Emit α} {Q : α → Prop}
    (hdepth : ∀ r ∈ pg.ranges, r.depth < pg.tryDepth)
    (hbody : ∀ table : CatchTable, table.handler.note = handler → table.depth = pg.tryDepth →
      Emits (table :: pg.ranges) pg.note N (body (pg.inRange table)) fun x b => Q x ∧ b = final) :
    Emits pg.ranges pg.note N (pg.protect handler final body) fun r b =>
      r.1.handler.note = handler ∧ Q r.2 ∧ b = final := by
  intro n hn
  obtain ⟨b, ⟨hQ, rfl⟩, hle, hfrag, hids, hnodup⟩ :=
    hbody ⟨n, pg.tryDepth, ⟨n, handler⟩⟩ rfl rfl (n + 1) (Nat.le_succ_of_le hn)
  refine ⟨b, ⟨rfl, hQ, rfl⟩, Nat.le_of_succ_le hle, .range ⟨n, pg.tryDepth, ⟨n, handler⟩⟩ hdepth hfrag,
    ?_, ?_⟩
  · intro r hr
    rcases List.mem_cons.mp hr with rfl | hr
    · exact ⟨Nat.le_refl _, hle⟩
    · exact ⟨Nat.le_of_succ_le (hids r hr).1, (hids r hr).2⟩
  · refine List.nodup_cons.mpr ⟨fun hmem => ?_, hnodup⟩
    obtain ⟨r, hr, heq⟩ := List.mem_map.mp hmem
    have := (hids r hr).1
    simp only at heq
    omega

end PandaGen

end ArkTs2abc.Es2panda
