import ArkTs2abc.Es2panda.Compiler.CatchTables

/-!
# Environments and finalizers along a run

The machine keeps the lexical environments on the frame and the try statements whose finalizer has
not started, as `finalizerRun_` says at run time. Instructions change them one at a time, exceptions
leave them as they are, and the notes of the generator say what they are at each point.

## Main definitions

* `Insn.exec`, `handlers` — the machine.
* `RightRun` — runs that leave unwinding code for what was compiled for their frame.

## Main results

* `frame_accounted` — they find at each point what the generator has accounted for.
-/

namespace ArkTs2abc.Es2panda

open FlatCode (Outcome SortedByDepth)

/-- The environments on the frame, and the try statements entered whose finalizer has not started. -/
structure LexFrame where
  env : List ℕ
  fin : List ℕ
  deriving DecidableEq, Repr

/-- The frame behind an instruction that ends in this way, if it can. -/
def Insn.exec : Insn → Outcome Note → LexFrame → Option LexFrame
  | .newLexEnv scope _, .next, s => some { s with env := scope :: s.env }
  | .popLexEnv, .next, s => if s.env = [] then none else some { s with env := s.env.tail }
  | .enterTry id, .next, s => some { s with fin := id :: s.fin }
  | .startFinalizer id _, .next, s => some { s with fin := s.fin.erase id }
  | .branchIfRun id _, .next, s => if id ∈ s.fin then some s else none
  | .branchIfRun id l, .jump l', s => if l' = l ∧ id ∉ s.fin then some s else none
  | .jmp (some l), .jump l', s | .jtrue l, .jump l', s | .jfalse l, .jump l', s =>
    if l' = l then some s else none
  | .op o, .raise, s => if o.mayThrow then some s else none
  | .throw, .raise, s | .rethrow, .raise, s | .throwUndefinedIfHole _, .raise, s
  | .throwConstAssignment _, .raise, s => some s
  | .jmp _, _, _ | .return, _, _ | .throw, _, _ | .outOfFuel, _, _ => none
  | _, .next, s => some s
  | _, _, _ => none

/-- The handler of the first table that covers the position. -/
def handlers (f : ScriptFunction) (tables : List CatchTable) : FlatCode.Handlers Note := fun pc l =>
  ∃ r, FlatCode.IsHandler tables (PandaGen.output f).code pc r ∧ r.handler = l

/-- Where code that unwinds contexts is left, what it leads to was compiled for what is left then. -/
def LeavesRight (p : Point) (o : Outcome Note) : Prop :=
  p.tag.unwinding → match o with
    | .next => ∀ id outer, p.node = .insn (.startFinalizer id outer) →
      p.note.env = outer.env ∧ p.note.fin = id :: outer.fin
    | .jump l => p.note.Agrees l.note
    | .raise => ∀ r ∈ p.ranges.head?, p.note.Agrees r.handler.note

/-- Runs of a function from its start that leave no unwinding code at a wrong place. -/
abbrev RightRun (f : ScriptFunction) (tables : List CatchTable) (pc : ℕ) (s : LexFrame) : Prop :=
  FlatCode.Run (fun i s o s' => i.exec o s = some s') (handlers f tables) (PandaGen.output f).code
    LeavesRight (0, ⟨Scope.envs f.outer, []⟩) (pc, s)

/-- What a frame is at a note. -/
def Note.Accounts (a : Note) (s : LexFrame) : Prop := s = ⟨a.env, a.fin⟩

theorem Note.Agrees.accounts {a b : Note} {s : LexFrame} (h : a.Agrees b) (hs : a.Accounts s) :
    b.Accounts s := by
  rw [Accounts, hs, h.1, h.2]

theorem typing_preserves : FlatCode.Preserves Typing Note.Le
    (fun i s o s' => i.exec o s = some s') LeavesRight Note.Accounts where
  le h hs := h.1.accounts hs
  next {p i b s s'} hnode hT hs hexec hok := by
    obtain rfl := hs
    have hok := fun hu id outer hi => hok hu id outer (hnode.trans hi)
    cases i with
    | popLexEnv =>
      obtain ⟨rfl, -⟩ := hT
      simp only [Insn.exec] at hexec
      split at hexec
      · cases hexec
      · exact (Option.some.inj hexec).symm
    | startFinalizer id outer =>
      obtain ⟨rfl, -, hleft⟩ := hT
      obtain ⟨henv, hfin⟩ : p.note.env = b.env ∧ p.note.fin = id :: b.fin := by
        rcases hleft with hu | hleft
        · exact hok hu id b rfl
        · exact hleft
      obtain rfl := Option.some.inj hexec
      simp [Note.Accounts, henv, hfin]
    | branchIfRun id l =>
      obtain ⟨rfl, hmem, -⟩ := hT
      simpa [Insn.exec, hmem, Note.Accounts, eq_comm] using hexec
    | jmp l => cases l <;> cases hexec
    | «return» | throw | outOfFuel => cases hexec
    | release => 
      obtain ⟨ids, rest, -, -, rfl⟩ := hT
      exact (Option.some.inj hexec).symm
    | returns held enclosing nest =>
      obtain rfl := Option.some.inj hexec
      cases held <;> exact congrArg₂ LexFrame.mk (by rw [hT.1]) (by rw [hT.1])
    | _ =>
      obtain rfl := Option.some.inj hexec
      first
      | (obtain rfl : b = _ := hT; rfl)
      | (obtain ⟨rfl, -⟩ := hT; rfl)
  jump {p i b l s s'} hnode hT hs hexec hok := by
    obtain rfl := hs
    have hjump {l' : Label} (hl : Jumps p.tag p.note l')
        (hexec : (if l = l' then some (LexFrame.mk p.note.env p.note.fin) else none) = some s') :
        l.note.Accounts s' := by
      split at hexec
      next heq =>
        obtain rfl := heq
        obtain rfl := Option.some.inj hexec
        exact (hl.2.elim hok id).accounts rfl
      next => cases hexec
    cases i with
    | branchIfRun id l' =>
      obtain ⟨-, hmem, -⟩ := hT
      simp [Insn.exec, hmem] at hexec
    | jmp l' =>
      cases l' with
      | none => cases hexec
      | some l' => exact hjump hT hexec
    | jtrue l' | jfalse l' => exact hjump hT.2 hexec
    | _ => cases hexec
  raise {p i b r s s'} hnode hT hs hexec hok hr := by
    obtain rfl := hs
    have hraise (hr' : Raises p.ranges p.tag p.note) : p.note.Agrees r.handler.note :=
      (hr' r hr).2.elim (fun hu => hok hu r hr) id
    cases i with
    | op o =>
      simp only [Insn.exec] at hexec
      split at hexec
      next hthrow =>
        obtain rfl := Option.some.inj hexec
        exact (hraise (hT.2 hthrow)).accounts rfl
      next => cases hexec
    | throw =>
      obtain rfl := Option.some.inj hexec
      exact (hraise hT).accounts rfl
    | rethrow | throwUndefinedIfHole | throwConstAssignment =>
      obtain rfl := Option.some.inj hexec
      exact (hraise hT.2).accounts rfl
    | jmp l => cases l <;> cases hexec
    | _ => cases hexec

/-- As long as unwinding code is left for what was compiled for its frame, the frame is at every point
what the generator has accounted for: variables are looked up in the environments that their levels
were counted over, no environment is taken from an empty frame, and the finalizer that starts is
that of the last try statement that was entered and not finished. -/
theorem frame_accounted (f : ScriptFunction) (tables : List CatchTable)
    (hsort : SortCatchTables (PandaGen.output f).tables tables) {pc : ℕ} {s : LexFrame}
    (hrun : RightRun f tables pc s) {p : Point} (hp : (PandaGen.output f).code[pc]? = some p) :
    s = ⟨p.note.env, p.note.fin⟩ ∧
    (∀ x, p.node = .insn (.ldLexVar x) ∨ p.node = .insn (.stLexVar x) → p.tag.foreignScope = false →
      x.assumed = s.env) ∧
    (p.node = .insn .popLexEnv → p.tag.unwinding = false → s.env ≠ []) ∧
    ∀ id outer, p.node = .insn (.startFinalizer id outer) → p.tag.unwinding = false →
      s.fin = id :: outer.fin := by
  obtain ⟨⟨b, hfrag⟩, -⟩ := PandaGen.output_fragment f
  have hpoints := hfrag.points
  have htyped : FlatCode.Typed Typing (handlers f tables) (PandaGen.output f).code := by
    refine ⟨fun p hp => (hpoints p hp).1, fun p hp => (hpoints p hp).2, ?_⟩
    rintro pc p l hp ⟨r, hr, rfl⟩
    exact ⟨r, (isHandler_iff_head? hsort hp r).mp hr, rfl⟩
  obtain rfl : s = ⟨p.note.env, p.note.fin⟩ :=
    (hfrag.flows Note.le_refl).sound htyped typing_preserves rfl hrun hp
  have hinsn := (hpoints p (List.mem_of_getElem? hp)).2
  refine ⟨rfl, ?_, ?_, ?_⟩
  · rintro x (hx | hx) hforeign
    all_goals
      obtain ⟨c, -, hassumed⟩ := hinsn _ hx
      exact hassumed.resolve_left (by simp [hforeign])
  · intro hpop hu
    obtain ⟨c, -, hne⟩ := hinsn _ hpop
    exact hne.resolve_left (by simp [hu])
  · intro id outer hstart hu
    obtain ⟨c, -, -, hfin⟩ := hinsn _ hstart
    exact (hfin.resolve_left (by simp [hu])).2

theorem frame_accounted_tryFinally :
    ∃ p, (PandaGen.output tryFinallyFunction).code[3]? = some p ∧ [1] = p.note.fin := by
  have step {pc : ℕ} {s s' : LexFrame} {p : Point} {i : Insn}
      (h : RightRun tryFinallyFunction (PandaGen.output tryFinallyFunction).tables.reverse pc s)
      (hp : (PandaGen.output tryFinallyFunction).code[pc]? = some p) (hi : p.node = .insn i)
      (hexec : i.exec .next s = some s') (hu : p.tag.unwinding = false) :
      RightRun tryFinallyFunction (PandaGen.output tryFinallyFunction).tables.reverse (pc + 1) s' :=
    h.tail ⟨p, .next, .next hp hi hexec, fun hu' => absurd hu' (by simp [hu])⟩
  have hrun := step (step (step .refl rfl rfl rfl rfl) rfl rfl rfl rfl) rfl rfl rfl rfl
  exact ⟨_, rfl, congrArg LexFrame.fin (frame_accounted tryFinallyFunction _
    ⟨List.reverse_perm _, by unfold SortedByDepth; decide⟩ hrun rfl).1⟩

end ArkTs2abc.Es2panda
