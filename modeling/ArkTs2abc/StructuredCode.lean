import Mathlib.Data.List.Basic

/-!
# Structured code

Code whose structure is kept: sequences, tests, loops, labels behind the code that branches to them,
try ranges with their handlers. What single operations do is a parameter. A piece of code may stand
in a try range and yet not be covered by it, when the range is cut out around it.

Code ends normally, by an exception, by a branch out of it or by a return. The rules of pre- and
postconditions have one postcondition for all four ways.

## Main definitions

* `Code`, `Semantics`, `run` — code, what its operations do, and running it.
* `Triple` — partial correctness, over all ways to end.
* `Code.All` — what holds of all operations in a piece of code.
* `Code.map`, `Simulates` — code inside a machine that has more to it.

## Main results

* `Triple.seq`, `Triple.test`, `Triple.loop`, `Triple.label`, `Triple.tryRange`, `Triple.outside` —
  one rule for each form of code.
* `Triple.invariant` — what all operations preserve is preserved by the code.
* `Simulates.run` — code in the larger machine ends as it does in the smaller one.
-/

namespace StructuredCode

/-- Code with operations `ι`, tests `κ` and labels `l`. -/
inductive Code (ι κ l : Type) where
  | skip
  | op (i : ι)
  | seq (first second : Code ι κ l)
  | test (q : κ) (ifTrue ifFalse : Code ι κ l)
  | loop (body : Code ι κ l)
  | label (code : Code ι κ l) (name : l)
  | branch (name : l)
  | return
  | tryRange (block handler : Code ι κ l)
  /-- Code that is cut out of some of the try ranges around, the innermost ones. -/
  | outside (left : ℕ) (code : Code ι κ l)
  deriving DecidableEq, Repr

/-- What operations and tests do to a state. They may throw, and there is no outcome when the world
does not decide about them. -/
structure Semantics (ι κ ε σ : Type) where
  exec : ι → σ → Option (Except ε Unit × σ)
  test : κ → σ → Option (Except ε Bool × σ)
  /-- How a handler is entered. -/
  catching : ε → σ → σ

/-- How code ends. An exception counts the handlers around that do not cover what has thrown. -/
inductive Result (ε l : Type) where
  | normal
  | thrown (e : ε) (left : ℕ)
  | branched (name : l)
  | returned
  deriving DecidableEq, Repr

variable {ι κ l ε σ : Type}

abbrev Outcome (ε l σ : Type) := Option (Result ε l × σ)

/-- What follows after code that ends normally. -/
def andThen (outcome : Outcome ε l σ) (rest : σ → Outcome ε l σ) : Outcome ε l σ :=
  match outcome with
  | some (.normal, s) => rest s
  | outcome => outcome

def iterate (body : σ → Outcome ε l σ) : ℕ → σ → Outcome ε l σ
  | 0, _ => none
  | fuel + 1, s => andThen (body s) (iterate body fuel)

/-- The code behind a label takes up a branch to it. -/
def landing [DecidableEq l] (name : l) : Outcome ε l σ → Outcome ε l σ
  | some (.branched name', s) =>
    if name' = name then some (.normal, s) else some (.branched name', s)
  | outcome => outcome

def caught (enter : ε → σ → σ) (handler : σ → Outcome ε l σ) : Outcome ε l σ → Outcome ε l σ
  | some (.thrown e 0, s) => handler (enter e s)
  | some (.thrown e (left + 1), s) => some (.thrown e left, s)
  | outcome => outcome

def uncovered (left : ℕ) : Outcome ε l σ → Outcome ε l σ
  | some (.thrown e left', s) => some (.thrown e (left' + left), s)
  | outcome => outcome

def perform (outcome : Option (Except ε Unit × σ)) : Outcome ε l σ :=
  match outcome with
  | some (.ok (), s) => some (.normal, s)
  | some (.error e, s) => some (.thrown e 0, s)
  | none => none

def choose (outcome : Option (Except ε Bool × σ)) (ifTrue ifFalse : σ → Outcome ε l σ) :
    Outcome ε l σ :=
  match outcome with
  | some (.ok true, s) => ifTrue s
  | some (.ok false, s) => ifFalse s
  | some (.error e, s) => some (.thrown e 0, s)
  | none => none

/-- Running code; no loop makes more iterations than there is fuel. -/
def run [DecidableEq l] (S : Semantics ι κ ε σ) (fuel : ℕ) : Code ι κ l → σ → Outcome ε l σ
  | .skip, s => some (.normal, s)
  | .op i, s => perform (S.exec i s)
  | .seq first second, s => andThen (run S fuel first s) (run S fuel second)
  | .test q ifTrue ifFalse, s => choose (S.test q s) (run S fuel ifTrue) (run S fuel ifFalse)
  | .loop body, s => iterate (run S fuel body) fuel s
  | .label code name, s => landing name (run S fuel code s)
  | .branch name, s => some (.branched name, s)
  | .return, s => some (.returned, s)
  | .tryRange block handler, s => caught S.catching (run S fuel handler) (run S fuel block s)
  | .outside left code, s => uncovered left (run S fuel code s)

theorem exists_of_landing [DecidableEq l] {name : l} {outcome : Outcome ε l σ} {r : Result ε l}
    {s : σ} (h : landing name outcome = some (r, s)) :
    ∃ r', outcome = some (r', s) ∧ ∀ e left, r = .thrown e left ↔ r' = .thrown e left := by
  rcases outcome with _ | ⟨r', s'⟩
  · simp [landing] at h
  · cases r' with
    | branched name' =>
      by_cases hname : name' = name
      · obtain ⟨rfl, rfl⟩ : Result.normal = r ∧ s' = s := by simpa [landing, hname] using h
        exact ⟨_, rfl, by simp⟩
      · obtain ⟨rfl, rfl⟩ : Result.branched name' = r ∧ s' = s := by
          simpa [landing, hname] using h
        exact ⟨_, rfl, by simp⟩
    | _ =>
      cases h
      exact ⟨_, rfl, fun _ _ => Iff.rfl⟩

/-! ## Pre- and postconditions -/

/-- A condition on how code ends, and in which state. -/
abbrev Post (ε l σ : Type) := Result ε l → σ → Prop

/-- The postcondition of what goes before: in the normal case something else is asked for. -/
def Post.before (P : σ → Prop) (Q : Post ε l σ) : Post ε l σ
  | .normal, s => P s
  | r, s => Q r s

@[simp] theorem Post.before_normal (P : σ → Prop) (Q : Post ε l σ) (s : σ) :
    Q.before P .normal s ↔ P s := Iff.rfl

@[simp] theorem Post.before_before (P R : σ → Prop) (Q : Post ε l σ) :
    (Q.before P).before R = Q.before R := by
  funext r s
  cases r <;> rfl

/-- The postcondition in front of a label. -/
def Post.landing [DecidableEq l] (name : l) (Q : Post ε l σ) : Post ε l σ
  | .branched name', s => if name' = name then Q .normal s else Q (.branched name') s
  | r, s => Q r s

/-- The postcondition in a try range, with what its handler asks for. -/
def Post.covered (enter : ε → σ → σ) (H : σ → Prop) (Q : Post ε l σ) : Post ε l σ
  | .thrown e 0, s => H (enter e s)
  | .thrown e (left + 1), s => Q (.thrown e left) s
  | r, s => Q r s

/-- The postcondition in code that is cut out of try ranges. -/
def Post.shift (left : ℕ) (Q : Post ε l σ) : Post ε l σ
  | .thrown e left', s => Q (.thrown e (left' + left)) s
  | r, s => Q r s

/-- The outcome, if there is one, meets a postcondition. -/
def Meets (Q : Post ε l σ) (outcome : Outcome ε l σ) : Prop :=
  ∀ r s, outcome = some (r, s) → Q r s

section Meets

variable {Q R : Post ε l σ} {outcome : Outcome ε l σ}

theorem Meets.none : Meets Q (none : Outcome ε l σ) := nofun

theorem meets_some {r : Result ε l} {s : σ} : Meets Q (some (r, s)) ↔ Q r s := by
  constructor
  · intro h
    exact h r s rfl
  · rintro h _ _ ⟨⟩
    exact h

theorem Meets.mono (h : Meets Q outcome) (hQR : ∀ r s, Q r s → R r s) : Meets R outcome :=
  fun r s heq => hQR r s (h r s heq)

theorem Meets.andThen {P : σ → Prop} (h : Meets (Q.before P) outcome)
    {rest : σ → Outcome ε l σ} (hrest : ∀ s, P s → Meets Q (rest s)) :
    Meets Q (andThen outcome rest) := by
  rcases outcome with _ | ⟨r, s⟩
  · exact .none
  · rw [meets_some] at h
    cases r with
    | normal => exact hrest s h
    | thrown e left => exact meets_some.2 h
    | branched name => exact meets_some.2 h
    | returned => exact meets_some.2 h

theorem Meets.iterate {P : σ → Prop} {body : σ → Outcome ε l σ}
    (h : ∀ s, P s → Meets (Q.before P) (body s)) (fuel : ℕ) {s : σ} (hs : P s) :
    Meets Q (iterate body fuel s) := by
  induction fuel generalizing s with
  | zero => exact .none
  | succ fuel ih => exact (h s hs).andThen fun s hs => ih hs

theorem Meets.landing [DecidableEq l] {name : l} (h : Meets (Q.landing name) outcome) :
    Meets Q (landing name outcome) := by
  rcases outcome with _ | ⟨r, s⟩
  · exact .none
  · rw [meets_some] at h
    cases r with
    | normal => exact meets_some.2 h
    | thrown e left => exact meets_some.2 h
    | returned => exact meets_some.2 h
    | branched name' =>
      by_cases hname : name' = name <;>
        simp only [Post.landing, StructuredCode.landing, hname, ↓reduceIte] at h ⊢ <;>
        exact meets_some.2 h

theorem Meets.caught {enter : ε → σ → σ} {H : σ → Prop}
    (h : Meets (Q.covered enter H) outcome) {handler : σ → Outcome ε l σ}
    (hhandler : ∀ s, H s → Meets Q (handler s)) : Meets Q (caught enter handler outcome) := by
  rcases outcome with _ | ⟨r, s⟩
  · exact .none
  · rw [meets_some] at h
    cases r with
    | normal => exact meets_some.2 h
    | branched name => exact meets_some.2 h
    | returned => exact meets_some.2 h
    | thrown e left =>
      cases left with
      | zero => exact hhandler _ h
      | succ left => exact meets_some.2 h

theorem Meets.uncovered {left : ℕ} (h : Meets (Q.shift left) outcome) :
    Meets Q (uncovered left outcome) := by
  rcases outcome with _ | ⟨r, s⟩
  · exact .none
  · rw [meets_some] at h
    cases r <;> exact meets_some.2 h

end Meets

/-- What code is to do, when it is entered in a state that meets `P`. -/
def Triple [DecidableEq l] (S : Semantics ι κ ε σ) (P : σ → Prop) (c : Code ι κ l)
    (Q : Post ε l σ) : Prop :=
  ∀ fuel s, P s → Meets Q (run S fuel c s)

namespace Triple

variable [DecidableEq l] {S : Semantics ι κ ε σ} {P P' R : σ → Prop} {Q Q' : Post ε l σ}
  {c c' : Code ι κ l} {name : l}

theorem mono (h : Triple S P c Q) (hP : ∀ s, P' s → P s) (hQ : ∀ r s, Q r s → Q' r s) :
    Triple S P' c Q' :=
  fun fuel s hs => (h fuel s (hP s hs)).mono hQ

theorem post (h : Triple S P c Q) (hQ : ∀ r s, Q r s → Q' r s) : Triple S P c Q' :=
  h.mono (fun _ hs => hs) hQ

theorem skip (h : ∀ s, P s → Q .normal s) : Triple S P .skip Q :=
  fun _ s hs => meets_some.2 (h s hs)

theorem op {i : ι} (hok : ∀ s s', P s → S.exec i s = some (.ok (), s') → Q .normal s')
    (herror : ∀ s e s', P s → S.exec i s = some (.error e, s') → Q (.thrown e 0) s') :
    Triple S P (.op i) Q := by
  intro fuel s hs
  unfold run perform
  split
  · exact meets_some.2 (hok s _ hs ‹_›)
  · exact meets_some.2 (herror s _ _ hs ‹_›)
  · exact .none

theorem seq (h : Triple S P c (Q.before R)) (h' : Triple S R c' Q) : Triple S P (.seq c c') Q :=
  fun fuel s hs => (h fuel s hs).andThen fun s hs => h' fuel s hs

theorem test {q : κ} {T F : σ → Prop}
    (htrue : ∀ s s', P s → S.test q s = some (.ok true, s') → T s')
    (hfalse : ∀ s s', P s → S.test q s = some (.ok false, s') → F s')
    (herror : ∀ s e s', P s → S.test q s = some (.error e, s') → Q (.thrown e 0) s')
    (h : Triple S T c Q) (h' : Triple S F c' Q) : Triple S P (.test q c c') Q := by
  intro fuel s hs
  unfold run choose
  split
  · exact h fuel _ (htrue s _ hs ‹_›)
  · exact h' fuel _ (hfalse s _ hs ‹_›)
  · exact meets_some.2 (herror s _ _ hs ‹_›)
  · exact .none

theorem loop (h : Triple S P c (Q.before P)) : Triple S P (.loop c) Q :=
  fun fuel _ hs => Meets.iterate (fun s hs => h fuel s hs) fuel hs

theorem label (h : Triple S P c (Q.landing name)) : Triple S P (.label c name) Q :=
  fun fuel s hs => (h fuel s hs).landing

theorem branch (h : ∀ s, P s → Q (.branched name) s) : Triple S P (.branch name) Q :=
  fun _ s hs => meets_some.2 (h s hs)

theorem returns (h : ∀ s, P s → Q .returned s) : Triple S P .return Q :=
  fun _ s hs => meets_some.2 (h s hs)

theorem tryRange {H : σ → Prop} (h : Triple S P c (Q.covered S.catching H))
    (h' : Triple S H c' Q) : Triple S P (.tryRange c c') Q :=
  fun fuel s hs => (h fuel s hs).caught fun s hs => h' fuel s hs

theorem outside {left : ℕ} (h : Triple S P c (Q.shift left)) : Triple S P (.outside left c) Q :=
  fun fuel s hs => (h fuel s hs).uncovered

end Triple

/-! ## Invariants -/

/-- All operations in the code are of this kind. -/
def Code.All (p : ι → Prop) : Code ι κ l → Prop
  | .skip | .branch _ | .return => True
  | .op i => p i
  | .seq first second => first.All p ∧ second.All p
  | .test _ ifTrue ifFalse => ifTrue.All p ∧ ifFalse.All p
  | .loop body => body.All p
  | .label code _ | .outside _ code => code.All p
  | .tryRange block handler => block.All p ∧ handler.All p

/-- However code ends, what its operations and all tests preserve holds behind it. -/
theorem Triple.invariant [DecidableEq l] {S : Semantics ι κ ε σ} {p : ι → Prop} {P : σ → Prop}
    (hexec : ∀ i o s s', p i → P s → S.exec i s = some (o, s') → P s')
    (htest : ∀ q o s s', P s → S.test q s = some (o, s') → P s')
    (hcatching : ∀ e s, P s → P (S.catching e s)) {c : Code ι κ l} (hc : c.All p) :
    Triple S P c fun _ => P := by
  induction c with
  | skip => exact .skip fun s hs => hs
  | branch name => exact .branch fun s hs => hs
  | «return» => exact .returns fun s hs => hs
  | op i =>
    exact .op (fun s s' hs h => hexec i _ s s' hc hs h) fun s e s' hs h => hexec i _ s s' hc hs h
  | seq first second ih ih' =>
    refine .seq (R := P) ((ih hc.1).post fun r s hs => ?_) (ih' hc.2)
    cases r <;> exact hs
  | test q ifTrue ifFalse ih ih' =>
    exact .test (fun s s' hs h => htest q _ s s' hs h) (fun s s' hs h => htest q _ s s' hs h)
      (fun s e s' hs h => htest q _ s s' hs h) (ih hc.1) (ih' hc.2)
  | loop body ih =>
    refine .loop ((ih hc).post fun r s hs => ?_)
    cases r <;> exact hs
  | label code name ih =>
    refine .label ((ih hc).post fun r s hs => ?_)
    cases r with
    | branched name' => simpa [Post.landing] using hs
    | _ => exact hs
  | outside left code ih =>
    refine .outside ((ih hc).post fun r s hs => ?_)
    cases r <;> exact hs
  | tryRange block handler ih ih' =>
    refine .tryRange (H := P) ((ih hc.1).post fun r s hs => ?_) (ih' hc.2)
    cases r with
    | thrown e left =>
      cases left with
      | zero => exact hcatching e s hs
      | succ left => exact hs
    | _ => exact hs

/-! ## Code inside a larger machine -/

section Simulation

variable {ι' κ' σ' α : Type}

/-- Code with its operations and tests under other names. -/
def Code.map (f : ι → ι') (g : κ → κ') : Code ι κ l → Code ι' κ' l
  | .skip => .skip
  | .op i => .op (f i)
  | .seq first second => .seq (first.map f g) (second.map f g)
  | .test q ifTrue ifFalse => .test (g q) (ifTrue.map f g) (ifFalse.map f g)
  | .loop body => .loop (body.map f g)
  | .label code name => .label (code.map f g) name
  | .branch name => .branch name
  | .return => .return
  | .tryRange block handler => .tryRange (block.map f g) (handler.map f g)
  | .outside left code => .outside left (code.map f g)

/-- The same result in related states, or none on either side. -/
inductive Related (R : σ → σ' → Prop) : Option (α × σ) → Option (α × σ') → Prop where
  | none : Related R none none
  | some {a : α} {w : σ} {s : σ'} (h : R w s) : Related R (some (a, w)) (some (a, s))

/-- The operations and tests do in the larger machine what they do in the smaller one. -/
structure Simulates (S : Semantics ι κ ε σ) (S' : Semantics ι' κ' ε σ') (f : ι → ι') (g : κ → κ')
    (R : σ → σ' → Prop) : Prop where
  exec : ∀ i w s, R w s → Related R (S.exec i w) (S'.exec (f i) s)
  test : ∀ q w s, R w s → Related R (S.test q w) (S'.test (g q) s)
  catching : ∀ e w s, R w s → R (S.catching e w) (S'.catching e s)

variable {S : Semantics ι κ ε σ} {S' : Semantics ι' κ' ε σ'} {f : ι → ι'} {g : κ → κ'}
  {R : σ → σ' → Prop}

theorem Related.andThen {o : Outcome ε l σ} {o' : Outcome ε l σ'} (h : Related R o o')
    {rest : σ → Outcome ε l σ} {rest' : σ' → Outcome ε l σ'}
    (hrest : ∀ w s, R w s → Related R (rest w) (rest' s)) :
    Related R (andThen o rest) (andThen o' rest') := by
  cases h with
  | none => exact .none
  | @some r w s hws =>
    cases r with
    | normal => exact hrest w s hws
    | thrown e left => exact .some hws
    | branched name => exact .some hws
    | returned => exact .some hws

theorem Related.iterate {body : σ → Outcome ε l σ} {body' : σ' → Outcome ε l σ'}
    (h : ∀ w s, R w s → Related R (body w) (body' s)) (fuel : ℕ) {w : σ} {s : σ'} (hws : R w s) :
    Related R (iterate body fuel w) (iterate body' fuel s) := by
  induction fuel generalizing w s with
  | zero => exact .none
  | succ fuel ih => exact (h w s hws).andThen fun w s hws => ih hws

/-- Code in the larger machine ends as it does in the smaller one. -/
theorem Simulates.run [DecidableEq l] (h : Simulates S S' f g R) (c : Code ι κ l) (fuel : ℕ) {w : σ}
    {s : σ'} (hws : R w s) :
    Related R (run S fuel c w) (StructuredCode.run S' fuel (c.map f g) s) := by
  induction c generalizing w s with
  | skip => exact .some hws
  | branch name => exact .some hws
  | «return» => exact .some hws
  | op i =>
    change Related R (perform (S.exec i w)) (perform (S'.exec (f i) s))
    have hexec := h.exec i w s hws
    generalize S.exec i w = o at hexec ⊢
    generalize S'.exec (f i) s = o' at hexec ⊢
    cases hexec with
    | none => exact .none
    | @some r w' s' hws' => cases r <;> exact .some hws'
  | seq first second ih ih' => exact (ih hws).andThen fun w s hws => ih' hws
  | test q ifTrue ifFalse ih ih' =>
    change Related R (choose (S.test q w) _ _) (choose (S'.test (g q) s) _ _)
    have htest := h.test q w s hws
    generalize S.test q w = o at htest ⊢
    generalize S'.test (g q) s = o' at htest ⊢
    cases htest with
    | none => exact .none
    | @some r w' s' hws' =>
      cases r with
      | error e => exact .some hws'
      | ok b =>
        cases b with
        | true => exact ih hws'
        | false => exact ih' hws'
  | loop body ih => exact Related.iterate (fun w s hws => ih hws) fuel hws
  | label code name ih =>
    change Related R (landing name _) (landing name _)
    have hcode := ih hws
    generalize StructuredCode.run S fuel code w = o at hcode ⊢
    generalize StructuredCode.run S' fuel (code.map f g) s = o' at hcode ⊢
    cases hcode with
    | none => exact .none
    | @some r w' s' hws' =>
      cases r with
      | branched name' =>
        by_cases hname : name' = name
        · simp only [landing, hname, ↓reduceIte]
          exact .some hws'
        · simp only [landing, hname, ↓reduceIte]
          exact .some hws'
      | normal => exact .some hws'
      | thrown e left => exact .some hws'
      | returned => exact .some hws'
  | outside left code ih =>
    change Related R (uncovered left _) (uncovered left _)
    have hcode := ih hws
    generalize StructuredCode.run S fuel code w = o at hcode ⊢
    generalize StructuredCode.run S' fuel (code.map f g) s = o' at hcode ⊢
    cases hcode with
    | none => exact .none
    | @some r w' s' hws' => cases r <;> exact .some hws'
  | tryRange block handler ih ih' =>
    change Related R (caught _ _ _) (caught _ _ _)
    have hblock := ih hws
    generalize StructuredCode.run S fuel block w = o at hblock ⊢
    generalize StructuredCode.run S' fuel (block.map f g) s = o' at hblock ⊢
    cases hblock with
    | none => exact .none
    | @some r w' s' hws' =>
      cases r with
      | thrown e left =>
        cases left with
        | zero => exact ih' (h.catching e w' s' hws')
        | succ left => exact .some hws'
      | normal => exact .some hws'
      | branched name => exact .some hws'
      | returned => exact .some hws'

end Simulation

end StructuredCode
