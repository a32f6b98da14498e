import ArkTs2abc.Ts2panda.ScopeChain
import Mathlib.Data.List.TakeWhile

/-!
# `super()` in arrow functions

The functions of a derived constructor are compiled before it, those inside a function
before the function. What they refer to of the constructor is in its environment: its
`this`, and the function object, which the constructor stores there when it starts.

`loadCtorObj` does not look for the function object with `find`. It counts the functions
up to the constructor for the level and takes the slot of the first one outside the
arrow function of the call. `find` counts the loops that have an environment when it
looks.

## Main definitions

* `Step.compile` — what the code of a function does to the scopes, and its accesses.
* `Access.location` — the place that an access reaches when the code runs.
* `Insn.Right` — it is the place where the constructor keeps the variable.

## Main results

* `superCall_right_iff` — when a call in an arrow function and the uses of `this` are right.
-/

namespace ArkTs2abc.Ts2panda.SuperCall

open ScopeChain

/-- The variables that matter here; `4funcObj` is a parameter of every function. -/
inductive Variable (X : Type) where
  | this | funcObj | other (x : X)
  deriving DecidableEq, Repr

/-- A register of the constructor, or a slot some environments up. -/
inductive Access (X : Type) where
  | register (v : Variable X)
  | lexical (level slot : ℕ)
  deriving DecidableEq, Repr

/-- An access together with the scopes of the code, from its own up to the constructor. -/
inductive Insn (S X : Type) where
  | superCall (path : List S) (ctorObj : Access X)
  | loadThis (path : List S) (access : Access X)
  | storeThis (path : List S) (access : Access X)
  deriving DecidableEq, Repr

/-- What compiling does to the scopes. The constructor itself is the scope `none`. -/
inductive Step (S X : Type) where
  | superCall (path : List S)
  | useThis (path : List S)
  /-- A nested function refers to a variable of the owner. -/
  | capture (refs : List S) (owner : Option S) (v : Variable X)
  /-- It refers to a variable from outside the constructor. -/
  | captureOutside (refs : List S)
  deriving DecidableEq, Repr

variable {S X : Type} [DecidableEq S] [DecidableEq X]

abbrev OfConstructor (S X : Type) : Type := Scopes (Option S) (Variable X)

def scopeKind (kind : S → ScopeKind) : Option S → ScopeKind
  | none => .function
  | some x => kind x

section Compile

variable (kind : S → ScopeKind)

def functions (path : List S) : List S := path.filter fun x => kind x = .function

def findThis (path : List S) (s : OfConstructor S X) : ℕ :=
  s.findLevel (scopeKind kind) (path.map some)

/-- `getThis`: the scope it marks from is the first function it meets. -/
def getThis (path : List S) (s : OfConstructor S X) : Access X × OfConstructor S X :=
  let level := findThis kind path s
  let curScope := path.dropWhile fun x => kind x ≠ .function
  let s := match curScope with
    | [] => s
    | _ :: _ => s.setLexVar (scopeKind kind) none .this (curScope.map some)
  match s.idxLex none .this with
  | some slot => (.lexical level slot, s)
  | none => (.register .this, s)

def setThis (path : List S) (s : OfConstructor S X) : Access X :=
  match s.idxLex none .this with
  | some slot => .lexical (findThis kind path s) slot
  | none => .register .this

/-- `loadCtorObj`: the loop up to the constructor counts the level, but the scope stays. -/
def loadCtorObj (path : List S) (s : OfConstructor S X) : Access X × OfConstructor S X :=
  match functions kind path with
  | [] => (.register .funcObj, s)
  | _ :: outer =>
    let outerFuncScope := outer.head?
    let s := s.pendingCreateEnv outerFuncScope
    let level := outer.foldl (fun level _ => level + 1) 1
    let s := s.setLexVar (scopeKind kind) outerFuncScope .funcObj []
    (.lexical level ((s.idxLex outerFuncScope .funcObj).getD 0), s)

/-- `compileSuperCall`, with the check that `this` has no value yet. -/
def compileSuperCall (path : List S) (s : OfConstructor S X) :
    List (Insn S X) × OfConstructor S X :=
  let s := if functions kind path = [] then s
    else s.setLexVar (scopeKind kind) none .this (path.map some)
  let (ctorObj, s) := loadCtorObj kind path s
  let (this, s) := getThis kind path s
  ([.superCall path ctorObj, .loadThis path this, .storeThis path (setThis kind path s)], s)

def Step.compile (s : OfConstructor S X) : Step S X → List (Insn S X) × OfConstructor S X
  | .superCall path => compileSuperCall kind path s
  | .useThis path => ([.loadThis path (getThis kind path s).1], (getThis kind path s).2)
  | .capture refs owner v => ([], s.setLexVar (scopeKind kind) owner v (refs.map some))
  | .captureOutside refs => ([], s.markChain (scopeKind kind) (refs.map some ++ [none]))

def compile (s : OfConstructor S X) : List (Step S X) → List (Insn S X) × OfConstructor S X
  | [] => ([], s)
  | step :: steps =>
    let rest := compile (step.compile kind s).2 steps
    ((step.compile kind s).1 ++ rest.1, rest.2)

end Compile

/-- A place of the memory of the running constructor. -/
inductive Location (S X : Type) where
  | register (v : Variable X)
  | slot (scope : Option S) (slot : ℕ)
  deriving DecidableEq, Repr

section Run

variable (kind : S → ScopeKind) (s : OfConstructor S X)

/-- The environments from the code up to the one of the constructor. -/
def envsAt (path : List S) : List (Option S) :=
  s.lexEnvs (scopeKind kind) (path.map some ++ [none])

/-- The place of an access in a run; the registers are those of the code's own function. -/
def Access.location (path : List S) : Access X → Option (Location S X)
  | .register v => if functions kind path = [] then some (.register v) else none
  | .lexical level slot => ((envsAt kind s path)[level]?).map fun x => .slot x slot

/-- Where `this` of the constructor is kept. -/
def thisLocation : Location S X :=
  match s.idxLex none .this with
  | some slot => .slot none slot
  | none => .register .this

/-- Where the function object of the constructor is: `compileLexicalBindingForArrowFunction`
stores it in its slot, if it has one. -/
def HoldsFuncObj (l : Location S X) : Prop :=
  l = .register .funcObj ∨ ∃ slot, s.idxLex none .funcObj = some slot ∧ l = .slot none slot

/-- The access reaches the variable that it is compiled for. -/
def Insn.Right : Insn S X → Prop
  | .superCall path ctorObj => ∃ l, ctorObj.location kind s path = some l ∧ HoldsFuncObj s l
  | .loadThis path access => access.location kind s path = some (thisLocation s)
  | .storeThis path access => access.location kind s path = some (thisLocation s)

end Run

section Captures

variable (kind : S → ScopeKind)

/-- The scope whose slot `loadCtorObj` uses, the constructor or an arrow function in it. -/
def outerFunc (path : List S) : Option S := (functions kind path).tail.head?

/-- The variables that a step moves to an environment. -/
def Step.captures : Step S X → List (Option S × Variable X)
  | .superCall path => if functions kind path = [] then []
    else [(none, .this), (outerFunc kind path, .funcObj)]
  | .useThis path => if functions kind path = [] then [] else [(none, .this)]
  | .capture _ owner v => [(owner, v)]
  | .captureOutside _ => []

/-- In an arrow function, or for captures in any nested function. -/
def Step.InFunction : Step S X → Prop
  | .superCall path => functions kind path ≠ []
  | .useThis path => functions kind path ≠ []
  | .capture _ _ _ => True
  | .captureOutside _ => True

/-- In the code of the constructor itself. -/
def Step.InConstructor : Step S X → Prop
  | .superCall path => functions kind path = []
  | .useThis path => functions kind path = []
  | .capture _ _ _ => False
  | .captureOutside _ => True

/-- Where `this` is used; a super call looks whether it has a value. -/
def Step.thisPath : Step S X → Option (List S)
  | .superCall path => some path
  | .useThis path => some path
  | .capture _ _ _ => none
  | .captureOutside _ => none

end Captures

/-- A derived constructor: the steps of the functions in it, then those of its own code. -/
structure Constructor (S X : Type) where
  kind : S → ScopeKind
  /-- The loops that the recorder has seen to need an environment. -/
  recorded : S → Bool
  inner : List (Step S X)
  own : List (Step S X)
  inner_inFunction : ∀ step ∈ inner, step.InFunction kind
  own_inConstructor : ∀ step ∈ own, step.InConstructor kind

namespace Constructor

variable (c : Constructor S X)

def steps : List (Step S X) := c.inner ++ c.own

/-- The scopes as the recorder leaves them. -/
def recordedScopes : OfConstructor S X where
  needCreateLexEnv
    | none => false
    | some x => c.kind x = .loop && c.recorded x
  startLexIdx _ := 0
  idxLex _ _ := none

/-- The scopes when these steps are compiled. -/
def scopesAfter (steps : List (Step S X)) : OfConstructor S X :=
  (compile c.kind c.recordedScopes steps).2

def insns : List (Insn S X) := (compile c.kind c.recordedScopes c.steps).1

def Right (i : Insn S X) : Prop := i.Right c.kind (c.scopesAfter c.steps)

/-- The call uses the function object of the constructor, and all uses of `this` find it
where the call puts it. -/
def SuperCallRight (pre : List (Step S X)) (path : List S) : Prop :=
  (∀ i ∈ ((Step.superCall path).compile c.kind (c.scopesAfter pre)).1, c.Right i) ∧
    ∀ path access, .loadThis path access ∈ c.insns → c.Right (.loadThis path access)

def captures (steps : List (Step S X)) : List (Option S × Variable X) :=
  steps.flatMap (Step.captures c.kind)

/-- The loop has an environment once these steps are compiled. -/
def LoopEnv (steps : List (Step S X)) (l : S) : Prop :=
  c.kind l = .loop ∧ NeedsEnv (fun x => x.any c.recorded) (c.captures steps) (some l)

end Constructor

section Step

variable {kind : S → ScopeKind} {s t : OfConstructor S X} {recorded : Option S → Bool}
  {captures : List (Option S × Variable X)} {path : List S} {step : Step S X}

omit [DecidableEq S] in
theorem functions_eq_nil : functions kind path = [] ↔ ∀ x ∈ path, kind x ≠ .function := by
  simp [functions]

omit [DecidableEq S] in
theorem dropWhile_eq_nil : (path.dropWhile fun x => kind x ≠ .function) = []
    ↔ functions kind path = [] := by
  rw [List.dropWhile_eq_nil_iff, functions_eq_nil]
  simp

omit [DecidableEq S] in
theorem mem_dropWhile {x : S} (hx : x ∈ path) (hkind : kind x = .function) :
    x ∈ path.dropWhile fun x => kind x ≠ .function := by
  induction path with
  | nil => cases hx
  | cons y path ih =>
    rw [List.dropWhile_cons]
    split
    · apply ih
      grind
    · exact hx

theorem getThis_snd_of_nil (hpath : functions kind path = []) : (getThis kind path s).2 = s := by
  have hnil := dropWhile_eq_nil.mpr hpath
  simp only [getThis, hnil]
  split <;> rfl

theorem getThis_snd (hpath : functions kind path ≠ []) :
    (getThis kind path s).2 = s.setLexVar (scopeKind kind) none .this
      ((path.dropWhile fun x => kind x ≠ .function).map some) := by
  have hne := mt dropWhile_eq_nil.mp hpath
  obtain ⟨x, refs, hrefs⟩ := List.exists_cons_of_ne_nil hne
  simp only [getThis, hrefs]
  split <;> rfl

theorem getThis_fst : (getThis kind path s).1
    = match (getThis kind path s).2.idxLex none .this with
      | some slot => .lexical (findThis kind path s) slot
      | none => .register .this := by
  simp only [getThis]
  split <;> simp_all

theorem findThis_setLexVar {owner : Option S} {v : Variable X} {refs : List (Option S)}
    (howner : scopeKind kind owner = .function) :
    findThis kind path (s.setLexVar (scopeKind kind) owner v refs) = findThis kind path s :=
  Scopes.findLevel_setLexVar howner

omit [DecidableEq S] in
theorem scopeKind_outerFunc (path : List S) :
    scopeKind kind (outerFunc kind path) = .function := by
  cases h : outerFunc kind path with
  | none => rfl
  | some x =>
    have hmem : x ∈ functions kind path :=
      List.mem_of_mem_tail (List.mem_of_mem_head? h)
    simpa [functions, scopeKind] using (List.mem_filter.mp hmem).2

theorem loadCtorObj_of_nil (hpath : functions kind path = []) :
    loadCtorObj kind path s = (.register .funcObj, s) := by
  simp [loadCtorObj, hpath]

theorem loadCtorObj_eq (hpath : functions kind path ≠ []) :
    loadCtorObj kind path s
      = (.lexical (functions kind path).length
          (((loadCtorObj kind path s).2.idxLex (outerFunc kind path) .funcObj).getD 0),
        (s.pendingCreateEnv (outerFunc kind path)).setLexVar (scopeKind kind)
          (outerFunc kind path) .funcObj []) := by
  obtain ⟨x, outer, houter⟩ := List.exists_cons_of_ne_nil hpath
  have hlevel : outer.foldl (fun level _ => level + 1) 1 = (functions kind path).length := by
    rw [houter, List.foldl_add_const, List.length_cons]
    omega
  simp [loadCtorObj, outerFunc, houter, hlevel]

section

variable (h : Tracks (scopeKind kind) recorded captures s)
include h

theorem loadCtorObj_tracks (hpath : functions kind path ≠ []) :
    Tracks (scopeKind kind) recorded (captures ++ [(outerFunc kind path, .funcObj)])
      (loadCtorObj kind path s).2 := by
  rw [loadCtorObj_eq hpath]
  exact (h.pendingCreateEnv (scopeKind_outerFunc path)).setLexVar

theorem getThis_tracks (hthis : (none, .this) ∈ captures) :
    Tracks (scopeKind kind) recorded captures (getThis kind path s).2 := by
  by_cases hpath : functions kind path = []
  · rw [getThis_snd_of_nil hpath]
    exact h
  · rw [getThis_snd hpath]
    have hsome : (s.idxLex none .this).isSome := by
      rw [h.idxLex_eq]
      exact slotOf_isSome_of_mem hthis
    rw [Scopes.setLexVar_of_isSome hsome]
    exact h.markChain

theorem compile_tracks :
    Tracks (scopeKind kind) recorded (captures ++ step.captures kind) (step.compile kind s).2 := by
  cases step with
  | superCall path =>
    by_cases hpath : functions kind path = []
    · simpa [Step.compile, compileSuperCall, hpath, Step.captures, loadCtorObj_of_nil,
        getThis_snd_of_nil] using h
    · have hthis : Tracks (scopeKind kind) recorded (captures ++ [(none, .this)])
          (s.setLexVar (scopeKind kind) none .this (path.map some)) := h.setLexVar
      have hfunc := loadCtorObj_tracks hthis hpath
      simp only [Step.compile, compileSuperCall, hpath, Step.captures, if_false]
      rw [List.append_cons]
      exact getThis_tracks hfunc (by simp)
  | useThis path =>
    by_cases hpath : functions kind path = []
    · simpa [Step.compile, hpath, Step.captures, getThis_snd_of_nil] using h
    · simp only [Step.compile, Step.captures, hpath, if_false, getThis_snd hpath]
      exact h.setLexVar
  | capture refs owner v => exact h.setLexVar
  | captureOutside refs => simpa [Step.compile, Step.captures] using h.markChain

end

section

variable {y : Option S} (hy : s.needCreateLexEnv y)
include hy

theorem loadCtorObj_needCreateLexEnv :
    (loadCtorObj kind path s).2.needCreateLexEnv y := by
  by_cases hpath : functions kind path = []
  · rw [loadCtorObj_of_nil hpath]
    exact hy
  · rw [loadCtorObj_eq hpath]
    apply Scopes.needCreateLexEnv_setLexVar
    simp only [Scopes.pendingCreateEnv, Function.update_apply]
    grind

theorem getThis_needCreateLexEnv :
    (getThis kind path s).2.needCreateLexEnv y := by
  by_cases hpath : functions kind path = []
  · rw [getThis_snd_of_nil hpath]
    exact hy
  · rw [getThis_snd hpath]
    exact Scopes.needCreateLexEnv_setLexVar hy

theorem compile_needCreateLexEnv :
    (step.compile kind s).2.needCreateLexEnv y := by
  cases step with
  | superCall path =>
    apply getThis_needCreateLexEnv
    apply loadCtorObj_needCreateLexEnv
    split
    · exact hy
    · exact Scopes.needCreateLexEnv_setLexVar hy
  | useThis path => exact getThis_needCreateLexEnv hy
  | capture refs owner v => exact Scopes.needCreateLexEnv_setLexVar hy
  | captureOutside refs => exact Scopes.markChain_needCreateLexEnv.mpr (Or.inl hy)

end

theorem getThis_needCreateLexEnv_function {x : S} (hx : x ∈ path) (hkind : kind x = .function) :
    (getThis kind path s).2.needCreateLexEnv (some x) := by
  have hpath : functions kind path ≠ [] := by
    intro hnil
    exact functions_eq_nil.mp hnil x hx hkind
  rw [getThis_snd hpath]
  exact Scopes.setLexVar_needCreateLexEnv_function
    (List.mem_map_of_mem (mem_dropWhile hx hkind)) hkind

/-- Where `this` is used, every function up to the constructor gets an environment. -/
theorem compile_needCreateLexEnv_function {x : S} (hstep : step.thisPath = some path)
    (hx : x ∈ path) (hkind : kind x = .function) :
    (step.compile kind s).2.needCreateLexEnv (some x) := by
  cases step with
  | superCall path' =>
    cases hstep
    exact getThis_needCreateLexEnv_function hx hkind
  | useThis path' =>
    cases hstep
    exact getThis_needCreateLexEnv_function hx hkind
  | capture refs owner v => cases hstep
  | captureOutside refs => cases hstep

theorem findThis_loadCtorObj {path' : List S} :
    findThis kind path' (loadCtorObj kind path s).2 = findThis kind path' s := by
  by_cases hpath : functions kind path = []
  · rw [loadCtorObj_of_nil hpath]
  · rw [loadCtorObj_eq hpath, findThis_setLexVar (scopeKind_outerFunc path)]
    exact Scopes.findLevel_pendingCreateEnv (scopeKind_outerFunc path)

theorem findThis_getThis {path' : List S} :
    findThis kind path' (getThis kind path s).2 = findThis kind path' s := by
  by_cases hpath : functions kind path = []
  · rw [getThis_snd_of_nil hpath]
  · rw [getThis_snd hpath, findThis_setLexVar rfl]

/-- The scopes in which a super call finds the function object. -/
def superCallScopes (kind : S → ScopeKind) (path : List S) (s : OfConstructor S X) :
    OfConstructor S X :=
  if functions kind path = [] then s
  else s.setLexVar (scopeKind kind) none .this (path.map some)

theorem findThis_superCallScopes {path' : List S} :
    findThis kind path' (superCallScopes kind path s) = findThis kind path' s := by
  unfold superCallScopes
  split
  · rfl
  · exact findThis_setLexVar rfl

theorem setThis_getThis :
    setThis kind path (getThis kind path s).2 = (getThis kind path s).1 := by
  rw [getThis_fst, setThis, findThis_getThis]

theorem compile_superCall :
    (Step.superCall path).compile kind s
      = ([.superCall path (loadCtorObj kind path (superCallScopes kind path s)).1,
          .loadThis path (getThis kind path (loadCtorObj kind path
            (superCallScopes kind path s)).2).1,
          .storeThis path (getThis kind path (loadCtorObj kind path
            (superCallScopes kind path s)).2).1],
        (getThis kind path (loadCtorObj kind path (superCallScopes kind path s)).2).2) := by
  simp only [Step.compile, compileSuperCall, setThis_getThis]
  rfl

/-- The loads and stores of `this` that a step is compiled into. -/
theorem mem_compile_this {access : Access X} {path' : List S}
    (h : .loadThis path' access ∈ (step.compile kind s).1
      ∨ .storeThis path' access ∈ (step.compile kind s).1) :
    step.thisPath = some path' ∧
      access = match (step.compile kind s).2.idxLex none .this with
        | some slot => .lexical (findThis kind path' s) slot
        | none => .register .this := by
  cases step with
  | superCall path =>
    rw [compile_superCall] at h ⊢
    obtain ⟨rfl, rfl⟩ : path' = path ∧ access = (getThis kind path
        (loadCtorObj kind path (superCallScopes kind path s)).2).1 := by simpa using h
    refine ⟨rfl, ?_⟩
    rw [getThis_fst, findThis_loadCtorObj, findThis_superCallScopes]
  | useThis path =>
    obtain ⟨rfl, rfl⟩ : path' = path ∧ access = (getThis kind path s).1 := by
      simpa [Step.compile] using h
    exact ⟨rfl, getThis_fst⟩
  | capture refs owner v => simp [Step.compile] at h
  | captureOutside refs => simp [Step.compile] at h

/-- Every use of `this` is compiled into a load. -/
theorem exists_loadThis (h : step.thisPath = some path) :
    ∃ access, .loadThis path access ∈ (step.compile kind s).1 := by
  cases step with
  | superCall path' =>
    cases h
    exact ⟨_, List.mem_cons_of_mem _ List.mem_cons_self⟩
  | useThis path' =>
    cases h
    exact ⟨_, List.mem_singleton.mpr rfl⟩
  | capture refs owner v => cases h
  | captureOutside refs => cases h

end Step

section Locations

variable {kind : S → ScopeKind} {t : OfConstructor S X} {path : List S} {level slot : ℕ}

omit [DecidableEq S] [DecidableEq X] in
theorem envsAt_eq (hctor : t.needCreateLexEnv none) :
    envsAt kind t path = t.lexEnvs (scopeKind kind) (path.map some) ++ [none] := by
  simp [envsAt, Scopes.lexEnvs, scopeKind, hctor]

omit [DecidableEq S] [DecidableEq X] in
theorem length_lexEnvs
    (hpath : ∀ x ∈ path, kind x = .function → t.needCreateLexEnv (some x)) :
    (t.lexEnvs (scopeKind kind) (path.map some)).length = findThis kind path t := by
  have hmap : ∀ x ∈ path.map some, scopeKind kind x = .function → t.needCreateLexEnv x := by
    simpa [scopeKind] using hpath
  exact Scopes.length_lexEnvs hmap

omit [DecidableEq S] [DecidableEq X] in
/-- The environment of the constructor is behind those that `find` counts in the end. -/
theorem getElem?_envsAt (hctor : t.needCreateLexEnv none)
    (hpath : ∀ x ∈ path, kind x = .function → t.needCreateLexEnv (some x)) :
    (envsAt kind t path)[level]? = some none ↔ level = findThis kind path t := by
  rw [envsAt_eq hctor, ← length_lexEnvs hpath]
  constructor
  · intro hget
    by_contra hne
    have hmem : none ∈ t.lexEnvs (scopeKind kind) (path.map some) := by
      rw [List.getElem?_append] at hget
      split at hget
      · exact List.mem_of_getElem? hget
      · have hzero : level - (t.lexEnvs (scopeKind kind) (path.map some)).length = 0 := by
          by_contra hpos
          rw [List.getElem?_eq_none (by simp; omega)] at hget
          cases hget
        omega
    simp [Scopes.lexEnvs] at hmem
  · rintro rfl
    simp

omit [DecidableEq S] [DecidableEq X] in
theorem lexical_right (hctor : t.needCreateLexEnv none)
    (hpath : ∀ x ∈ path, kind x = .function → t.needCreateLexEnv (some x))
    (hslot : t.idxLex none .this = some slot) :
    (Access.lexical level slot : Access X).location kind t path = some (thisLocation t)
      ↔ level = findThis kind path t := by
  rw [← getElem?_envsAt hctor hpath, Access.location, thisLocation, hslot]
  cases h : (envsAt kind t path)[level]? <;> simp

omit [DecidableEq S] [DecidableEq X] in
theorem superCall_right (hctor : t.needCreateLexEnv none)
    (hpath : ∀ x ∈ path, kind x = .function → t.needCreateLexEnv (some x))
    {o : Option S} (hslot : t.idxLex o .funcObj = some slot) :
    (Insn.superCall path (.lexical (functions kind path).length slot)).Right kind t
      ↔ (∀ l ∈ path, kind l = .loop → ¬ t.needCreateLexEnv (some l)) ∧
        t.idxLex o .funcObj = t.idxLex none .funcObj := by
  have hloops : (functions kind path).length = findThis kind path t
      ↔ ∀ l ∈ path, kind l = .loop → ¬ t.needCreateLexEnv (some l) := by
    have hcount : (functions kind path).length
        = (path.map some).countP fun x => scopeKind kind x = .function := by
      rw [functions, ← List.countP_eq_length_filter, List.countP_map]
      rfl
    rw [hcount, findThis, Scopes.countP_function_eq_iff]
    simp [scopeKind]
  rw [← hloops, ← getElem?_envsAt hctor hpath, hslot]
  simp only [Insn.Right, Access.location, HoldsFuncObj]
  cases h : (envsAt kind t path)[(functions kind path).length]? with
  | none => simp
  | some x => cases x <;> simp [eq_comm]

end Locations

section Run

variable {kind : S → ScopeKind} {s : OfConstructor S X} {recorded : Option S → Bool}
  {captures : List (Option S × Variable X)} {steps pre post : List (Step S X)} {step : Step S X}

theorem compile_append : compile kind s (pre ++ post)
    = ((compile kind s pre).1 ++ (compile kind (compile kind s pre).2 post).1,
      (compile kind (compile kind s pre).2 post).2) := by
  induction pre generalizing s with
  | nil => rfl
  | cons step pre ih => simp [compile, ih]

theorem run_tracks (h : Tracks (scopeKind kind) recorded captures s) :
    Tracks (scopeKind kind) recorded (captures ++ steps.flatMap (Step.captures kind))
      (compile kind s steps).2 := by
  induction steps generalizing s captures with
  | nil => simpa [compile] using h
  | cons step steps ih =>
    have hstep : Tracks (scopeKind kind) recorded (captures ++ step.captures kind)
        (step.compile kind s).2 := compile_tracks h
    simpa [compile] using ih hstep

theorem run_needCreateLexEnv {y : Option S} (hy : s.needCreateLexEnv y) :
    (compile kind s steps).2.needCreateLexEnv y := by
  induction steps generalizing s with
  | nil => exact hy
  | cons step steps ih => exact ih (compile_needCreateLexEnv hy)

theorem mem_compile_iff {i : Insn S X} :
    i ∈ (compile kind s steps).1 ↔ ∃ pre step post, steps = pre ++ step :: post ∧
      i ∈ (step.compile kind (compile kind s pre).2).1 := by
  constructor
  · intro h
    induction steps generalizing s with
    | nil => simp [compile] at h
    | cons step steps ih =>
      rw [compile, List.mem_append] at h
      obtain h | h := h
      · exact ⟨[], step, steps, rfl, h⟩
      · obtain ⟨pre, step', post, rfl, hi⟩ := ih h
        exact ⟨step :: pre, step', post, rfl, hi⟩
  · rintro ⟨pre, step, post, rfl, hi⟩
    rw [compile_append]
    simp [compile, hi]

end Run

namespace Constructor

variable {c : Constructor S X} {pre post : List (Step S X)} {step : Step S X} {path : List S}

theorem recordedScopes_tracks :
    Tracks (scopeKind c.kind) (fun x => x.any c.recorded) [] c.recordedScopes where
  idxLex_eq _ _ := rfl
  startLexIdx_eq _ := rfl
  loop_iff l hl := by
    cases l with
    | none => cases hl
    | some l =>
      have hkind : c.kind l = .loop := hl
      simp [recordedScopes, NeedsEnv, hkind]
  needCreateLexEnv_owner o v h := by cases h

theorem scopesAfter_tracks (steps : List (Step S X)) :
    Tracks (scopeKind c.kind) (fun x => x.any c.recorded) (c.captures steps)
      (c.scopesAfter steps) := run_tracks recordedScopes_tracks

theorem scopesAfter_idxLex (steps : List (Step S X)) (o : Option S) (v : Variable X) :
    (c.scopesAfter steps).idxLex o v = slotOf (c.captures steps) o v :=
  (scopesAfter_tracks steps).idxLex_eq o v

theorem loopEnv_iff {steps : List (Step S X)} {l : S} (hl : c.kind l = .loop) :
    (c.scopesAfter steps).needCreateLexEnv (some l) ↔ c.LoopEnv steps l := by
  rw [(scopesAfter_tracks steps).loop_iff (some l) hl]
  simp [LoopEnv, hl]

theorem scopesAfter_append : c.scopesAfter (pre ++ post)
    = (compile c.kind (c.scopesAfter pre) post).2 := by
  rw [scopesAfter, compile_append]
  rfl

theorem scopesAfter_concat :
    c.scopesAfter (pre ++ [step]) = (step.compile c.kind (c.scopesAfter pre)).2 := by
  rw [scopesAfter_append]
  rfl

theorem findThis_eq_iff (h : c.steps = pre ++ post) :
    findThis c.kind path (c.scopesAfter pre) = findThis c.kind path (c.scopesAfter c.steps)
      ↔ ∀ l ∈ path, c.LoopEnv c.steps l → c.LoopEnv pre l := by
  have hle : ∀ x ∈ path.map some, scopeKind c.kind x = .loop →
      (c.scopesAfter pre).needCreateLexEnv x → (c.scopesAfter c.steps).needCreateLexEnv x := by
    intro x _ _ hx
    rw [h, scopesAfter_append]
    exact run_needCreateLexEnv hx
  rw [findThis, findThis, Scopes.findLevel_eq_iff hle]
  simp only [List.forall_mem_map]
  apply forall₂_congr
  intro l _
  constructor
  · intro hl henv
    exact (loopEnv_iff henv.1).mp (hl henv.1 ((loopEnv_iff henv.1).mpr henv))
  · intro hl hkind henv
    exact (loopEnv_iff hkind).mpr (hl ((loopEnv_iff hkind).mp henv))

omit [DecidableEq S] [DecidableEq X] in
theorem captures_own {steps : List (Step S X)} (h : ∀ step ∈ steps, step.InConstructor c.kind) :
    c.captures steps = [] := by
  apply List.flatMap_eq_nil_iff.mpr
  intro step hstep
  have hin := h step hstep
  cases step with
  | superCall path => exact if_pos hin
  | useThis path => exact if_pos hin
  | capture refs owner v => cases hin
  | captureOutside refs => rfl

omit [DecidableEq S] [DecidableEq X] in
theorem mem_captures (hin : step.InFunction c.kind) (hstep : step.thisPath = some path) :
    (none, .this) ∈ step.captures c.kind := by
  cases step with
  | superCall path =>
    rw [Step.captures, if_neg hin]
    exact List.mem_cons_self
  | useThis path =>
    rw [Step.captures, if_neg hin]
    exact List.mem_cons_self
  | capture refs owner v => cases hstep
  | captureOutside refs => cases hstep

section

variable (h : c.steps = pre ++ step :: post) (hstep : step.thisPath = some path)
include h hstep

/-- Where `this` is used it has been given its place. -/
theorem slot_this :
    slotOf (c.captures (pre ++ [step])) none .this = slotOf (c.captures c.steps) none .this := by
  have hsteps : c.captures c.steps = c.captures (pre ++ [step]) ++ c.captures post := by
    simp [captures, h]
  have hown (hpost : ∀ x ∈ post, x ∈ c.own) : c.captures post = [] :=
    captures_own fun x hx => c.own_inConstructor x (hpost x hx)
  have hinner (hin : step ∈ c.inner) :
      slotOf (c.captures (pre ++ [step])) none .this
        = slotOf (c.captures c.steps) none .this := by
    have hmem : (none, .this) ∈ c.captures (pre ++ [step]) := by
      have hmem := mem_captures (c.inner_inFunction step hin) hstep
      simp [captures, hmem]
    obtain ⟨slot, hslot⟩ := Option.isSome_iff_exists.mp (slotOf_isSome_of_mem hmem)
    rw [hsteps, hslot, slotOf_append_of_eq_some hslot]
  have hsplit : c.inner ++ c.own = pre ++ step :: post := h
  obtain ⟨a, hpre, htail⟩ | ⟨a, hinn, htail⟩ := List.append_eq_append_iff.mp hsplit
  · rw [hsteps, hown (by grind), List.append_nil]
  · cases a with
    | nil =>
      have htail' : c.own = step :: post := by simpa using htail.symm
      rw [hsteps, hown (by grind), List.append_nil]
    | cons x a => exact hinner (by grind)

theorem functions_need :
    ∀ x ∈ path, c.kind x = .function →
      (c.scopesAfter c.steps).needCreateLexEnv (some x) := by
  intro x hx hkind
  rw [h, List.append_cons, scopesAfter_append, scopesAfter_concat]
  exact run_needCreateLexEnv (compile_needCreateLexEnv_function hstep hx hkind)

/-- A use of `this` is right if no loop gets its environment after it is compiled. -/
theorem this_right_iff (hthis : (none, .this) ∈ c.captures c.steps) {access : Access X}
    (haccess : .loadThis path access ∈ (step.compile c.kind (c.scopesAfter pre)).1
      ∨ .storeThis path access ∈ (step.compile c.kind (c.scopesAfter pre)).1) :
    access.location c.kind (c.scopesAfter c.steps) path
        = some (thisLocation (c.scopesAfter c.steps))
      ↔ ∀ l ∈ path, c.LoopEnv c.steps l → c.LoopEnv pre l := by
  obtain ⟨slot, hslot⟩ := Option.isSome_iff_exists.mp (slotOf_isSome_of_mem hthis)
  have hfinal : (c.scopesAfter c.steps).idxLex none .this = some slot := by
    rw [scopesAfter_idxLex, hslot]
  have hnow : (step.compile c.kind (c.scopesAfter pre)).2.idxLex none .this = some slot := by
    rw [← scopesAfter_concat, scopesAfter_idxLex, slot_this h hstep, hslot]
  have hctor := (scopesAfter_tracks c.steps).needCreateLexEnv_owner none .this hthis
  obtain ⟨_, rfl⟩ := mem_compile_this haccess
  rw [hnow, ← findThis_eq_iff h]
  exact lexical_right hctor (functions_need h hstep) hfinal

end

theorem getThis_idxLex {s : OfConstructor S X} {o : Option S} {v : Variable X} {slot : ℕ}
    (hslot : s.idxLex o v = some slot) : (getThis c.kind path s).2.idxLex o v = some slot := by
  by_cases hpath : functions c.kind path = []
  · rw [getThis_snd_of_nil hpath, hslot]
  · rw [getThis_snd hpath]
    exact Scopes.setLexVar_idxLex_of_eq_some hslot

/-- The function object is found through environments of arrow functions alone, in the slot
of the first function outside. -/
theorem ctorObj_right_iff (h : c.steps = pre ++ Step.superCall path :: post)
    (harrow : functions c.kind path ≠ []) :
    c.Right (.superCall path (loadCtorObj c.kind path
        (superCallScopes c.kind path (c.scopesAfter pre))).1)
      ↔ (∀ l ∈ path, ¬ c.LoopEnv c.steps l) ∧
        slotOf (c.captures c.steps) (outerFunc c.kind path) .funcObj
          = slotOf (c.captures c.steps) none .funcObj := by
  have hthis : (none, .this) ∈ c.captures c.steps := by
    have hmem : (none, .this) ∈ (Step.superCall path : Step S X).captures c.kind :=
      mem_captures harrow rfl
    simp [captures, h, hmem]
  have hctor := (scopesAfter_tracks c.steps).needCreateLexEnv_owner none .this hthis
  let s := superCallScopes c.kind path (c.scopesAfter pre)
  have hsome : ((loadCtorObj c.kind path s).2.idxLex (outerFunc c.kind path) .funcObj).isSome := by
    rw [loadCtorObj_eq harrow]
    exact Scopes.setLexVar_isSome
  obtain ⟨slot, hslot⟩ := Option.isSome_iff_exists.mp hsome
  have hfinal :
      (c.scopesAfter c.steps).idxLex (outerFunc c.kind path) .funcObj = some slot := by
    have hnow : (c.scopesAfter (pre ++ [Step.superCall path])).idxLex (outerFunc c.kind path) .funcObj
        = some slot := by
      rw [scopesAfter_concat, compile_superCall]
      exact getThis_idxLex hslot
    rw [scopesAfter_idxLex] at hnow ⊢
    have hsteps : c.captures c.steps
        = c.captures (pre ++ [Step.superCall path]) ++ c.captures post := by
      simp [captures, h]
    rw [hsteps, slotOf_append_of_eq_some hnow]
  have haccess : (loadCtorObj c.kind path s).1
      = .lexical (functions c.kind path).length slot := by
    rw [loadCtorObj_eq harrow, hslot]
    rfl
  rw [haccess, Right, superCall_right hctor (functions_need h rfl) hfinal]
  simp only [scopesAfter_idxLex]
  apply and_congr_left
  intro _
  apply forall₂_congr
  intro l _
  constructor
  · intro hl henv
    exact hl henv.1 ((loopEnv_iff henv.1).mpr henv)
  · intro hl hkind hneed
    exact hl ((loopEnv_iff hkind).mp hneed)


/-- `constructor() { () => super(); this }` -/
def directArrow : Constructor ℕ ℕ where
  kind _ := .function
  recorded _ := false
  inner := [.superCall [0]]
  own := [.useThis []]
  inner_inFunction := by simp [Step.InFunction, functions]
  own_inConstructor := by simp [Step.InConstructor, functions]

/-- `constructor() { () => { () => super() } }`: the slot is one of the outer arrow function. -/
def nestedArrows : Constructor ℕ ℕ where
  kind _ := .function
  recorded _ := false
  inner := [.superCall [1, 0]]
  own := []
  inner_inFunction := by simp [Step.InFunction, functions]
  own_inConstructor := by simp [Step.InConstructor, functions]

end Constructor

end ArkTs2abc.Ts2panda.SuperCall
