import Mathlib.Data.List.Basic
import Mathlib.Logic.Function.Basic

/-!
# Scopes and the lexical environments they get

A variable that a nested function refers to moves to a slot of the environment of its
scope. `setLexVar` gives it the next slot, when it is referred to for the first time,
and marks the functions between. A loop gets an environment only if one of its own
variables moves, or if the recorder has said so before.

Which slots there are and which loops have environments can be read off the variables
captured so far.

## Main definitions

* `Scopes` — what the scopes keep, with `setLexVar` and `findLevel`.
* `Scopes.lexEnvs` — the environments of a running function.
* `slotOf`, `NeedsEnv` — the same from the captures alone.

## Main results

* `Tracks.setLexVar` — `setLexVar` keeps the two views together.
-/

namespace ArkTs2abc.Ts2panda.ScopeChain

inductive ScopeKind where
  | block | loop | function
  deriving DecidableEq, Repr

/-- What the scopes and their variables know about environments. -/
structure Scopes (S V : Type) where
  needCreateLexEnv : S → Bool
  startLexIdx : S → ℕ
  idxLex : S → V → Option ℕ

variable {S V : Type} [DecidableEq S] [DecidableEq V] (kind : S → ScopeKind)

namespace Scopes

def pendingCreateEnv (s : Scopes S V) (x : S) : Scopes S V :=
  { s with needCreateLexEnv := Function.update s.needCreateLexEnv x true }

/-- `Variable.setLexVar`, with `getLexVarIdx`. -/
def newSlot (s : Scopes S V) (owner : S) (v : V) : Scopes S V :=
  { needCreateLexEnv := Function.update s.needCreateLexEnv owner true
    startLexIdx := Function.update s.startLexIdx owner (s.startLexIdx owner + 1)
    idxLex := Function.update s.idxLex owner
      (Function.update (s.idxLex owner) v (some (s.startLexIdx owner))) }

/-- A function, or a loop that has an environment by now. -/
def hasLevel (s : Scopes S V) (x : S) : Bool :=
  kind x = .function || (kind x = .loop && s.needCreateLexEnv x)

/-- The chain is made to create environments. -/
def markChain (s : Scopes S V) : List S → Scopes S V
  | [] => s
  | x :: refs => markChain (if s.hasLevel kind x then s.pendingCreateEnv x else s) refs

/-- `setLexVar`, with the scopes from the reference up to the owner. -/
def setLexVar (s : Scopes S V) (owner : S) (v : V) (refs : List S) : Scopes S V :=
  let s := if (s.idxLex owner v).isSome then s else s.newSlot owner v
  s.markChain kind refs

/-- The level that `find` returns: the scopes are those below the one it finds. -/
def findLevel (s : Scopes S V) (path : List S) : ℕ := path.countP (s.hasLevel kind)

/-- The environments at run time, innermost first. -/
def lexEnvs (s : Scopes S V) (path : List S) : List S :=
  path.filter fun x => kind x ≠ .block ∧ s.needCreateLexEnv x

end Scopes

/-- The variables of a scope in the order in which they were captured. -/
def varsOf (o : S) (captures : List (S × V)) : List V :=
  ((captures.filter fun c => c.1 = o).map Prod.snd).eraseDups

def slotOf (captures : List (S × V)) (o : S) (v : V) : Option ℕ := (varsOf o captures).idxOf? v

/-- The loop has an environment, by the recorder or for one of its variables. -/
def NeedsEnv (recorded : S → Bool) (captures : List (S × V)) (l : S) : Prop :=
  recorded l ∨ ∃ v, (l, v) ∈ captures

/-- The scopes after these captures. -/
structure Tracks (recorded : S → Bool) (captures : List (S × V)) (s : Scopes S V) : Prop where
  idxLex_eq : ∀ o v, s.idxLex o v = slotOf captures o v
  startLexIdx_eq : ∀ o, s.startLexIdx o = (varsOf o captures).length
  loop_iff : ∀ l, kind l = .loop → (s.needCreateLexEnv l ↔ NeedsEnv recorded captures l)
  needCreateLexEnv_owner : ∀ o v, (o, v) ∈ captures → s.needCreateLexEnv o

section Vars

variable {captures : List (S × V)} {o owner : S} {v w : V}

omit [DecidableEq S] in
theorem eraseDups_concat (l : List V) (v : V) :
    (l ++ [v]).eraseDups = if v ∈ l then l.eraseDups else l.eraseDups ++ [v] := by
  by_cases hv : v ∈ l <;> simp [List.eraseDups_append, List.removeAll, List.eraseDups_cons, hv]

theorem varsOf_append (captures : List (S × V)) (o owner : S) (v : V) :
    varsOf o (captures ++ [(owner, v)])
      = if owner = o ∧ v ∉ varsOf o captures then varsOf o captures ++ [v]
        else varsOf o captures := by
  by_cases howner : owner = o
  · subst howner
    simp only [varsOf, List.filter_append, List.map_append, List.filter_cons, decide_true, if_true,
      List.filter_nil, List.map_cons, List.map_nil, eraseDups_concat, List.mem_eraseDups, true_and,
      ite_not]
  · simp [varsOf, howner, List.filter_append]

theorem mem_varsOf : v ∈ varsOf o captures ↔ (o, v) ∈ captures := by simp [varsOf]

theorem slotOf_isSome : (slotOf captures o v).isSome ↔ v ∈ varsOf o captures := by
  simp [slotOf, List.isSome_idxOf?]

theorem slotOf_append_old (hv : (slotOf captures owner v).isSome) :
    slotOf (captures ++ [(owner, v)]) o w = slotOf captures o w := by
  rw [slotOf_isSome] at hv
  unfold slotOf
  rw [varsOf_append, if_neg]
  rintro ⟨rfl, hv'⟩
  exact hv' hv

omit [DecidableEq S] in
theorem idxOf?_concat (l : List V) (v w : V) :
    (l ++ [v]).idxOf? w = (l.idxOf? w).or (if v = w then some l.length else none) := by
  induction l with
  | nil => simp [List.idxOf?_cons]
  | cons x l ih =>
    rw [List.cons_append, List.idxOf?_cons, List.idxOf?_cons, ih]
    by_cases hx : x = w
    · simp [hx]
    · by_cases hv : v = w <;> cases h : l.idxOf? w <;> simp [hx, hv]

theorem slotOf_append_new (hv : ¬ (slotOf captures owner v).isSome) :
    slotOf (captures ++ [(owner, v)]) o w
      = if o = owner ∧ w = v then some (varsOf owner captures).length
        else slotOf captures o w := by
  rw [slotOf_isSome] at hv
  by_cases ho : o = owner
  · subst ho
    have hnew : varsOf o (captures ++ [(o, v)]) = varsOf o captures ++ [v] := by
      rw [varsOf_append, if_pos ⟨rfl, hv⟩]
    by_cases hw : w = v
    · subst hw
      have hnone : (varsOf o captures).idxOf? w = none := List.idxOf?_eq_none_iff.mpr hv
      simp [slotOf, hnew, idxOf?_concat, hnone]
    · simp [slotOf, hnew, idxOf?_concat, hw, Ne.symm hw]
  · unfold slotOf
    rw [varsOf_append, if_neg (by grind), if_neg (by grind)]

theorem slotOf_append_of_eq_some {n : ℕ} (hslot : slotOf captures o w = some n)
    (captures' : List (S × V)) : slotOf (captures ++ captures') o w = some n := by
  induction captures' generalizing captures with
  | nil => simpa using hslot
  | cons c captures' ih =>
    rw [List.append_cons]
    apply ih
    by_cases hv : (slotOf captures c.1 c.2).isSome
    · rw [slotOf_append_old hv]
      exact hslot
    · rw [slotOf_append_new hv, if_neg]
      · exact hslot
      · rintro ⟨rfl, rfl⟩
        simp [hslot] at hv

theorem slotOf_isSome_of_mem (h : (o, v) ∈ captures) : (slotOf captures o v).isSome :=
  slotOf_isSome.mpr (mem_varsOf.mpr h)

end Vars

theorem countP_eq_countP_iff {α : Type} {p q : α → Bool} {l : List α}
    (h : ∀ x ∈ l, p x → q x) : l.countP p = l.countP q ↔ ∀ x ∈ l, q x → p x := by
  induction l with
  | nil => simp
  | cons x l ih =>
    have ih := ih fun y hy => h y (List.mem_cons_of_mem x hy)
    have hle : l.countP p ≤ l.countP q :=
      List.countP_mono_left fun y hy => h y (List.mem_cons_of_mem x hy)
    have hx := h x List.mem_cons_self
    rw [List.countP_cons, List.countP_cons, List.forall_mem_cons, ← ih]
    cases hp : p x <;> cases hq : q x <;> grind

section Scopes

variable {kind} {s : Scopes S V} {x y owner : S} {v : V} {refs path : List S}

namespace Scopes

omit [DecidableEq V] in
@[simp] theorem markChain_idxLex : (s.markChain kind refs).idxLex = s.idxLex := by
  induction refs generalizing s with
  | nil => rfl
  | cons x refs ih => rw [markChain, ih]; split <;> rfl

omit [DecidableEq V] in
@[simp] theorem markChain_startLexIdx : (s.markChain kind refs).startLexIdx = s.startLexIdx := by
  induction refs generalizing s with
  | nil => rfl
  | cons x refs ih => rw [markChain, ih]; split <;> rfl

omit [DecidableEq V] in
theorem markChain_needCreateLexEnv :
    (s.markChain kind refs).needCreateLexEnv y
      ↔ s.needCreateLexEnv y ∨ y ∈ refs ∧ kind y = .function := by
  induction refs generalizing s with
  | nil => simp [markChain]
  | cons x refs ih =>
    rw [markChain, ih]
    by_cases hx : s.hasLevel kind x
    · rw [if_pos hx]
      simp only [hasLevel, Bool.or_eq_true, decide_eq_true_eq, Bool.and_eq_true] at hx
      by_cases hy : y = x
      · subst hy
        simp only [pendingCreateEnv, Function.update_self, List.mem_cons]
        grind
      · simp only [pendingCreateEnv, Function.update_of_ne hy, List.mem_cons]
        grind
    · rw [if_neg hx]
      simp only [hasLevel, Bool.or_eq_true, decide_eq_true_eq, not_or] at hx
      grind

omit [DecidableEq S] [DecidableEq V] in
/-- Where every function has its environment, there are as many as `find` counts. -/
theorem length_lexEnvs (h : ∀ x ∈ path, kind x = .function → s.needCreateLexEnv x) :
    (s.lexEnvs kind path).length = s.findLevel kind path := by
  rw [lexEnvs, findLevel, ← List.countP_eq_length_filter]
  apply List.countP_congr
  intro x hx
  have hfun := h x hx
  cases hkind : kind x <;> simp_all [hasLevel]

theorem setLexVar_of_isSome (hv : (s.idxLex owner v).isSome) :
    s.setLexVar kind owner v refs = s.markChain kind refs := by
  simp [setLexVar, hv]

theorem setLexVar_of_not_isSome (hv : ¬ (s.idxLex owner v).isSome) :
    s.setLexVar kind owner v refs = (s.newSlot owner v).markChain kind refs := by
  simp [setLexVar, hv]

theorem setLexVar_isSome : ((s.setLexVar kind owner v refs).idxLex owner v).isSome := by
  by_cases hv : (s.idxLex owner v).isSome
  · simpa [setLexVar_of_isSome hv] using hv
  · simp [setLexVar_of_not_isSome hv, newSlot]

theorem setLexVar_idxLex_of_eq_some {o : S} {w : V} {n : ℕ} (hslot : s.idxLex o w = some n) :
    (s.setLexVar kind owner v refs).idxLex o w = some n := by
  by_cases hv : (s.idxLex owner v).isSome
  · rw [setLexVar_of_isSome hv, markChain_idxLex, hslot]
  · rw [setLexVar_of_not_isSome hv, markChain_idxLex]
    simp only [newSlot, Function.update_apply]
    grind

theorem needCreateLexEnv_setLexVar (h : s.needCreateLexEnv y) :
    (s.setLexVar kind owner v refs).needCreateLexEnv y := by
  by_cases hv : (s.idxLex owner v).isSome
  · rw [setLexVar_of_isSome hv, markChain_needCreateLexEnv]
    exact Or.inl h
  · rw [setLexVar_of_not_isSome hv, markChain_needCreateLexEnv]
    left
    by_cases hy : y = owner
    · simp [newSlot, hy]
    · simp [newSlot, hy, h]

theorem findLevel_setLexVar (howner : kind owner = .function) :
    (s.setLexVar kind owner v refs).findLevel kind path = s.findLevel kind path := by
  apply List.countP_congr
  intro x hx
  cases hkind : kind x with
  | block => simp [hasLevel, hkind]
  | function => simp [hasLevel, hkind]
  | loop =>
    have hne : x ≠ owner := by
      rintro rfl
      simp [hkind] at howner
    suffices (s.setLexVar kind owner v refs).needCreateLexEnv x ↔ s.needCreateLexEnv x by
      simpa [hasLevel, hkind] using this
    by_cases hv : (s.idxLex owner v).isSome
    · simp [setLexVar_of_isSome hv, markChain_needCreateLexEnv, hkind]
    · simp [setLexVar_of_not_isSome hv, markChain_needCreateLexEnv, hkind, newSlot, hne]

omit [DecidableEq V] in
theorem findLevel_pendingCreateEnv (hx : kind x = .function) :
    (s.pendingCreateEnv x).findLevel kind path = s.findLevel kind path := by
  apply List.countP_congr
  intro y hy
  by_cases hyx : y = x
  · simp [hasLevel, hyx, hx]
  · simp [hasLevel, pendingCreateEnv, hyx]

omit [DecidableEq S] [DecidableEq V] in
theorem findLevel_eq_iff {s t : Scopes S V}
    (h : ∀ x ∈ path, kind x = .loop → s.needCreateLexEnv x → t.needCreateLexEnv x) :
    s.findLevel kind path = t.findLevel kind path
      ↔ ∀ x ∈ path, kind x = .loop → t.needCreateLexEnv x → s.needCreateLexEnv x := by
  have hle : ∀ x ∈ path, s.hasLevel kind x → t.hasLevel kind x := by
    intro x hx hlevel
    have hloop := h x hx
    cases hkind : kind x <;> simp_all [hasLevel]
  rw [findLevel, findLevel, countP_eq_countP_iff hle]
  apply forall₂_congr
  intro x hx
  cases hkind : kind x <;> simp [hasLevel, hkind]

omit [DecidableEq S] [DecidableEq V] in
theorem countP_function_eq_iff :
    (path.countP fun x => kind x = .function) = s.findLevel kind path
      ↔ ∀ x ∈ path, kind x = .loop → ¬ s.needCreateLexEnv x := by
  rw [findLevel, countP_eq_countP_iff (by simp +contextual [hasLevel])]
  apply forall₂_congr
  intro x hx
  cases hkind : kind x <;> simp [hasLevel, hkind]

theorem setLexVar_needCreateLexEnv_function (hy : y ∈ refs) (hfun : kind y = .function) :
    (s.setLexVar kind owner v refs).needCreateLexEnv y := by
  by_cases hv : (s.idxLex owner v).isSome
  · rw [setLexVar_of_isSome hv, markChain_needCreateLexEnv]
    exact Or.inr ⟨hy, hfun⟩
  · rw [setLexVar_of_not_isSome hv, markChain_needCreateLexEnv]
    exact Or.inr ⟨hy, hfun⟩

end Scopes

namespace Tracks

variable {recorded : S → Bool} {captures : List (S × V)}

section

variable (h : Tracks kind recorded captures s)
include h

theorem markChain :
    Tracks kind recorded captures (s.markChain kind refs) where
  idxLex_eq := by simpa using h.idxLex_eq
  startLexIdx_eq := by simpa using h.startLexIdx_eq
  loop_iff l hl := by
    rw [Scopes.markChain_needCreateLexEnv, ← h.loop_iff l hl]
    simp [hl]
  needCreateLexEnv_owner o v hv :=
    Scopes.markChain_needCreateLexEnv.mpr (Or.inl (h.needCreateLexEnv_owner o v hv))

theorem pendingCreateEnv (hx : kind x = .function) :
    Tracks kind recorded captures (s.pendingCreateEnv x) where
  idxLex_eq := h.idxLex_eq
  startLexIdx_eq := h.startLexIdx_eq
  loop_iff l hl := by
    have hne : l ≠ x := by
      rintro rfl
      simp [hl] at hx
    simpa [Scopes.pendingCreateEnv, hne] using h.loop_iff l hl
  needCreateLexEnv_owner o v hv := by
    have hold := h.needCreateLexEnv_owner o v hv
    simp only [Scopes.pendingCreateEnv, Function.update_apply]
    grind

theorem newSlot (hv : ¬ (s.idxLex owner v).isSome) :
    Tracks kind recorded (captures ++ [(owner, v)]) (s.newSlot owner v) where
  idxLex_eq o w := by
    rw [h.idxLex_eq] at hv
    rw [slotOf_append_new hv, ← h.idxLex_eq o w, ← h.startLexIdx_eq]
    simp only [Scopes.newSlot, Function.update_apply]
    grind
  startLexIdx_eq o := by
    rw [h.idxLex_eq, slotOf_isSome] at hv
    rw [varsOf_append]
    simp only [Scopes.newSlot, Function.update_apply, h.startLexIdx_eq]
    grind
  loop_iff l hl := by
    have hold := h.loop_iff l hl
    simp only [NeedsEnv, List.mem_append, List.mem_singleton, Prod.mk.injEq] at hold ⊢
    simp only [Scopes.newSlot, Function.update_apply]
    grind
  needCreateLexEnv_owner o w hw := by
    have hold := h.needCreateLexEnv_owner o w
    simp only [List.mem_append, List.mem_singleton, Prod.mk.injEq] at hw
    simp only [Scopes.newSlot, Function.update_apply]
    grind

theorem old (hv : (s.idxLex owner v).isSome) :
    Tracks kind recorded (captures ++ [(owner, v)]) s where
  idxLex_eq o w := by
    rw [h.idxLex_eq] at hv
    rw [slotOf_append_old hv, h.idxLex_eq]
  startLexIdx_eq o := by
    rw [h.idxLex_eq, slotOf_isSome] at hv
    rw [varsOf_append, h.startLexIdx_eq, if_neg (by grind)]
  loop_iff l hl := by
    have hcap : (owner, v) ∈ captures := by
      rwa [h.idxLex_eq, slotOf_isSome, mem_varsOf] at hv
    rw [h.loop_iff l hl]
    simp only [NeedsEnv, List.mem_append, List.mem_singleton, Prod.mk.injEq]
    grind
  needCreateLexEnv_owner o w hw := by
    have hcap : (owner, v) ∈ captures := by
      rwa [h.idxLex_eq, slotOf_isSome, mem_varsOf] at hv
    apply h.needCreateLexEnv_owner o w
    grind

theorem setLexVar :
    Tracks kind recorded (captures ++ [(owner, v)]) (s.setLexVar kind owner v refs) := by
  by_cases hv : (s.idxLex owner v).isSome
  · rw [Scopes.setLexVar_of_isSome hv]
    exact (h.old hv).markChain
  · rw [Scopes.setLexVar_of_not_isSome hv]
    exact (h.newSlot hv).markChain

end

end Tracks

end Scopes

end ArkTs2abc.Ts2panda.ScopeChain
