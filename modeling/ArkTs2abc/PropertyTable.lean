import Mathlib.Data.List.Basic
import Mathlib.Logic.Function.Basic
import Mathlib.Algebra.Ring.Nat

/-!
# Tables of properties

A table keeps its keys in the order in which they were defined first, and for each key a value or a pair of
accessors. Definitions on one key do not depend on those on the others, so a run of definitions is a run at
each of its keys.

## Main definitions

* `PropertyTable.Slot`, `PropertyTable.Change` — a property, and what a definition does to it.
* `PropertyTable.Table` — keys in order and their properties.
* `PropertyTable.runSlot`, `PropertyTable.changes` — a run at one key.

## Main results

* `PropertyTable.slot_defineAll`, `PropertyTable.keys_defineAll` — a run in these terms.
* `PropertyTable.runSlot_congr` — when what was there before a run makes no difference.
-/

namespace PropertyTable

inductive Side where
  | get | set
  deriving DecidableEq, Repr

def Side.other : Side → Side
  | get => set
  | set => get

theorem Side.eq_or_eq_other (side side' : Side) : side' = side ∨ side' = side.other := by
  cases side <;> cases side' <;> simp [other]

/-- A property: a value, or a getter and a setter. -/
inductive Slot (V F : Type) where
  | data (value : V)
  | accessor (get set : Option F)

/-- What a definition does: the value is replaced, or one of the accessors. -/
inductive Change (V F : Type) where
  | data (value : V)
  | accessor (side : Side) (f : F)

variable {K V F : Type}

/-- The accessor of a side; a value has none. -/
def Slot.field (side : Side) : Option (Slot V F) → Option F
  | some (.accessor get set) => match side with
    | .get => get
    | .set => set
  | some (.data _) | none => none

/-- The other accessor stays, if there is one. -/
def Change.apply (c : Change V F) (s : Option (Slot V F)) : Slot V F :=
  match c with
  | .data v => .data v
  | .accessor .get f => .accessor (some f) (Slot.field .set s)
  | .accessor .set f => .accessor (Slot.field .get s) (some f)

@[simp] theorem Slot.field_none (side : Side) : Slot.field side (none : Option (Slot V F)) = none := by
  cases side <;> rfl

@[simp] theorem Slot.field_data (side : Side) (v : V) :
    Slot.field side (some (.data v : Slot V F)) = none := by
  cases side <;> rfl

@[simp] theorem Change.field_apply_data (side : Side) (v : V) (s : Option (Slot V F)) :
    Slot.field side (some (Change.apply (.data v) s)) = none := by
  cases side <;> rfl

theorem Change.field_apply_self (side : Side) (f : F) (s : Option (Slot V F)) :
    Slot.field side (some (Change.apply (.accessor side f) s)) = some f := by
  cases side <;> rfl

theorem Change.field_apply_other (side : Side) (f : F) (s : Option (Slot V F)) :
    Slot.field side (some (Change.apply (.accessor side.other f) s)) = Slot.field side s := by
  cases side <;> rfl

/-! ## Runs at one key -/

/-- The changes one after the other. -/
def runSlot (s : Option (Slot V F)) (cs : List (Change V F)) : Option (Slot V F) :=
  cs.foldl (fun s c => some (c.apply s)) s

@[simp] theorem runSlot_nil (s : Option (Slot V F)) : runSlot s [] = s := rfl

@[simp] theorem runSlot_cons (s : Option (Slot V F)) (c : Change V F) (cs : List (Change V F)) :
    runSlot s (c :: cs) = runSlot (some (c.apply s)) cs := rfl

theorem runSlot_append (s : Option (Slot V F)) (cs cs' : List (Change V F)) :
    runSlot s (cs ++ cs') = runSlot (runSlot s cs) cs' := List.foldl_append

theorem runSlot_data (s t : Option (Slot V F)) (cs cs' : List (Change V F)) (v : V) :
    runSlot s (cs ++ .data v :: cs') = runSlot t (cs ++ .data v :: cs') := by
  simp only [runSlot_append, runSlot_cons, Change.apply]

variable {cs : List (Change V F)}

theorem field_runSlot_of_others {side : Side} (s : Option (Slot V F))
    (h : ∀ c ∈ cs, ∃ f, c = .accessor side.other f) :
    Slot.field side (runSlot s cs) = Slot.field side s := by
  induction cs generalizing s with
  | nil => rfl
  | cons c cs ih =>
    rw [List.forall_mem_cons] at h
    obtain ⟨⟨f, rfl⟩, hrest⟩ := h
    rw [runSlot_cons, ih _ hrest, Change.field_apply_other]

theorem field_runSlot_isSome {side : Side} (s : Option (Slot V F)) (hs : (Slot.field side s).isSome)
    (h : ∀ c ∈ cs, ∀ v, c ≠ .data v) :
    (Slot.field side (runSlot s cs)).isSome := by
  induction cs generalizing s with
  | nil => exact hs
  | cons c cs ih =>
    rw [List.forall_mem_cons] at h
    refine ih _ ?_ h.2
    cases c with
    | data v => exact absurd rfl (h.1 v)
    | accessor side' f =>
      rcases side.eq_or_eq_other side' with rfl | rfl
      · rw [Change.field_apply_self]
        rfl
      · rwa [Change.field_apply_other]

theorem exists_of_field_runSlot {side : Side} {s : Option (Slot V F)}
    (h : (Slot.field side (runSlot s cs)).isSome) :
    ((Slot.field side s).isSome ∧ ∀ c ∈ cs, ∀ v, c ≠ .data v) ∨
      ∃ l f r, cs = l ++ .accessor side f :: r ∧ ∀ c ∈ r, ∀ v, c ≠ .data v := by
  induction cs generalizing s with
  | nil => exact .inl ⟨h, by simp⟩
  | cons c cs ih =>
    rcases ih h with ⟨hfield, hcs⟩ | ⟨l, f, r, rfl, hr⟩
    · cases c with
      | data v => simp at hfield
      | accessor side' f =>
        rcases side.eq_or_eq_other side' with rfl | rfl
        · exact .inr ⟨[], f, cs, rfl, hcs⟩
        · rw [Change.field_apply_other] at hfield
          exact .inl ⟨hfield, by simpa using hcs⟩
    · exact .inr ⟨c :: l, f, r, rfl, hr⟩

/-- What was there makes no difference to a run that starts with a change, if every accessor that was there
is set again. -/
theorem runSlot_congr {s t : Option (Slot V F)} (hne : cs ≠ [])
    (h : ∀ side, Slot.field side s = Slot.field side t ∨ ∃ f, .accessor side f ∈ cs) :
    runSlot s cs = runSlot t cs := by
  induction cs generalizing s t with
  | nil => exact absurd rfl hne
  | cons c cs ih =>
    -- what the change leaves of the accessors
    have hstep : ∀ side, Slot.field side (some (c.apply s)) = Slot.field side (some (c.apply t)) ∨
        ∃ f, .accessor side f ∈ cs := by
      intro side
      cases c with
      | data v => exact .inl (by simp)
      | accessor side' f =>
        rcases side.eq_or_eq_other side' with rfl | rfl
        · exact .inl (by simp only [Change.field_apply_self])
        · rw [Change.field_apply_other, Change.field_apply_other]
          refine (h side).imp_right ?_
          rintro ⟨f', hf'⟩
          refine ⟨f', (List.mem_cons.mp hf').resolve_left ?_⟩
          cases side <;> simp [Side.other]
    by_cases hcs : cs = []
    · subst hcs
      have hfields : ∀ side, Slot.field side (some (c.apply s)) = Slot.field side (some (c.apply t)) :=
        fun side => (hstep side).resolve_right (by simp)
      cases c with
      | data v => rfl
      | accessor side f =>
        have hget := hfields .get
        have hset := hfields .set
        cases side <;> simp_all [Change.apply, Slot.field]
    · exact ih hcs hstep

theorem runSlot_of_forall_eq {v : V} (h : ∀ c ∈ cs, c = .data v) :
    runSlot (some (.data v)) cs = some (.data v) := by
  induction cs with
  | nil => rfl
  | cons c cs ih =>
    rw [List.forall_mem_cons] at h
    rw [runSlot_cons, h.1]
    exact ih h.2

theorem runSlot_ne_data {v : V} (s : Option (Slot V F)) (hne : cs ≠ []) (h : ∀ c ∈ cs, c ≠ .data v) :
    runSlot s cs ≠ some (.data v) := by
  induction cs generalizing s with
  | nil => exact absurd rfl hne
  | cons c cs ih =>
    rw [List.forall_mem_cons] at h
    by_cases hcs : cs = []
    · subst hcs
      cases c with
      | data v' =>
        intro heq
        cases heq
        exact h.1 rfl
      | accessor side f => cases side <;> simp [Change.apply]
    · exact ih _ hcs h.2

/-! ## Tables -/

/-- The keys in the order in which they were defined first, and their properties. -/
@[ext] structure Table (K V F : Type) where
  keys : List K
  slot : K → Option (Slot V F)

variable [DecidableEq K]

/-- One more key, unless it is there. -/
def addKey (keys : List K) (k : K) : List K := if k ∈ keys then keys else keys ++ [k]

def addKeys (keys ks : List K) : List K := ks.foldl addKey keys

/-- What a run does to one key. -/
def changes (k : K) (ds : List (K × Change V F)) : List (Change V F) :=
  ds.filterMap fun d => if d.1 = k then some d.2 else none

namespace Table

def empty : Table K V F := ⟨[], fun _ => none⟩

def define (t : Table K V F) (d : K × Change V F) : Table K V F where
  keys := addKey t.keys d.1
  slot := Function.update t.slot d.1 (some (d.2.apply (t.slot d.1)))

theorem slot_define_self (t : Table K V F) (k : K) (c : Change V F) :
    (t.define (k, c)).slot k = some (c.apply (t.slot k)) := Function.update_self ..

theorem slot_define_of_ne (t : Table K V F) {d : K × Change V F} {k : K} (h : d.1 ≠ k) :
    (t.define d).slot k = t.slot k := Function.update_of_ne h.symm ..

/-- A run of definitions. -/
def defineAll (t : Table K V F) (ds : List (K × Change V F)) : Table K V F := ds.foldl define t

theorem defineAll_append (t : Table K V F) (ds ds' : List (K × Change V F)) :
    t.defineAll (ds ++ ds') = (t.defineAll ds).defineAll ds' := List.foldl_append

end Table

@[simp] theorem changes_nil (k : K) : changes k ([] : List (K × Change V F)) = [] := rfl

theorem changes_append (k : K) (ds ds' : List (K × Change V F)) :
    changes k (ds ++ ds') = changes k ds ++ changes k ds' := List.filterMap_append

theorem changes_cons_self (k : K) (c : Change V F) (ds : List (K × Change V F)) :
    changes k ((k, c) :: ds) = c :: changes k ds := by
  simp [changes]

theorem changes_cons_of_ne {k : K} {d : K × Change V F} (h : d.1 ≠ k) (ds : List (K × Change V F)) :
    changes k (d :: ds) = changes k ds := by
  simp [changes, h]

theorem mem_changes {k : K} {c : Change V F} {ds : List (K × Change V F)} :
    c ∈ changes k ds ↔ (k, c) ∈ ds := by
  simp only [changes, List.mem_filterMap]
  constructor
  · rintro ⟨⟨k', c'⟩, hmem, heq⟩
    grind
  · intro h
    exact ⟨_, h, if_pos rfl⟩

theorem keys_defineAll (t : Table K V F) (ds : List (K × Change V F)) :
    (t.defineAll ds).keys = addKeys t.keys (ds.map Prod.fst) := by
  induction ds generalizing t with
  | nil => rfl
  | cons d ds ih => exact ih (t.define d)

theorem slot_defineAll (t : Table K V F) (ds : List (K × Change V F)) (k : K) :
    (t.defineAll ds).slot k = runSlot (t.slot k) (changes k ds) := by
  induction ds generalizing t with
  | nil => rfl
  | cons d ds ih =>
    show ((t.define d).defineAll ds).slot k = _
    rw [ih]
    by_cases hk : d.1 = k
    · obtain ⟨k', c⟩ := d
      obtain rfl : k' = k := hk
      rw [changes_cons_self, runSlot_cons, Table.slot_define_self]
    · rw [changes_cons_of_ne hk, Table.slot_define_of_ne _ hk]

/-! ## Keys -/

theorem addKeys_append (keys ks ks' : List K) :
    addKeys keys (ks ++ ks') = addKeys (addKeys keys ks) ks' := List.foldl_append

variable {keys : List K}

theorem addKey_of_mem {k : K} (h : k ∈ keys) : addKey keys k = keys := if_pos h

theorem mem_addKey {k k' : K} : k' ∈ addKey keys k ↔ k' ∈ keys ∨ k' = k := by
  unfold addKey
  split <;> grind

theorem mem_addKeys {ks : List K} {k : K} : k ∈ addKeys keys ks ↔ k ∈ keys ∨ k ∈ ks := by
  induction ks generalizing keys with
  | nil => simp [addKeys]
  | cons k' ks ih =>
    show k ∈ addKeys (addKey keys k') ks ↔ _
    rw [ih, mem_addKey, List.mem_cons, or_assoc]

theorem addKeys_of_subset {ks : List K} (h : ∀ k ∈ ks, k ∈ keys) : addKeys keys ks = keys := by
  induction ks with
  | nil => rfl
  | cons k ks ih =>
    rw [List.forall_mem_cons] at h
    show addKeys (addKey keys k) ks = keys
    rw [addKey_of_mem h.1, ih h.2]

theorem map_addKeys {K' : Type} [DecidableEq K'] {f : K → K'} (hf : Function.Injective f)
    (keys ks : List K) : (addKeys keys ks).map f = addKeys (keys.map f) (ks.map f) := by
  induction ks generalizing keys with
  | nil => rfl
  | cons k ks ih =>
    have hstep : (addKey keys k).map f = addKey (keys.map f) (f k) := by
      have hmem : f k ∈ keys.map f ↔ k ∈ keys := List.mem_map_of_injective hf
      by_cases hk : k ∈ keys
      · rw [addKey_of_mem hk, addKey_of_mem (hmem.mpr hk)]
      · rw [addKey, addKey, if_neg hk, if_neg (hmem.not.mpr hk), List.map_append, List.map_singleton]
    show (addKeys (addKey keys k) ks).map f = _
    rw [ih, hstep]
    rfl

end PropertyTable
