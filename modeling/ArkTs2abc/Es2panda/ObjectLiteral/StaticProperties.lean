import ArkTs2abc.Es2panda.ObjectLiteral.Runs

/-!
# The first pass over an object literal

The pass stops in front of the first new name behind a computed property. What it leaves in the buffer for a
name is the literal of the last property of that name it has looked at.

## Main definitions

* `Property.folds` — the pass is done with the property.
* `Reached` — the pass looks at all of these properties.

## Main results

* `staticLoop_spec` — the buffer and the bits behind the pass.
* `lookup_buffer`, `lookup_buffer_of_last` — what is in the buffer.
-/

namespace ArkTs2abc.Es2panda.ObjectLiteral

/-- The name under which the first pass looks up a property. -/
def Property.staticName (p : Property) : Option Name := p.staticKey.bind literalToPropName

/-- The first pass is done with the property once it has looked at it. -/
def Property.folds (p : Property) : Bool := p.staticKey.isSome && (createLiteral p).2

/-- The first pass stops in front of `p` if it comes there through `pre`, where it knows some names and has
perhaps seen a computed property. -/
def StopsAt (seen : Prop) (known : Name → Prop) (pre : List Property) (p : Property) : Prop :=
  ∃ k, p.staticName = some k ∧ ¬ known k ∧ (∀ q ∈ pre, q.staticName ≠ some k) ∧
    (seen ∨ ∃ q ∈ pre, q.staticKey = none)

/-- It gets through the properties. -/
def ReachedFrom (seen : Prop) (known : Name → Prop) (ps : List Property) : Prop :=
  ∀ pre p post, ps = pre ++ p :: post → ¬ StopsAt seen known pre p

/-- The first pass looks at all of these first properties of a literal. -/
def Reached (ps : List Property) : Prop := ReachedFrom False (fun _ => False) ps

theorem stopsAt_cons {seen : Prop} {known : Name → Prop} {p q : Property} {pre : List Property} :
    StopsAt seen known (p :: pre) q ↔
      StopsAt (seen ∨ p.staticKey = none) (fun k => known k ∨ p.staticName = some k) pre q := by
  simp only [StopsAt, List.forall_mem_cons, List.exists_mem_cons_iff, not_or]
  constructor <;> rintro ⟨k, h⟩ <;> exact ⟨k, by tauto⟩

theorem reachedFrom_nil {seen : Prop} {known : Name → Prop} : ReachedFrom seen known [] := by
  intro pre p post h
  simp at h

theorem reachedFrom_cons {seen : Prop} {known : Name → Prop} {p : Property} {ps : List Property} :
    ReachedFrom seen known (p :: ps) ↔ ¬ StopsAt seen known [] p ∧
      ReachedFrom (seen ∨ p.staticKey = none) (fun k => known k ∨ p.staticName = some k) ps := by
  constructor
  · intro h
    refine ⟨h [] p ps rfl, ?_⟩
    rintro pre q post rfl
    rw [← stopsAt_cons]
    exact h (p :: pre) q post rfl
  · rintro ⟨hp, hps⟩ pre q post h
    cases pre with
    | nil =>
      cases h
      exact hp
    | cons p' pre =>
      cases h
      rw [stopsAt_cons]
      exact hps pre q post rfl

theorem Reached.of_append {ps qs : List Property} (h : Reached (ps ++ qs)) : Reached ps := by
  rintro pre p post rfl
  exact h pre p (post ++ qs) (by simp)

/-! ## The buffer -/

theorem LiteralBuffer.names_reset (buf : LiteralBuffer) (name : Name) (entry : Entry) :
    (buf.reset name entry).names = PropertyTable.addKey buf.names name := by
  induction buf with
  | nil => rfl
  | cons b buf ih =>
    obtain ⟨n, e⟩ := b
    unfold LiteralBuffer.reset
    split
    next h =>
      subst h
      exact (PropertyTable.addKey_of_mem List.mem_cons_self).symm
    next h =>
      have hcons : LiteralBuffer.names ((n, e) :: LiteralBuffer.reset name entry buf) =
          n :: PropertyTable.addKey (LiteralBuffer.names buf) name := congrArg (n :: ·) ih
      rw [hcons]
      unfold PropertyTable.addKey LiteralBuffer.names
      grind

theorem LiteralBuffer.mem_names_reset {buf : LiteralBuffer} {name k : Name} {entry : Entry} :
    k ∈ (buf.reset name entry).names ↔ k ∈ buf.names ∨ k = name := by
  rw [names_reset, PropertyTable.mem_addKey]

theorem LiteralBuffer.lookup_reset_self (buf : LiteralBuffer) (name : Name) (entry : Entry) :
    (buf.reset name entry).lookup name = some entry := by
  induction buf with
  | nil => simp [LiteralBuffer.reset]
  | cons b buf ih =>
    obtain ⟨n, e⟩ := b
    unfold LiteralBuffer.reset
    split
    next h => simp [h]
    next h =>
      have hbeq : (name == n) = false := by simpa using Ne.symm h
      rw [List.lookup_cons, hbeq]
      exact ih

theorem LiteralBuffer.lookup_reset_of_ne {buf : LiteralBuffer} {name k : Name} {entry : Entry}
    (h : k ≠ name) : (buf.reset name entry).lookup k = buf.lookup k := by
  have hbeq : (k == name) = false := by simpa using h
  induction buf with
  | nil => simp [LiteralBuffer.reset, List.lookup_cons, hbeq]
  | cons b buf ih =>
    obtain ⟨n, e⟩ := b
    unfold LiteralBuffer.reset
    split
    next hn =>
      subst hn
      simp only [List.lookup_cons, hbeq]
    next hn => simp only [List.lookup_cons, ih]

/-- What the pass does to the buffer at a property. -/
def addProperty (buf : LiteralBuffer) (p : Property) : LiteralBuffer :=
  match p.staticName with
  | some name => buf.reset name (createLiteral p).1
  | none => buf

/-- The pass ends in front of a name, or at the end of the properties. -/
structure Passed (st st' : StaticProperties) (done rest : List Property) (bits : List Bool) : Prop where
  bits_eq : bits = done.map Property.folds ++ rest.map fun _ => false
  buf_eq : st'.buf = done.foldl addProperty st.buf
  hasMethod : ∀ p ∈ done, p.folds → p.isMethod → st'.hasMethod
  keeps : st.hasMethod → st'.hasMethod
  reached : ReachedFrom (st.seenComputed = true) (· ∈ st.buf.names) done
  named : ∀ p ∈ done, p.staticKey.isSome → p.staticName.isSome
  stops : ∀ p ∈ rest.head?, StopsAt (st.seenComputed = true) (· ∈ st.buf.names) done p

/-- The pass is through all properties or ends in front of one, or it meets a boolean. -/
def Spec (st : StaticProperties) (ps : List Property) : Prop :=
  (∃ st' done rest bits, ps = done ++ rest ∧ staticLoop st ps = some (st', bits) ∧
    Passed st st' done rest bits) ∨
  (staticLoop st ps = none ∧ ∃ pre p post, ps = pre ++ p :: post ∧ p.staticKey.isSome ∧
    p.staticName = none ∧ ReachedFrom (st.seenComputed = true) (· ∈ st.buf.names) pre)

theorem mem_names_addProperty {buf : LiteralBuffer} {p : Property} {k : Name} :
    k ∈ (addProperty buf p).names ↔ k ∈ buf.names ∨ p.staticName = some k := by
  unfold addProperty
  split
  next name h => rw [LiteralBuffer.mem_names_reset, h, Option.some.injEq, eq_comm]
  next h => simp [h]

/-- A property that the pass goes past. -/
theorem spec_cons {st st₁ : StaticProperties} {p : Property} {ps : List Property}
    (hloop : staticLoop st (p :: ps) = (staticLoop st₁ ps).map fun r => (r.1, p.folds :: r.2))
    (hbuf : st₁.buf = addProperty st.buf p)
    (hseen : st₁.seenComputed = true ↔ st.seenComputed = true ∨ p.staticKey = none)
    (hmethod : p.folds → p.isMethod → st₁.hasMethod) (hkeep : st.hasMethod → st₁.hasMethod)
    (hnamed : p.staticKey.isSome → p.staticName.isSome)
    (hstop : ¬ StopsAt (st.seenComputed = true) (· ∈ st.buf.names) [] p) (h : Spec st₁ ps) :
    Spec st (p :: ps) := by
  have hseen' := propext hseen
  have hknown : (· ∈ st₁.buf.names) = fun k => k ∈ st.buf.names ∨ p.staticName = some k := by
    funext k
    rw [hbuf]
    exact propext mem_names_addProperty
  rcases h with ⟨st', done, rest, bits, rfl, hsome, hpassed⟩ | ⟨hnone, pre, q, post, rfl, hkey, hname, hreach⟩
  · refine .inl ⟨st', p :: done, rest, p.folds :: bits, rfl, by rw [hloop, hsome]; rfl, ?_⟩
    have hreached := hpassed.reached
    have hstops := hpassed.stops
    rw [hseen', hknown] at hreached
    simp only [hseen', hknown, ← stopsAt_cons] at hstops
    exact
      { bits_eq := by rw [hpassed.bits_eq]; rfl
        buf_eq := by rw [hpassed.buf_eq, hbuf]; rfl
        hasMethod := List.forall_mem_cons.mpr
          ⟨fun hf hm => hpassed.keeps (hmethod hf hm), hpassed.hasMethod⟩
        keeps := fun hm => hpassed.keeps (hkeep hm)
        reached := reachedFrom_cons.mpr ⟨hstop, hreached⟩
        named := List.forall_mem_cons.mpr ⟨hnamed, hpassed.named⟩
        stops := hstops }
  · refine .inr ⟨by rw [hloop, hnone]; rfl, p :: pre, q, post, rfl, hkey, hname, ?_⟩
    rw [hseen', hknown] at hreach
    exact reachedFrom_cons.mpr ⟨hstop, hreach⟩

theorem staticLoop_spec (st : StaticProperties) (ps : List Property) : Spec st ps := by
  induction ps generalizing st with
  | nil =>
    refine .inl ⟨st, [], [], [], rfl, rfl, ?_⟩
    exact ⟨rfl, rfl, by simp, id, reachedFrom_nil, by simp, by simp⟩
  | cons p ps ih =>
    cases hkey : p.staticKey with
    | none =>
      have hname : p.staticName = none := by simp [Property.staticName, hkey]
      have hfolds : p.folds = false := by simp [Property.folds, hkey]
      refine @spec_cons st { st with seenComputed := true } p ps ?_ ?_ ?_ ?_ ?_ ?_ ?_ (ih _)
      · rw [staticLoop, hkey, hfolds]
      · simp [addProperty, hname]
      · simp [hkey]
      · simp [hfolds]
      · exact id
      · simp [hkey]
      · rintro ⟨k, hk, -⟩
        simp [hname] at hk
    | some key =>
      cases hname : literalToPropName key with
      | none =>
        refine .inr ⟨by rw [staticLoop, hkey]; simp [hname], [], p, ps, rfl, by simp [hkey], ?_,
          reachedFrom_nil⟩
        simp [Property.staticName, hkey, hname]
      | some name =>
        have hstatic : p.staticName = some name := by simp [Property.staticName, hkey, hname]
        have hfolds : p.folds = (createLiteral p).2 := by simp [Property.folds, hkey]
        by_cases hstop : name ∉ st.buf.names ∧ st.seenComputed
        · refine .inl ⟨st, [], p :: ps, (p :: ps).map fun _ => false, rfl, ?_, ?_⟩
          · rw [staticLoop, hkey]
            simp only [hname, if_pos hstop]
          · refine ⟨rfl, rfl, by simp, id, reachedFrom_nil, by simp, ?_⟩
            rintro q ⟨⟩
            exact ⟨name, hstatic, hstop.1, by simp, .inl hstop.2⟩
        · refine @spec_cons st { st with
              buf := st.buf.reset name (createLiteral p).1
              hasMethod := st.hasMethod || p.isMethod } p ps ?_ ?_ ?_ ?_ ?_ ?_ ?_ (ih _)
          · rw [staticLoop, hkey, hfolds]
            simp only [hname, if_neg hstop]
          · simp [addProperty, hstatic]
          · simp [hkey]
          · intro _ hm
            simp [hm]
          · intro hm
            simp [hm]
          · simp [hstatic]
          · rintro ⟨k, hk, hnew, -, hseen | ⟨q, hq, -⟩⟩
            · cases hstatic.symm.trans hk
              exact hstop ⟨hnew, hseen⟩
            · simp at hq

/-! ## What is in the buffer -/

theorem names_foldl_addProperty (buf : LiteralBuffer) (ps : List Property) :
    (ps.foldl addProperty buf).names = PropertyTable.addKeys buf.names (ps.filterMap Property.staticName) := by
  induction ps generalizing buf with
  | nil => rfl
  | cons p ps ih =>
    rw [List.foldl_cons, ih]
    cases hname : p.staticName with
    | none =>
      rw [List.filterMap_cons_none hname]
      simp [addProperty, hname]
    | some name =>
      rw [List.filterMap_cons_some hname]
      simp only [addProperty, hname, LiteralBuffer.names_reset]
      rfl

theorem lookup_foldl_addProperty {buf : LiteralBuffer} {ps : List Property} {k : Name}
    (h : ∀ p ∈ ps, p.staticName ≠ some k) : (ps.foldl addProperty buf).lookup k = buf.lookup k := by
  induction ps generalizing buf with
  | nil => rfl
  | cons p ps ih =>
    rw [List.forall_mem_cons] at h
    rw [List.foldl_cons, ih h.2]
    unfold addProperty
    split
    next name hname =>
      refine LiteralBuffer.lookup_reset_of_ne ?_
      rintro rfl
      exact h.1 hname
    next => rfl

theorem lookup_foldl_of_last {buf : LiteralBuffer} {pre post : List Property} {p : Property} {k : Name}
    (hp : p.staticName = some k) (hpost : ∀ q ∈ post, q.staticName ≠ some k) :
    ((pre ++ p :: post).foldl addProperty buf).lookup k = some (createLiteral p).1 := by
  rw [List.foldl_append, List.foldl_cons, lookup_foldl_addProperty hpost]
  simp only [addProperty, hp]
  exact LiteralBuffer.lookup_reset_self ..

end ArkTs2abc.Es2panda.ObjectLiteral
