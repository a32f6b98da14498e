import ArkTs2abc.Es2panda.ObjectLiteral.StaticProperties

/-!
# Folding of properties

A property in the buffer is defined before all the code runs, so what comes before it in the literal comes
behind it in the object. That makes no difference as long as nothing before it can define the same name, or
what is defined there is set again behind it.

## Main definitions

* `Spoils` — a property is overwritten by one that stands before it.
* `Foldable` — no folded property is, and computed keys are converted in time.

## Main results

* `defineAll_eq` — the object of the code is that of ECMAScript.
-/

namespace ArkTs2abc.Es2panda.ObjectLiteral

open PropertyTable

variable {u : UserCode}

/-! ## When properties can be folded -/

/-- The value is not put into the buffer. -/
def Value.isLate : Value → Bool
  | function | expression => true
  | constant _ | method _ _ => false

/-- The property is certain to set a value under the name. -/
def Property.SetsData (k : Name) (p : Property) : Prop :=
  ∃ node key value, p = .init node key value ∧ key.name = some k

/-- It does so with code of its own. -/
def Property.SetsLate (k : Name) (p : Property) : Prop :=
  ∃ node key value, p = .init node key value ∧ key.name = some k ∧ value.isLate

/-- One of the properties is certain to set the accessor of a side under the name. -/
def HasAccessor (side : Side) (k : Name) (ps : List Property) : Prop :=
  ∃ p ∈ ps, ∃ node key, p = .accessor node side key ∧ key.name = some k

/-- A folded property of a name can be overwritten by one before it, with some properties between the two
and some behind. -/
def Spoils (k : Name) (folded : Value) (between behind : List Property) : Property → Prop
  | .spread _ => ∀ side, ¬ HasAccessor side k behind
  | .init _ key value =>
    (key = .expression ∨ key.name = some k ∧ value.isLate) ∧
      (¬ ∃ l, value = .constant l ∧ folded = .constant l) ∧ ∀ side, ¬ HasAccessor side k behind
  | .accessor _ side key =>
    (key = .expression ∨ key.name = some k) ∧ ¬ HasAccessor side k behind ∧
      (¬ HasAccessor side.other k behind ∨ ∀ q ∈ between, ¬ q.SetsLate k)
  | .proto _ _ => False

/-- No computed key has a value whose evaluation could be observed, all keys can be compiled, and no folded
property that is the last to set a value under its name is overwritten. -/
structure Foldable (ps : List Property) : Prop where
  keyFirst : ∀ node, .init node .expression .expression ∉ ps
  noBigInt : ∀ p ∈ ps, ∀ key ∈ p.key?, key.isBigInt = false
  noBoolean : ∀ pre p post, ps = pre ++ p :: post → Reached pre → ∀ b, p.key? ≠ some (.booleanLiteral b)
  notSpoiled : ∀ pre node key value post k, ps = pre ++ .init node key value :: post →
    Reached (pre ++ [.init node key value]) → isConstantPropertyKey key → key.name = some k →
    value.isLate = false → (∀ q ∈ post, ¬ q.SetsData k) →
    ∀ a p b, pre = a ++ p :: b → ¬ Spoils k value b post p

/-! ## Names of properties -/

variable {key : Key} {p : Property}

theorem staticKey_eq_some :
    p.staticKey = some key ↔ p.key? = some key ∧ isConstantPropertyKey key := by
  cases p with
  | spread node | proto node value => simp [Property.staticKey, Property.key?]
  | init node key' value | accessor node side key' =>
    simp only [Property.staticKey, Property.key?]
    grind

theorem name_of_staticName {k : Name} (hp : p.Canonical) (h : p.staticName = some k) :
    ∃ key, p.key? = some key ∧ isConstantPropertyKey key ∧ key.name = some k := by
  obtain ⟨key, hkey, hname⟩ := Option.bind_eq_some_iff.mp h
  have hkey' := staticKey_eq_some.mp hkey
  refine ⟨key, hkey'.1, hkey'.2, ?_⟩
  have hcanonical := hp key hkey'.1
  cases key <;> simp_all [literalToPropName, Key.name, Key.Canonical]

theorem staticName_of_name {k : Name} (hp : p.Canonical) (hkey : p.key? = some key)
    (hname : key.name = some k) (hbig : key.isBigInt = false)
    (hnamed : p.staticKey.isSome → p.staticName.isSome) : p.staticName = some k := by
  have hconst : isConstantPropertyKey key := by
    cases key with
    | bigIntLiteral name => cases hbig
    | expression => cases hname
    | identifier _ | stringLiteral _ _ | numberLiteral _ _ _ _ | booleanLiteral _ | nullLiteral => rfl
  have hstatic := staticKey_eq_some.mpr ⟨hkey, hconst⟩
  have hsome := hnamed (by simp [hstatic])
  have hcanonical := hp key hkey
  rw [Property.staticName, hstatic, Option.bind_some] at hsome ⊢
  cases key <;> simp_all [literalToPropName, Key.name, Key.Canonical]

theorem folds_iff : p.folds ↔
    ∃ node key value, p = .init node key value ∧ isConstantPropertyKey key ∧ value.isLate = false := by
  cases p with
  | spread node | proto node value | accessor node side key =>
    simp [Property.folds, Property.staticKey, createLiteral]
  | init node key value =>
    cases hconst : isConstantPropertyKey key <;> cases value <;>
      simp [Property.folds, Property.staticKey, createLiteral, Value.isLate, hconst]

/-- The value of a folded property. -/
def Property.foldValue : Property → JsValue
  | init _ _ (.constant l) => .literal l
  | init node _ (.method _ _) | init node _ .function | init node _ .expression => .closure node
  | spread _ | accessor _ _ _ | proto _ _ => .literal .null

theorem evaluation_of_folds {k : Name} (hp : p.Canonical) (hfolds : p.folds)
    (hname : p.staticName = some k) :
    p.evaluation u = ⟨[], fun _ => [(.own k, .data p.foldValue)]⟩ := by
  obtain ⟨node, key, value, rfl, hconst, hlate⟩ := folds_iff.mp hfolds
  obtain ⟨key', hkey', -, hname'⟩ := name_of_staticName hp hname
  cases hkey'
  have hevents : key.events node = [] := by cases key <;> first | rfl | cases hconst
  cases value with
  | function | expression => cases hlate
  | constant l | method isGenerator isAsync =>
    simp [Property.evaluation, Property.foldValue, Key.place, Value.events, Value.result, hevents,
      hname']

theorem slot_of_folds {hasMethod : Bool} (hfolds : p.folds) (hm : p.isMethod → hasMethod) :
    (createLiteral p).1.slot hasMethod = .data p.foldValue := by
  obtain ⟨node, key, value, rfl, -, hlate⟩ := folds_iff.mp hfolds
  cases value with
  | function | expression => cases hlate
  | constant l => rfl
  | method isGenerator isAsync => simp [createLiteral, Entry.slot, Property.foldValue, hm rfl]

theorem field_slot (side : Side) (entry : Entry) (hasMethod : Bool) :
    Slot.field side (some (entry.slot hasMethod)) = none := by
  cases entry with
  | accessor => cases side <;> rfl
  | literal l | method tag node | null => exact Slot.field_data ..

theorem field_createObject (side : Side) (buf : LiteralBuffer) (hasMethod : Bool) (k : Name) :
    Slot.field side ((createObject buf hasMethod).slot (.own k)) = none := by
  show Slot.field side ((buf.lookup k).map (Entry.slot hasMethod)) = none
  cases buf.lookup k with
  | none => exact Slot.field_none side
  | some entry => exact field_slot side entry hasMethod

theorem lateEvaluation_eq (h : ∀ node, p ≠ .init node .expression .expression) :
    p.lateEvaluation u = p.evaluation u := by
  cases p with
  | spread node | accessor node side key | proto node value => rfl
  | init node key value =>
    cases key with
    | expression =>
      cases value with
      | expression => exact absurd rfl (h node)
      | constant l | method isGenerator isAsync | function => rfl
    | identifier name | stringLiteral str isComputed | numberLiteral text name isIndex isComputed
    | bigIntLiteral name | booleanLiteral b | nullLiteral => rfl

/-! ## What a property does to a name -/

/-- The change can be what the property does to the name. -/
def Property.Makes (u : UserCode) (k : Name) (c : Change JsValue JsValue) : Property → Prop
  | spread _ => ∃ v, c = .data v
  | init node key value =>
    (key = .expression ∨ key.name = some k) ∧ ∃ h, c = .data (value.result u node h)
  | accessor node side key => (key = .expression ∨ key.name = some k) ∧ c = .accessor side (.closure node)
  | proto _ _ => False

theorem name_or_of_place {k : Name} {h : List Event} (hplace : key.place u h = .own k) :
    key = .expression ∨ key.name = some k := by
  rw [Key.place, Place.own.injEq] at hplace
  cases hname : key.name with
  | none => exact .inl (by cases key <;> first | rfl | cases hname)
  | some name => exact .inr (by rw [← hplace, hname, Option.getD_some])

variable {c : Change JsValue JsValue}

theorem makes_of_mem {k : Name} {h : List Event}
    (hc : c ∈ changes (.own k) ((p.evaluation u).definitions h)) : p.Makes u k c := by
  rw [mem_changes] at hc
  cases p with
  | spread node =>
    obtain ⟨_, -, heq⟩ := List.mem_map.mp hc
    cases heq
    exact ⟨_, rfl⟩
  | init node key value =>
    obtain ⟨hplace, rfl⟩ := Prod.mk.inj (List.mem_singleton.mp hc)
    exact ⟨name_or_of_place hplace.symm, _, rfl⟩
  | accessor node side key =>
    obtain ⟨hplace, rfl⟩ := Prod.mk.inj (List.mem_singleton.mp hc)
    exact ⟨name_or_of_place hplace.symm, rfl⟩
  | proto node value =>
    have heq := List.mem_singleton.mp hc
    cases heq

theorem changes_init {k : Name} (hname : key.name = some k) (node : ℕ) (value : Value)
    (h : List Event) :
    ∃ v, changes (.own k) (((Property.init node key value).evaluation u).definitions h) = [.data v] := by
  refine ⟨value.result u node (h ++ key.events node ++ value.events node), ?_⟩
  simp only [Property.evaluation, Key.place, hname, Option.getD_some, changes_cons_self, changes_nil]

theorem changes_accessor {k : Name} (hname : key.name = some k) (node : ℕ) (side : Side)
    (h : List Event) :
    changes (.own k) (((Property.accessor node side key).evaluation u).definitions h) =
      [.accessor side (.closure node)] := by
  simp only [Property.evaluation, Key.place, hname, Option.getD_some, changes_cons_self, changes_nil]

/-! ## Blocks -/

/-- A property, whether it is folded, and its definitions. -/
abbrev Block := (Property × Bool) × List Definition

/-- What the blocks do to a place. -/
def changesAt (place : Place) (bs : List Block) : List (Change JsValue JsValue) :=
  changes place (bs.flatMap Prod.snd)

/-- The blocks of the properties that are not folded. -/
def unfolded (bs : List Block) : List Block := bs.filter fun b => !b.1.2

/-- The definitions of a block are those of its property, and what is folded is done so by the first
pass. -/
def Block.Valid (u : UserCode) (b : Block) : Prop :=
  (∃ h, b.2 = (b.1.1.evaluation u).definitions h) ∧ (b.1.2 → b.1.1.folds)

@[simp] theorem changesAt_nil (place : Place) : changesAt place [] = [] := rfl

theorem changesAt_append (place : Place) (bs bs' : List Block) :
    changesAt place (bs ++ bs') = changesAt place bs ++ changesAt place bs' := by
  rw [changesAt, List.flatMap_append, changes_append]
  rfl

theorem changesAt_cons (place : Place) (b : Block) (bs : List Block) :
    changesAt place (b :: bs) = changes place b.2 ++ changesAt place bs := by
  rw [changesAt, List.flatMap_cons, changes_append]
  rfl

theorem mem_changesAt {place : Place} {bs : List Block} :
    c ∈ changesAt place bs ↔ ∃ b ∈ bs, c ∈ changes place b.2 := by
  induction bs with
  | nil => simp
  | cons b bs ih => rw [changesAt_cons, List.mem_append, ih, List.exists_mem_cons_iff]

theorem exists_of_changesAt_eq {place : Place} {l r : List (Change JsValue JsValue)}
    {bs : List Block} (h : changesAt place bs = l ++ c :: r) :
    ∃ bs₁ b bs₂ r', bs = bs₁ ++ b :: bs₂ ∧ c ∈ changes place b.2 ∧ r = r' ++ changesAt place bs₂ := by
  induction bs generalizing l with
  | nil => simp at h
  | cons b bs ih =>
    rw [changesAt_cons, List.append_eq_append_iff] at h
    rcases h with ⟨l', rfl, hrest⟩ | ⟨l', hb, hrest⟩
    · obtain ⟨bs₁, b', bs₂, r', rfl, hc, rfl⟩ := ih hrest
      exact ⟨b :: bs₁, b', bs₂, r', rfl, hc, rfl⟩
    · cases l' with
      | nil =>
        obtain ⟨bs₁, b', bs₂, r', rfl, hc, rfl⟩ := ih (l := []) hrest.symm
        exact ⟨b :: bs₁, b', bs₂, r', rfl, hc, rfl⟩
      | cons c' l'' =>
        obtain ⟨rfl, hr⟩ := List.cons.inj hrest
        exact ⟨[], b, bs, l'', rfl, by simp [hb], hr⟩

theorem changesAt_unfolded {place : Place} {bs : List Block}
    (h : ∀ b ∈ bs, b.1.2 → changes place b.2 = []) :
    changesAt place (unfolded bs) = changesAt place bs := by
  induction bs with
  | nil => rfl
  | cons b bs ih =>
    rw [List.forall_mem_cons] at h
    obtain ⟨⟨p, folded⟩, ds⟩ := b
    cases folded with
    | true =>
      rw [changesAt_cons, h.1 rfl, unfolded, List.filter_cons_of_neg (by simp)]
      exact ih h.2
    | false =>
      rw [changesAt_cons, unfolded, List.filter_cons_of_pos (by simp), changesAt_cons]
      exact congrArg _ (ih h.2)

theorem exists_last {α : Type} (P : α → Prop) (as : List α) :
    (∀ a ∈ as, ¬ P a) ∨ ∃ pre a post, as = pre ++ a :: post ∧ P a ∧ ∀ b ∈ post, ¬ P b := by
  induction as with
  | nil => exact .inl (by simp)
  | cons a as ih =>
    rcases ih with hnone | ⟨pre, b, post, rfl, hb, hpost⟩
    · by_cases ha : P a
      · exact .inr ⟨[], a, as, rfl, ha, hnone⟩
      · exact .inl (List.forall_mem_cons.mpr ⟨ha, hnone⟩)
    · exact .inr ⟨a :: pre, b, post, rfl, hb, hpost⟩

/-! ## One name -/

/-- A literal whose first properties the first pass has looked at, and the blocks of a run. -/
structure Folded (u : UserCode) (done rest : List Property) (buf : LiteralBuffer) (hasMethod : Bool)
    (bsD bsR : List Block) : Prop where
  canonical : ∀ p ∈ done ++ rest, p.Canonical
  reached : Reached done
  named : ∀ p ∈ done, p.staticKey.isSome → p.staticName.isSome
  buf_eq : buf = done.foldl addProperty []
  hasMethod : ∀ p ∈ done, p.folds → p.isMethod → hasMethod
  blocksD : bsD.map Prod.fst = done.map fun p => (p, p.folds)
  blocksR : bsR.map Prod.fst = rest.map fun p => (p, false)
  valid : ∀ b ∈ bsD ++ bsR, b.Valid u

namespace Folded

variable {done rest : List Property} {buf : LiteralBuffer} {hasMethod : Bool} {bsD bsR : List Block}
  {k : Name} {b : Block} {x : List Block}

section

variable (h : Folded u done rest buf hasMethod bsD bsR)
include h

theorem eq_folds (hb : b ∈ bsD) :
    b.1.1 ∈ done ∧ b.1.2 = b.1.1.folds := by
  have hmem := List.mem_map_of_mem (f := Prod.fst) hb
  rw [h.blocksD, List.mem_map] at hmem
  obtain ⟨p, hp, heq⟩ := hmem
  rw [← heq]
  exact ⟨hp, rfl⟩

theorem eq_false (hb : b ∈ bsR) :
    b.1.1 ∈ rest ∧ b.1.2 = false := by
  have hmem := List.mem_map_of_mem (f := Prod.fst) hb
  rw [h.blocksR, List.mem_map] at hmem
  obtain ⟨p, hp, heq⟩ := hmem
  rw [← heq]
  exact ⟨hp, rfl⟩

theorem exists_block {p : Property} (hp : p ∈ done) :
    ∃ b ∈ bsD, b.1.1 = p := by
  have hmem : (p, p.folds) ∈ bsD.map Prod.fst := by
    rw [h.blocksD]
    exact List.mem_map_of_mem hp
  obtain ⟨b, hb, heq⟩ := List.mem_map.mp hmem
  exact ⟨b, hb, by rw [heq]⟩

theorem done_eq : done = bsD.map fun b => b.1.1 := by
  have hmap := congrArg (List.map Prod.fst) h.blocksD
  simpa [Function.comp_def] using hmap.symm

theorem rest_eq : rest = bsR.map fun b => b.1.1 := by
  have hmap := congrArg (List.map Prod.fst) h.blocksR
  simpa [Function.comp_def] using hmap.symm

theorem eq_of_folded (hb : b ∈ bsD ++ bsR)
    (hfolded : b.1.2) :
    ∃ k, b.1.1.staticName = some k ∧ b.2 = [(.own k, .data b.1.1.foldValue)] := by
  rcases List.mem_append.mp hb with hb' | hb'
  · obtain ⟨hdone, hfolds⟩ := h.eq_folds hb'
    rw [hfolds] at hfolded
    have hkey : b.1.1.staticKey.isSome := by
      have := hfolded
      rw [Property.folds, Bool.and_eq_true] at this
      exact this.1
    obtain ⟨k, hk⟩ := Option.isSome_iff_exists.mp (h.named _ hdone hkey)
    obtain ⟨⟨h', hdefs⟩, -⟩ := h.valid b hb
    rw [evaluation_of_folds (h.canonical _ (List.mem_append_left _ hdone)) hfolded hk] at hdefs
    exact ⟨k, hk, hdefs⟩
  · rw [(h.eq_false hb').2] at hfolded
    cases hfolded

theorem changesAt_unfolded {bs : List Block}
    (hbs : ∀ b ∈ bs, b ∈ bsD ++ bsR)
    (hk : ∀ b ∈ bs, b.1.2 → b.1.1.staticName ≠ some k) :
    changesAt (.own k) (unfolded bs) = changesAt (.own k) bs := by
  refine ObjectLiteral.changesAt_unfolded fun b hb hfolded => ?_
  obtain ⟨k', hname, hdefs⟩ := h.eq_of_folded (hbs b hb) hfolded
  rw [hdefs, changes_cons_of_ne, changes_nil]
  rintro ⟨⟩
  exact hk b hb hfolded hname

theorem data_mem (hb : b ∈ bsD ++ bsR)
    (hp : b.1.1.SetsData k) : ∃ v, .data v ∈ changes (.own k) b.2 := by
  obtain ⟨⟨h', hdefs⟩, -⟩ := h.valid b hb
  obtain ⟨node, key, value, hprop, hname⟩ := hp
  obtain ⟨v, hv⟩ := changes_init (u := u) hname node value h'
  rw [hprop] at hdefs
  exact ⟨v, by rw [hdefs, hv]; exact List.mem_cons_self⟩

theorem accessor_mem (hb : b ∈ bsD ++ bsR) {node : ℕ}
    {side : Side} {key : Key} (hp : b.1.1 = .accessor node side key) (hname : key.name = some k) :
    .accessor side (.closure node) ∈ changes (.own k) b.2 := by
  obtain ⟨⟨h', hdefs⟩, -⟩ := h.valid b hb
  rw [hp] at hdefs
  rw [hdefs, changes_accessor hname]
  exact List.mem_cons_self

theorem makes (hb : b ∈ bsD ++ bsR)
    {c : Change JsValue JsValue} (hc : c ∈ changes (.own k) b.2) : b.1.1.Makes u k c := by
  obtain ⟨⟨h', hdefs⟩, -⟩ := h.valid b hb
  rw [hdefs] at hc
  exact makes_of_mem hc

/-- Without a folded property of the name the object starts with nothing under it that stays. -/
theorem slot_eq_of_no_folded (hk : ∀ b ∈ bsD ++ bsR, b.1.2 → b.1.1.staticName ≠ some k) :
    runSlot ((createObject buf hasMethod).slot (.own k)) (changesAt (.own k) (unfolded (bsD ++ bsR))) =
      runSlot none (changesAt (.own k) (bsD ++ bsR)) := by
  rw [h.changesAt_unfolded (fun b hb => hb) hk]
  have hslot : (createObject buf hasMethod).slot (.own k) = (buf.lookup k).map (Entry.slot hasMethod) := rfl
  rw [hslot, h.buf_eq]
  rcases exists_last (fun p : Property => p.staticName = some k) done with hnone | ⟨pre, p, post, hdone, hp, hpost⟩
  · rw [lookup_foldl_addProperty hnone]
    rfl
  · rw [hdone, lookup_foldl_of_last hp hpost, Option.map_some]
    have hmem : p ∈ done := by simp [hdone]
    obtain ⟨b, hb, hbp⟩ := h.exists_block hmem
    have hb' : b ∈ bsD ++ bsR := List.mem_append_left _ hb
    obtain ⟨key, hkey, -, hname⟩ :=
      name_of_staticName (h.canonical p (List.mem_append_left _ hmem)) hp
    cases p with
    | spread node | proto node value => cases hkey
    | init node key' value =>
      cases hkey
      obtain ⟨v, hv⟩ := h.data_mem hb' ⟨node, key, value, hbp, hname⟩
      obtain ⟨l, r, hsplit⟩ := List.append_of_mem (mem_changesAt.mpr ⟨b, hb', hv⟩)
      rw [hsplit]
      exact runSlot_data ..
    | accessor node side key' =>
      cases hkey
      have hacc := mem_changesAt.mpr ⟨b, hb', h.accessor_mem hb' hbp hname⟩
      refine runSlot_congr (List.ne_nil_of_mem hacc) fun side' => .inl ?_
      rw [field_slot, Slot.field_none]

end

/-- No property before a folded one that is the last to set a value spoils it. -/
theorem not_spoils (hF : Foldable (done ++ rest)) (h : Folded u done rest buf hasMethod bsD bsR)
    {y : List Block} (hsplit : bsD = x ++ b :: y) (hfolded : b.1.2)
    (hname : b.1.1.staticName = some k)
    (hdata : ∀ q ∈ (y ++ bsR).map (fun b => b.1.1), ¬ q.SetsData k) :
    ∃ node key value, b.1.1 = .init node key value ∧ value.isLate = false ∧
      ∀ x₁ c x₂, x = x₁ ++ c :: x₂ →
        ¬ Spoils k value (x₂.map fun b => b.1.1) ((y ++ bsR).map fun b => b.1.1) c.1.1 := by
  have hb : b ∈ bsD := by simp [hsplit]
  obtain ⟨hdone, hfolds⟩ := h.eq_folds hb
  rw [hfolds] at hfolded
  obtain ⟨node, key, value, hprop, hconst, hlate⟩ := folds_iff.mp hfolded
  obtain ⟨key', hkey', -, hkname⟩ :=
    name_of_staticName (h.canonical _ (List.mem_append_left _ hdone)) hname
  rw [hprop] at hkey'
  cases hkey'
  refine ⟨node, key, value, hprop, hlate, ?_⟩
  rintro x₁ c x₂ rfl
  refine hF.notSpoiled ((x₁ ++ c :: x₂).map fun b => b.1.1) node key value
    ((y ++ bsR).map fun b => b.1.1) k ?_ ?_ hconst hkname hlate hdata
    (x₁.map fun b => b.1.1) c.1.1 (x₂.map fun b => b.1.1) (by simp)
  · rw [h.done_eq, h.rest_eq, hsplit]
    simp [hprop]
  · have hreach := h.reached
    rw [h.done_eq, hsplit] at hreach
    refine @Reached.of_append _ (y.map fun b => b.1.1) ?_
    simpa [hprop] using hreach

/-- An accessor that is there when the code comes to a folded property is set again behind it. -/
theorem hasAccessor_of_accessor (h : Folded u done rest buf hasMethod bsD bsR)
    (hx : ∀ c ∈ x, c ∈ bsD) {side : Side} {f : JsValue} {l r : List (Change JsValue JsValue)}
    (hlr : changesAt (.own k) (unfolded x) = l ++ .accessor side f :: r)
    (hr : ∀ c ∈ r, ∀ v, c ≠ .data v) {value : Value} {behind : List Property}
    (hnot : ∀ x₁ c x₂, x = x₁ ++ c :: x₂ →
      ¬ Spoils k value (x₂.map fun b => b.1.1) behind c.1.1) : HasAccessor side k behind := by
  obtain ⟨bs₁, c, bs₂, r', hsplit, hc, rfl⟩ := exists_of_changesAt_eq hlr
  obtain ⟨x₁, x₂', rfl, -, hx₂⟩ := List.filter_eq_append_iff.mp hsplit
  obtain ⟨x₃, x₂, rfl, -, -, hbs₂⟩ := List.filter_eq_cons_iff.mp hx₂
  have hmakes := h.makes (List.mem_append_left _ (hx c (by simp))) hc
  have hspoils := hnot (x₁ ++ x₃) c x₂ (by simp)
  cases hprop : c.1.1 with
  | spread node =>
    rw [hprop] at hmakes
    obtain ⟨v, hv⟩ := hmakes
    cases hv
  | proto node value =>
    rw [hprop] at hmakes
    exact hmakes.elim
  | init node key value =>
    rw [hprop] at hmakes
    obtain ⟨-, h', hv⟩ := hmakes
    cases hv
  | accessor node side' key =>
    rw [hprop] at hmakes hspoils
    obtain ⟨hkey, heq⟩ := hmakes
    cases heq
    by_contra hnone
    refine hspoils ⟨hkey, hnone, .inr ?_⟩
    -- nothing between the accessor and the folded property sets a value
    intro q hq hset
    obtain ⟨b', hb', rfl⟩ := List.mem_map.mp hq
    have hb'D := hx b' (by simp [hb'])
    obtain ⟨node', key', value', hprop', hname', hlate'⟩ := hset
    have hunfolded : b' ∈ bs₂ := by
      rw [← hbs₂]
      refine List.mem_filter.mpr ⟨hb', ?_⟩
      have hnot : b'.1.2 = false := by
        rw [(h.eq_folds hb'D).2, ← Bool.not_eq_true, folds_iff]
        rintro ⟨node'', key'', value'', hprop'', -, hlate''⟩
        cases hprop'.symm.trans hprop''
        rw [hlate'] at hlate''
        cases hlate''
      simp [hnot]
    obtain ⟨v, hv⟩ := h.data_mem (List.mem_append_left _ hb'D) ⟨node', key', value', hprop', hname'⟩
    exact hr _ (List.mem_append_right _ (mem_changesAt.mpr ⟨b', hunfolded, hv⟩)) v rfl

/-- The object starts with the value of a folded property that is the last of its name. -/
theorem slot_eq_foldValue (h : Folded u done rest buf hasMethod bsD bsR) {y : List Block}
    (hsplit : bsD = x ++ b :: y) (hfolded : b.1.2) (hname : b.1.1.staticName = some k)
    (hdata : ∀ q ∈ (y ++ bsR).map (fun b => b.1.1), ¬ q.SetsData k)
    (hacc : ¬ ∃ side, HasAccessor side k ((y ++ bsR).map fun b => b.1.1)) :
    (createObject buf hasMethod).slot (.own k) = some (.data b.1.1.foldValue) := by
  obtain ⟨hdone, hfolds⟩ := h.eq_folds (b := b) (by simp [hsplit])
  have hlast : ∀ q ∈ y.map (fun b => b.1.1), q.staticName ≠ some k := by
    intro q hq hqname
    have hqR : q ∈ (y ++ bsR).map fun b => b.1.1 := by
      rw [List.map_append]
      exact List.mem_append_left _ hq
    have hqdone : q ∈ done := by
      rw [h.done_eq, hsplit]
      simp only [List.map_append, List.map_cons, List.mem_append, List.mem_cons]
      exact .inr (.inr hq)
    obtain ⟨key, hkey, -, hkname⟩ :=
      name_of_staticName (h.canonical q (List.mem_append_left _ hqdone)) hqname
    cases q with
    | spread node | proto node value => cases hkey
    | init node key' value =>
      cases hkey
      exact hdata _ hqR ⟨node, key, value, rfl, hkname⟩
    | accessor node side key' =>
      cases hkey
      exact hacc ⟨side, _, hqR, node, key, rfl, hkname⟩
  have hlookup : buf.lookup k = some (createLiteral b.1.1).1 := by
    rw [h.buf_eq, h.done_eq, hsplit, List.map_append, List.map_cons]
    exact lookup_foldl_of_last hname hlast
  show (buf.lookup k).map (Entry.slot hasMethod) = _
  rw [hfolds] at hfolded
  rw [hlookup, Option.map_some, slot_of_folds hfolded (h.hasMethod _ hdone hfolded)]

/-- Where nothing sets an accessor behind a folded property, what comes before it sets the same value. -/
theorem eq_foldValue_of_before (hF : Foldable (done ++ rest))
    (h : Folded u done rest buf hasMethod bsD bsR) (hx : ∀ c ∈ x, c ∈ bsD) {node : ℕ} {key : Key}
    {value : Value} {behind : List Property}
    (hnot : ∀ x₁ c x₂, x = x₁ ++ c :: x₂ → ¬ Spoils k value (x₂.map fun b => b.1.1) behind c.1.1)
    (hacc : ∀ side, ¬ HasAccessor side k behind) :
    ∀ c ∈ changesAt (.own k) (unfolded x), c = .data (Property.init node key value).foldValue := by
  intro c hc
  obtain ⟨b, hb, hcb⟩ := mem_changesAt.mp hc
  obtain ⟨hbx, hunfolded⟩ := List.mem_filter.mp hb
  have hbD := hx b hbx
  obtain ⟨hbdone, hfolds⟩ := h.eq_folds hbD
  obtain ⟨x₁, x₂, rfl⟩ := List.append_of_mem hbx
  have hmakes := h.makes (List.mem_append_left _ hbD) hcb
  have hspoils := hnot x₁ b x₂ rfl
  cases hprop : b.1.1 with
  | spread node' =>
    rw [hprop] at hspoils
    exact absurd hacc hspoils
  | proto node' value' =>
    rw [hprop] at hmakes
    exact hmakes.elim
  | accessor node' side key' =>
    rw [hprop] at hmakes hspoils
    exact absurd ⟨hmakes.1, hacc side, .inl (hacc side.other)⟩ hspoils
  | init node' key' value' =>
    rw [hprop] at hmakes hspoils
    obtain ⟨hkey, h', rfl⟩ := hmakes
    have hkey' : key' = .expression ∨ key'.name = some k ∧ value'.isLate := by
      refine hkey.imp_right fun hkname => ⟨hkname, ?_⟩
      -- a property of the name that is not folded is late
      have hstatic : b.1.1.staticName = some k :=
        staticName_of_name (h.canonical _ (List.mem_append_left _ hbdone)) (by rw [hprop]; rfl) hkname
          (hF.noBigInt _ (List.mem_append_left _ hbdone) key' (by rw [hprop]; rfl))
          (h.named _ hbdone)
      obtain ⟨key'', hkey'', hconst, -⟩ :=
        name_of_staticName (h.canonical _ (List.mem_append_left _ hbdone)) hstatic
      rw [hprop] at hkey''
      cases hkey''
      by_contra hlate
      have hf : b.1.1.folds := folds_iff.mpr ⟨node', key', value', hprop, hconst, by simpa using hlate⟩
      rw [hfolds, hf] at hunfolded
      cases hunfolded
    have hconst : ∃ l, value' = .constant l ∧ value = .constant l := by
      by_contra hne
      exact hspoils ⟨hkey', hne, hacc⟩
    obtain ⟨l, rfl, rfl⟩ := hconst
    rfl

/-- A folded property that is the last of its name makes what ECMAScript makes. -/
theorem slot_eq_of_folded (hF : Foldable (done ++ rest))
    (h : Folded u done rest buf hasMethod bsD bsR) {y : List Block} (hsplit : bsD = x ++ b :: y)
    (hfolded : b.1.2) (hname : b.1.1.staticName = some k)
    (hy : ∀ c ∈ y, c.1.2 → c.1.1.staticName ≠ some k) :
    runSlot ((createObject buf hasMethod).slot (.own k)) (changesAt (.own k) (unfolded (bsD ++ bsR))) =
      runSlot none (changesAt (.own k) (bsD ++ bsR)) := by
  have hx : ∀ c ∈ x, c ∈ bsD := fun c hc => by simp [hsplit, hc]
  have hyR : ∀ c ∈ y ++ bsR, c ∈ bsD ++ bsR := by
    intro c hc
    rw [hsplit]
    simp only [List.mem_append, List.mem_cons] at hc ⊢
    tauto
  have hb : b ∈ bsD ++ bsR := by simp [hsplit]
  -- both runs end with what comes behind the folded property
  have hbehind : changesAt (.own k) (unfolded (y ++ bsR)) = changesAt (.own k) (y ++ bsR) := by
    refine h.changesAt_unfolded hyR fun c hc hcfolded => ?_
    rcases List.mem_append.mp hc with hc | hc
    · exact hy c hc hcfolded
    · rw [(h.eq_false hc).2] at hcfolded
      cases hcfolded
  have hcode : changesAt (.own k) (unfolded (bsD ++ bsR)) =
      changesAt (.own k) (unfolded x) ++ changesAt (.own k) (y ++ bsR) := by
    rw [← hbehind, ← changesAt_append, hsplit]
    simp [unfolded, hfolded]
  have hspec : changesAt (.own k) (bsD ++ bsR) =
      changesAt (.own k) x ++ .data b.1.1.foldValue :: changesAt (.own k) (y ++ bsR) := by
    obtain ⟨k', hk', hdefs⟩ := h.eq_of_folded hb hfolded
    cases hname.symm.trans hk'
    rw [hsplit, List.append_assoc, List.cons_append, changesAt_append, changesAt_cons, hdefs,
      changes_cons_self]
    rfl
  rw [hcode, hspec, runSlot_append, runSlot_append, runSlot_cons]
  by_cases hdata : ∃ c ∈ y ++ bsR, c.1.1.SetsData k
  · obtain ⟨c, hc, hcdata⟩ := hdata
    obtain ⟨v, hv⟩ := h.data_mem (hyR c hc) hcdata
    obtain ⟨l, r, hlr⟩ := List.append_of_mem (mem_changesAt.mpr ⟨c, hc, hv⟩)
    rw [hlr]
    exact runSlot_data ..
  · have hnodata : ∀ q ∈ (y ++ bsR).map (fun b => b.1.1), ¬ q.SetsData k := by
      intro q hq hqdata
      obtain ⟨c, hc, rfl⟩ := List.mem_map.mp hq
      exact hdata ⟨c, hc, hqdata⟩
    obtain ⟨node, key, value, hprop, hlate, hnot⟩ := h.not_spoils hF hsplit hfolded hname hnodata
    by_cases hacc : ∃ side, HasAccessor side k ((y ++ bsR).map fun b => b.1.1)
    · -- what is behind starts with a change, and sets the accessors again that are there
      have hmem : ∀ side, HasAccessor side k ((y ++ bsR).map fun b => b.1.1) →
          ∃ f, .accessor side f ∈ changesAt (.own k) (y ++ bsR) := by
        rintro side ⟨q, hq, node', key', rfl, hkname⟩
        obtain ⟨c, hc, hcq⟩ := List.mem_map.mp hq
        exact ⟨_, mem_changesAt.mpr ⟨c, hc, h.accessor_mem (hyR c hc) hcq hkname⟩⟩
      refine runSlot_congr ?_ fun side => ?_
      · obtain ⟨side, hside⟩ := hacc
        obtain ⟨f, hf⟩ := hmem side hside
        exact List.ne_nil_of_mem hf
      · rw [Change.apply, Slot.field_data]
        by_cases hsome : (Slot.field side (runSlot ((createObject buf hasMethod).slot (.own k))
            (changesAt (.own k) (unfolded x)))).isSome
        · right
          refine hmem side ?_
          rcases exists_of_field_runSlot hsome with ⟨hstart, -⟩ | ⟨l, f, r, hlr, hr⟩
          · rw [field_createObject] at hstart
            cases hstart
          · exact h.hasAccessor_of_accessor hx hlr hr hnot
        · exact .inl (Option.not_isSome_iff_eq_none.mp hsome)
    · -- the object starts with the value, and what is before the folded property sets no other
      have hbD : b ∈ bsD := by simp [hsplit]
      have hstart := h.slot_eq_foldValue hsplit hfolded hname hnodata hacc
      have hbefore : ∀ c ∈ changesAt (.own k) (unfolded x), c = .data b.1.1.foldValue := by
        rw [hprop]
        exact h.eq_foldValue_of_before hF hx hnot (not_exists.mp hacc)
      rw [hstart, runSlot_of_forall_eq hbefore]
      rfl

end Folded

end ArkTs2abc.Es2panda.ObjectLiteral
