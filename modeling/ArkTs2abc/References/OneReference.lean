import ArkTs2abc.References.Uses

/-!
# One reference

The parts of a target denote a reference, which is made once: what is read is what will be written. The code
keeps the parts instead, and makes the reference again where it stores.

## Main definitions

* `Use.byReference` — an expression with one reference.
* `KeepsReference` — the code does what such an expression does, up to the value that is stored.
* `calm` — a world in which little happens.

## Main results

* `LReferenceCode.Lawful.keepsReference_iff` — when the code keeps its reference.
-/

namespace ArkTs2abc.References

open StructuredCode Conversions
open Ts2panda.PropertyAccess (Temps)

variable {V : Type}

/-! ## Expressions with one reference -/

section Spec

variable (rt : Runtime) (vars : Variables V)

/-- What the parts of a target denote: the key is converted. -/
def denoted : Resolved V → Evaluation Part Reference Reference
  | .binding v => pure (.binding (vars.place v))
  | .property isSuper base key => rt.property isSuper base key

/-- A reference is written. -/
def putTo (res : Resolved V) (ref : Reference) (x : JsValue) : Evaluation Part Reference JsValue :=
  match res with
  | .binding v =>
    if vars.immutable v then Process.throwing rt.language.typeError
    else rt.putValue ref x >>= fun _ => pure x
  | .property _ _ _ => rt.putValue ref x >>= fun _ => pure x

/-- What is done behind the target, with one reference. `f` says what becomes of the value. -/
def Use.restByReference (u : Use) (f : JsValue → JsValue) (res : Resolved V) :
    Evaluation Part Reference JsValue :=
  if u.reads then
    denoted rt vars res >>= fun ref => u.rest rt (rt.getValue ref) fun v => putTo rt vars res ref (f v)
  else
    u.rest rt (pure (.primitive .undefined)) fun v =>
      denoted rt vars res >>= fun ref => putTo rt vars res ref (f v)

/-- The parts of the target are evaluated once, before the rest. -/
def Use.byReference (u : Use) (f : JsValue → JsValue) (target : Target V) : Evaluation Part Reference JsValue :=
  u.before rt >>= fun _ => evaluateTarget rt target >>= fun res => u.restByReference rt vars f res

end Spec

/-- The code does what the expression does with one reference, whatever is stored, wherever the key expression
has some answer. -/
def KeepsReference (c : LReferenceCode V) (vars : Variables V) (m : Machine) (key : Except JsValue JsValue)
    (u : Use) (target : Target V) : Prop :=
  ∀ rt : Runtime, rt.toMachine = m → (∀ h, rt.world.answer (h ++ [Event.evaluate Part.key]) = key) →
    ∃ f, ∀ (t : Temps) (r : Registers) (h : History), t.WellFormed →
      run rt (c.compile u target t) r h = u.byReference rt vars f target h

/-- The key of the target is an expression that throws. -/
def Target.KeyThrows (target : Target V) (key : Except JsValue JsValue) : Prop :=
  target.key? = some .expression ∧ ∃ e, key = .error e

/-- The target can be read as it is written: it is no property of `super`, and its key is no object. -/
def Target.Readable (target : Target V) (key : Except JsValue JsValue) : Prop :=
  (∀ k, target.inner ≠ .superMember k) ∧ (target.key? = some .expression → ∀ id, key ≠ .ok (.object id))

/-- What the code can store to. -/
def Target.Writable (target : Target V) (vars : Variables V) (stored : Stored V) (m : Machine) : Prop :=
  (∀ v, target.inner = .binding v → vars.immutable v = false → vars.hole v = false) ∧
    ∀ k, target.inner = .superMember (.literal k) →
      m.language.propertyKeyOf (stored.literal m k).value = m.language.propertyKeyOf k.value

section Code

variable {rt : Runtime} {vars : Variables V} {stored : Stored V} {key : Except JsValue JsValue}
  {target : Target V} {res : Resolved V} {u : Use}

theorem Target.key?_inner (target : Target V) : target.inner.key? = target.key? := by
  induction target with
  | binding v | member key | superMember key => rfl
  | parenthesized t ih => exact ih

theorem property_primitive (isSuper : Bool) (base : JsValue) (p : Primitive) :
    rt.property isSuper base (.primitive p) =
      pure (.property isSuper base (rt.language.propertyKeyOf p)) := rfl

theorem Denotes.of_expression {P : JsValue → Prop} (hres : Denotes P target res)
    (hexp : target.key? = some .expression) : ∃ isSuper base k, res = .property isSuper base k ∧ P k ∧
      target.inner = if isSuper then .superMember .expression else .member .expression := by
  rw [← target.key?_inner] at hexp
  cases res with
  | binding v =>
    have hv : target.inner = .binding v := hres
    rw [hv] at hexp
    cases hexp
  | property isSuper base k =>
    obtain ⟨key', hinner, hk⟩ := hres
    rw [hinner] at hexp
    have hkey : key' = .expression := by
      cases isSuper <;> exact Option.some.inj hexp
    subst hkey
    exact ⟨isSuper, base, k, rfl, hk, hinner⟩

theorem Denotes.of_binding {P : JsValue → Prop} (hres : Denotes P target res) {v : V}
    (hinner : target.inner = .binding v) : res = .binding v := by
  cases res with
  | binding v' =>
    cases (show target.inner = .binding v' from hres).symm.trans hinner
    rfl
  | property isSuper base k =>
    obtain ⟨k', hk', -⟩ := hres
    cases isSuper <;> cases hinner.symm.trans hk'

theorem not_keyThrows (hres : Denotes (fun k => key = .ok k) target res) : ¬ target.KeyThrows key := by
  rintro ⟨hexp, e, he⟩
  obtain ⟨isSuper, base, k, -, hk, -⟩ := hres.of_expression hexp
  cases he.symm.trans hk

/-- The store of the code is one to the reference. -/
theorem store_eq (rt : Runtime) (hwritable : target.Writable vars stored rt.toMachine)
    {P : JsValue → Prop} (hres : Denotes P target res) (x : JsValue) :
    stored.store vars rt target.inner res x =
      denoted rt vars res >>= fun ref => putTo rt vars res ref (stored.value rt target.inner x) := by
  rw [Stored.store]
  cases res with
  | binding v =>
    have hv : target.inner = .binding v := hres
    rw [Stored.target_eq _ _ _ (by simp [hv]), storeResolved]
    show _ = putTo rt vars (.binding v) (.binding (vars.place v)) _
    rw [putTo]
    cases himm : vars.immutable v with
    | true => rfl
    | false =>
      rw [hwritable.1 v hv himm]
      rfl
  | property isSuper base k =>
    obtain ⟨key', hinner, hk⟩ := hres
    have hsame : storeResolved rt vars (stored.value rt target.inner x)
        (stored.target rt.toMachine target.inner (.property isSuper base k)) =
          rt.property isSuper base k >>= fun ref => rt.putValue ref (stored.value rt target.inner x) := by
      cases isSuper with
      | false => rw [Stored.target_eq _ _ _ (by simp [hinner]), storeResolved]
      | true =>
        have hsuper : target.inner = .superMember key' := hinner
        cases key' with
        | expression => rw [Stored.target_eq _ _ _ (by simp [hsuper]), storeResolved]
        | literal l =>
          have hlit : k = .primitive l.value := hk
          have htarget : stored.target rt.toMachine target.inner (.property true base k) =
              .property true base (.primitive (stored.literal rt.toMachine l).value) := by
            rw [hsuper]
            rfl
          rw [htarget, hlit, storeResolved, property_primitive, property_primitive, hwritable.2 l hsuper]
    rw [hsame, Process.bind_assoc]
    rfl

theorem load_eq (hsuper : ∀ k, target.inner ≠ .superMember k) {P : JsValue → Prop} (hres : Denotes P target res)
    (g : JsValue) : loadResolved rt vars g res = denoted rt vars res >>= rt.getValue := by
  cases res with
  | binding v => rfl
  | property isSuper base k =>
    obtain ⟨key', hinner, -⟩ := hres
    cases isSuper with
    | true => exact absurd hinner (hsuper key')
    | false => rfl

theorem denoted_eq_pure (rt : Runtime) (vars : Variables V)
    (hkey : target.key? = some .expression → ∀ id, key ≠ .ok (.object id))
    (hres : Denotes (fun k => key = .ok k) target res) : ∃ ref, denoted rt vars res = pure ref := by
  cases res with
  | binding v => exact ⟨_, rfl⟩
  | property isSuper base k =>
    obtain ⟨key', hinner, hk⟩ := hres
    have hsome : target.key? = some key' := by
      rw [← target.key?_inner, hinner]
      cases isSuper <;> rfl
    cases k with
    | primitive p => exact ⟨_, rfl⟩
    | object id =>
      cases key' with
      | literal l => cases hk
      | expression => exact absurd hk (hkey hsome id)

theorem rest_eq (hreadable : u.reads = true → target.Readable key)
    (hwritable : target.Writable vars stored rt.toMachine)
    (hres : Denotes (fun k => key = .ok k) target res) (g : JsValue) :
    u.rest rt (loadResolved rt vars g res) (stored.store vars rt target.inner res) =
      u.restByReference rt vars (stored.value rt target.inner) res := by
  have hstore := funext (store_eq rt hwritable hres)
  rw [Use.restByReference, hstore]
  by_cases hreads : u.reads = true
  · obtain ⟨hsuper, hkey⟩ := hreadable hreads
    obtain ⟨ref, href⟩ := denoted_eq_pure rt vars hkey hres
    rw [if_pos hreads, load_eq hsuper hres, href]
    rfl
  · rw [if_neg hreads]
    cases u with
    | compound | update isDecrement isPrefix => exact absurd rfl hreads
    | assign | element before after value hasInit => rfl

end Code

/-! ## A calm world -/

abbrev answered : Except JsValue JsValue := .ok (.primitive .undefined)

abbrev refused : Except JsValue JsValue := .error (.primitive .undefined)

/-- The key expression, reads and writes have given answers, and all else is undefined. -/
def calmWorld (key read write : Except JsValue JsValue) : ReferenceWorld where
  answer h :=
    match h.getLast? with
    | some (.evaluate .key) => key
    | some (.getValue _) => read
    | some (.putValue _ _) => write
    | _ => .ok (.primitive .undefined)
  primitive _ := .ok .undefined

def calm (m : Machine) (key read write : Except JsValue JsValue) : Runtime :=
  { m with
    world := calmWorld key read write
    this := .primitive .undefined
    scratch := fun _ _ => .primitive .undefined }

section Calm

variable (m : Machine) (key read write : Except JsValue JsValue)

theorem answer_calm (h : History) (e : Event Part Reference) :
    (calm m key read write).world.answer (h ++ [e]) = (calm m key read write).world.answer [e] := by
  simp [calm, calmWorld]

theorem evaluate_calm {part : Part} (hpart : part ≠ .key) (h : History) :
    (calm m key read write).evaluate part h = (.value (.primitive .undefined), h ++ [Event.evaluate part]) := by
  have hanswer : (calm m key read write).world.answer (h ++ [Event.evaluate part]) = answered := by
    rw [answer_calm]
    cases part with
    | key => exact absurd rfl hpart
    | _ => rfl
  show completion ((calm m key read write).world.answer _) _ = _
  rw [hanswer, completion_ok]

theorem evaluate_key_calm (h : History) :
    (calm m key read write).world.answer (h ++ [Event.evaluate Part.key]) = key := answer_calm ..

theorem getValue_calm (ref : Reference) (h : History) :
    (calm m key read write).getValue ref h = completion read (h ++ [Event.getValue ref]) :=
  congrArg (fun answer => completion answer _) (answer_calm m key read write h (.getValue ref))

theorem putValue_calm (ref : Reference) (x : JsValue) {β : Type} (f : Unit → Evaluation Part Reference β)
    (h : History) : ((calm m key read refused).putValue ref x >>= f) h =
      (.thrown (.primitive .undefined), h ++ [Event.putValue ref x]) := by
  have hanswer : (calm m key read refused).world.answer (h ++ [Event.putValue ref x]) = refused :=
    answer_calm ..
  exact Process.bind_thrown (perform_bind_error hanswer _) f

theorem toNumeric_undefined (h : History) : ∃ p,
    m.language.toNumeric (calm m key read write).world (.primitive .undefined) h = (.value p, h) :=
  ⟨_, rfl⟩

theorem pieces_calm (ns : List ℕ) (h : History) :
    ∃ h', (calm m key read write).pieces ns h = (.value (), h') := by
  induction ns generalizing h with
  | nil => exact ⟨h, rfl⟩
  | cons n ns ih =>
    obtain ⟨h', hns⟩ := ih (h ++ [Event.evaluate (Part.piece n)])
    refine ⟨h', ?_⟩
    rw [Runtime.pieces, Process.bind_value (evaluate_calm m key read write (by simp) h), hns]

theorem rest_of_store {u : Use} (hreads : u.reads = false) (h : History) : ∃ x h',
    ∀ {load : Evaluation Part Reference JsValue} {store : JsValue → Evaluation Part Reference JsValue} {e h''},
      store x h' = (.thrown e, h'') → u.rest (calm m key read write) load store h = (.thrown e, h'') := by
  cases u with
  | compound | update isDecrement isPrefix => cases hreads
  | assign =>
    refine ⟨.primitive .undefined, h ++ [Event.evaluate Part.right], fun hstore => ?_⟩
    rw [Use.rest, Process.bind_value (evaluate_calm m key read write (by simp) h), hstore]
  | element before after value hasInit =>
    obtain ⟨h₁, hafter⟩ := pieces_calm m key read write after h
    have hvalue := evaluate_calm m key read write (by simp : Part.piece value ≠ .key) h₁
    have hdefault : ∃ h₂, (calm m key read write).default hasInit (.primitive .undefined)
        (h₁ ++ [Event.evaluate (Part.piece value)]) = (.value (.primitive .undefined), h₂) := by
      cases hasInit with
      | false => exact ⟨_, rfl⟩
      | true => exact ⟨_, evaluate_calm m key read write (by simp) _⟩
    obtain ⟨h₂, hdefault⟩ := hdefault
    refine ⟨.primitive .undefined, h₂, fun hstore => ?_⟩
    rw [Use.rest, Process.bind_value hafter, Process.bind_value hvalue, Process.bind_value hdefault, hstore]

theorem rest_of_load {u : Use} (hreads : u.reads = true) (h : History) : ∃ x h',
    ∀ {load : Evaluation Part Reference JsValue} {store : JsValue → Evaluation Part Reference JsValue} {h₀ e h''},
      load h₀ = (.value (.primitive .undefined), h) → store x h' = (.thrown e, h'') →
        u.rest (calm m key read write) load store h₀ = (.thrown e, h'') := by
  cases u with
  | assign | element before after value hasInit => cases hreads
  | compound =>
    refine ⟨.primitive .undefined, h ++ [Event.evaluate Part.right] ++ [Event.evaluate Part.operation], fun hload hstore => ?_⟩
    rw [Use.rest, Process.bind_value hload, Process.bind_value (evaluate_calm m key read write (by simp) h),
      Process.bind_value (evaluate_calm m key read write (by simp) _), hstore]
  | update isDecrement isPrefix =>
    obtain ⟨p, hp⟩ := toNumeric_undefined m key read write h
    refine ⟨.primitive (m.step isDecrement p), h, fun hload hstore => ?_⟩
    rw [Use.rest, Process.bind_value hload]
    exact (Process.bind_value hp _).trans (Process.bind_thrown hstore _)

theorem rest_of_throw {u : Use} (hreads : u.reads = true) {rt : Runtime}
    {load : Evaluation Part Reference JsValue} {store : JsValue → Evaluation Part Reference JsValue}
    {h h' : History} {e : JsValue} (hload : load h = (.thrown e, h')) :
    u.rest rt load store h = (.thrown e, h') := by
  cases u with
  | assign | element before after value hasInit => cases hreads
  | compound | update isDecrement isPrefix => exact Process.bind_thrown hload _

theorem property_calm (k : JsValue) (h : History) : ∃ p h', ∀ isSuper base,
    (calm m key read write).property isSuper base k h = (.value (.property isSuper base p), h') := by
  cases k with
  | primitive q => exact ⟨_, h, fun _ _ => rfl⟩
  | object id => exact ⟨_, h ++ [Event.toPrimitive .string id], fun _ _ => rfl⟩

end Calm

section Results

variable {c : LReferenceCode V} {vars : Variables V} {stored : Stored V} {superBase : Runtime → JsValue → Prop}
  {m : Machine} {key : Except JsValue JsValue} {u : Use} {target : Target V}

namespace LReferenceCode.Lawful

section

variable (hc : c.Lawful vars stored superBase) (hkeeps : KeepsReference c vars m key u target) (hkey : ¬ target.KeyThrows key)
include hc hkeeps hkey

/-- In a calm world the code and the expression go on with the same parts. -/
theorem rest_of_keepsReference (read : Except JsValue JsValue) : ∃ f g res h,
      Denotes (fun k => key = .ok k) target res ∧
        u.rest (calm m key read refused) (loadResolved (calm m key read refused) vars g res)
          (stored.store vars (calm m key read refused) target.inner res) h =
            u.restByReference (calm m key read refused) vars f res h := by
  obtain ⟨f, hf⟩ := hkeeps (calm m key read refused) rfl (evaluate_key_calm m key read refused)
  have hwellFormed : Temps.WellFormed ⟨[], 0⟩ := ⟨List.nodup_nil, by simp⟩
  obtain ⟨g, -, hrun⟩ := hc.run_compile (calm m key read refused) u target hwellFormed
    ⟨.primitive .undefined, fun _ => .primitive .undefined⟩
  obtain ⟨h₀, hbefore⟩ : ∃ h₀, u.before (calm m key read refused) [] = (.value (), h₀) := by
    cases u with
    | assign | compound | update isDecrement isPrefix => exact ⟨[], rfl⟩
    | element before after value hasInit => exact pieces_calm m key read refused before []
  have hkeyValue : target.key? = some .expression → ∀ h : History, ∃ k,
      (calm m key read refused).world.answer (h ++ [Event.evaluate Part.key]) = .ok k := by
    intro hexp h
    rw [evaluate_key_calm]
    cases key with
    | error e => exact absurd ⟨hexp, e, rfl⟩ hkey
    | ok k => exact ⟨k, rfl⟩
  have hobject : ∀ h : History, ∃ v, (calm m key read refused).world.answer (h ++ [Event.evaluate Part.object]) = .ok v :=
    fun h => ⟨.primitive .undefined, answer_calm ..⟩
  obtain ⟨res, h₁, hres⟩ := evaluateTarget_value hobject hkeyValue h₀
  refine ⟨f, g, res, h₁, denotes_of_evaluateTarget (fun h k hk => ?_) hres, ?_⟩
  · exact (evaluate_key_calm m key read refused h).symm.trans hk
  · have h := hf ⟨[], 0⟩ ⟨.primitive .undefined, fun _ => .primitive .undefined⟩ [] hwellFormed
    rw [hrun, Use.byReference, Process.bind_value hbefore, Process.bind_value hres, Process.bind_value hbefore,
      Process.bind_value hres] at h
    exact h

/-- A property of `super` is read from another reference. -/
theorem not_super (hreads : u.reads = true) (k : Key) : target.inner ≠ .superMember k := by
  intro hinner
  obtain ⟨f, g, res, h, hres, heq⟩ :=
    hc.rest_of_keepsReference hkeeps hkey refused
  rw [Use.restByReference, if_pos hreads] at heq
  cases res with
  | binding v => cases hinner.symm.trans (show target.inner = .binding v from hres)
  | property isSuper base kv =>
    obtain ⟨k', hk', -⟩ := hres
    cases isSuper with
    | false => cases hinner.symm.trans hk'
    | true =>
      obtain ⟨p, h', hproperty⟩ := property_calm m key refused refused kv h
      have hcode : loadResolved (calm m key refused refused) vars g (.property true base kv) h =
          (.thrown (.primitive .undefined), h' ++ [Event.getValue (Reference.property false g p)]) :=
        (Process.bind_value (hproperty false g) _).trans (getValue_calm ..)
      have hspec : (calm m key refused refused).getValue (.property true base p) h' =
          (.thrown (.primitive .undefined), h' ++ [Event.getValue (Reference.property true base p)]) := getValue_calm ..
      rw [rest_of_throw hreads hcode, denoted, Process.bind_value (hproperty true base),
        rest_of_throw hreads hspec] at heq
      simp at heq

/-- A key that is an object is converted again for the store. -/
theorem not_object (hreads : u.reads = true) (hexp : target.key? = some .expression) (id : ℕ) :
    key ≠ .ok (.object id) := by
  rintro rfl
  obtain ⟨f, g, res, h, hres, heq⟩ := hc.rest_of_keepsReference hkeeps hkey answered
  obtain ⟨isSuper, base, k, rfl, hk, hinner⟩ := hres.of_expression hexp
  cases hk
  cases isSuper with
  | true => exact hc.not_super hkeeps hkey hreads .expression hinner
  | false =>
    have hmember : target.inner = .member .expression := hinner
    rw [Use.restByReference, if_pos hreads] at heq
    have hproperty : (calm m (.ok (.object id)) answered refused).property false base (.object id) =
        fun h => (.value (.property false base (m.language.propertyKeyOf .undefined)),
          h ++ [Event.toPrimitive .string id]) := rfl
    have hload := getValue_calm m (.ok (.object id)) answered refused
      (.property false base (m.language.propertyKeyOf .undefined)) (h ++ [Event.toPrimitive .string id])
    obtain ⟨x, h', hrest⟩ := rest_of_load m (.ok (.object id)) answered refused hreads
      (h ++ [Event.toPrimitive .string id] ++ [Event.getValue (Reference.property false base (m.language.propertyKeyOf .undefined))])
    obtain ⟨y, hcode⟩ : ∃ y, stored.store vars (calm m (.ok (.object id)) answered refused) target.inner
        (.property false base (.object id)) x h' = (.thrown (.primitive .undefined),
          h' ++ [Event.toPrimitive .string id] ++
            [Event.putValue (Reference.property false base (m.language.propertyKeyOf .undefined)) y]) := by
      refine ⟨stored.value (calm m (.ok (.object id)) answered refused) target.inner x, ?_⟩
      rw [Stored.store, Stored.target_eq _ _ _ (by simp [hmember]), storeResolved, Process.bind_assoc]
      exact (Process.bind_value (congrFun hproperty h') _).trans (putValue_calm ..)
    rw [denoted, Process.bind_value (congrFun hproperty h), hrest hload (putValue_calm ..)] at heq
    rw [load_eq (hc.not_super hkeeps hkey hreads) hres, denoted,
      hrest ((Process.bind_value (congrFun hproperty h) _).trans hload) hcode] at heq
    simp at heq

/-- A variable that is taken for a hole is not written. -/
theorem not_hole {v : V} (hinner : target.inner = .binding v)
    (himmutable : vars.immutable v = false) : vars.hole v = false := by
  by_contra hhole
  rw [Bool.not_eq_false] at hhole
  obtain ⟨f, g, res, h, hres, heq⟩ := hc.rest_of_keepsReference hkeeps hkey answered
  obtain rfl := hres.of_binding hinner
  have hcode : ∀ x h', stored.store vars (calm m key answered refused) target.inner (.binding v) x h' =
      (.thrown m.language.referenceError, h') := by
    intro x h'
    rw [Stored.store, Stored.target_eq _ _ _ (by simp [hinner]), storeResolved_hole himmutable hhole]
    rfl
  have hspec : ∀ x h', (denoted (calm m key answered refused) vars (.binding v) >>= fun ref =>
      putTo (calm m key answered refused) vars (.binding v) ref (f x)) h' =
        (.thrown (.primitive .undefined), h' ++ [Event.putValue (Reference.binding (vars.place v)) (f x)]) := by
    intro x h'
    rw [denoted, Process.pure_bind, putTo, himmutable, if_neg (by simp)]
    exact putValue_calm ..
  by_cases hreads : u.reads = true
  · have hload := getValue_calm m key answered refused (.binding (vars.place v)) h
    obtain ⟨x, h', hrest⟩ := rest_of_load m key answered refused hreads (h ++ [Event.getValue (Reference.binding (vars.place v))])
    rw [Use.restByReference, if_pos hreads] at heq
    have hends := (hrest hload (hcode x h')).symm.trans (heq.trans (hrest hload (hspec x h')))
    simp at hends
  · obtain ⟨x, h', hrest⟩ := rest_of_store m key answered refused (Bool.not_eq_true _ ▸ hreads) h
    rw [Use.restByReference, if_neg hreads] at heq
    have hends := (hrest (hcode x h')).symm.trans (heq.trans (hrest (hspec x h')))
    simp at hends

/-- A literal of `super` names the same property in the store. -/
theorem literal_eq {k : Literal} (hinner : target.inner = .superMember (.literal k)) :
    m.language.propertyKeyOf (stored.literal m k).value = m.language.propertyKeyOf k.value := by
  by_cases hreads : u.reads = true
  · exact absurd hinner (hc.not_super hkeeps hkey hreads _)
  obtain ⟨f, g, res, h, hres, heq⟩ := hc.rest_of_keepsReference hkeeps hkey answered
  obtain ⟨base, rfl⟩ : ∃ base, res = .property true base (.primitive k.value) := by
    cases res with
    | binding v => cases hinner.symm.trans (show target.inner = .binding v from hres)
    | property isSuper base kv =>
      obtain ⟨k', hk', hkv⟩ := hres
      cases isSuper with
      | false => cases hinner.symm.trans hk'
      | true =>
        cases hinner.symm.trans hk'
        exact ⟨base, congrArg _ hkv⟩
  obtain ⟨x, h', hrest⟩ := rest_of_store m key answered refused (Bool.not_eq_true _ ▸ hreads) h
  have hspec : (denoted (calm m key answered refused) vars (.property true base (.primitive k.value)) >>= fun ref =>
      putTo (calm m key answered refused) vars (.property true base (.primitive k.value)) ref (f x)) h' =
        (.thrown (.primitive .undefined),
          h' ++ [Event.putValue (Reference.property true base (m.language.propertyKeyOf k.value)) (f x)]) := putValue_calm ..
  obtain ⟨y, hcode⟩ : ∃ y, stored.store vars (calm m key answered refused) target.inner
      (.property true base (.primitive k.value)) x h' = (.thrown (.primitive .undefined),
        h' ++ [Event.putValue (Reference.property true base (m.language.propertyKeyOf (stored.literal m k).value)) y]) := by
    refine ⟨stored.value (calm m key answered refused) target.inner x, ?_⟩
    have htarget : stored.target m target.inner (.property true base (.primitive k.value)) =
        .property true base (.primitive (stored.literal m k).value) := by
      rw [hinner]
      rfl
    rw [Stored.store, show (calm m key answered refused).toMachine = m from rfl, htarget, storeResolved,
      property_primitive]
    exact putValue_calm ..
  rw [Use.restByReference, if_neg hreads] at heq
  have hends := (hrest hcode).symm.trans (heq.trans (hrest hspec))
  simp only [Prod.mk.injEq, List.append_cancel_left_eq, List.cons.injEq, Event.putValue.injEq,
    Reference.property.injEq] at hends
  exact hends.2.1.1.2.2

end

theorem keepsReference_iff (hc : c.Lawful vars stored superBase) :
    KeepsReference c vars m key u target ↔ target.KeyThrows key ∨
      (u.reads = true → target.Readable key) ∧ target.Writable vars stored m := by
  constructor
  · intro hkeeps
    by_cases hkey : target.KeyThrows key
    · exact .inl hkey
    · exact .inr ⟨fun hreads => ⟨hc.not_super hkeeps hkey hreads, hc.not_object hkeeps hkey hreads⟩,
        fun v => hc.not_hole hkeeps hkey, fun k => hc.literal_eq hkeeps hkey⟩
  · rintro hcond rt rfl hkey
    refine ⟨stored.value rt target.inner, fun t r h ht => ?_⟩
    obtain ⟨g, -, hrun⟩ := hc.run_compile rt u target ht r
    rw [hrun, Use.byReference]
    refine congrFun (congrArg (u.before rt >>= ·) (funext fun _ => funext fun h' => ?_)) h
    refine Process.bind_congr_value fun res h'' hres => ?_
    have hdenotes := denotes_of_evaluateTarget (fun h k hk => (hkey h).symm.trans hk) hres
    obtain ⟨hreadable, hwritable⟩ := hcond.resolve_left (not_keyThrows hdenotes)
    rw [rest_eq hreadable hwritable hdenotes]

end LReferenceCode.Lawful

end Results

/-! ## Both compilers -/

theorem Es2panda.writable (target : Target Es2panda.Variable) (m : Machine) :
    target.Writable Es2panda.variableCode Es2panda.stored m :=
  ⟨fun _ _ _ => rfl, fun _ _ => rfl⟩

/-- A machine whose numbers count nothing. -/
def someMachine : Machine where
  language :=
    { text := fun _ => []
      number := fun _ => 0
      increment := fun bits => bits
      decrement := fun bits => bits
      sum := fun p _ => .ok p
      typeError := .object 0
      referenceError := .object 1 }
  integer := fun bits => bits
  tonumberBigInt := fun _ => .error (.object 0)

end ArkTs2abc.References
