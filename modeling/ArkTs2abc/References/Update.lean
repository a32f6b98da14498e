import ArkTs2abc.References.OneReference

/-!
# Update expressions

`++` and `--` read their target, convert what they have read, and write the sum or difference; they have the
value that is written, or the converted one. The code keeps what it has read without its conversion, and
converts it again behind the store.

Where a key is converted, and how often, is left to the reads and writes.

## Main definitions

* `update` — an update expression, with one conversion.
* `UpdatesRight` — the code does the same.

## Main results

* `updates_right_iff` — when the code is right, by what the target is and what is read from it.
-/

namespace ArkTs2abc.References

open StructuredCode Conversions
open Ts2panda.PropertyAccess (Temps)

variable {V : Type}

section Spec

variable (rt : Runtime) (vars : Variables V)

/-- The target is read, what is read is converted, and the target is written. -/
def updateRest (isDecrement isPrefix : Bool) (res : Resolved V) : Evaluation Part Reference JsValue :=
  (denoted rt vars res >>= rt.getValue) >>= fun old => rt.language.toNumeric rt.world old >>= fun p =>
    (denoted rt vars res >>= fun ref => putTo rt vars res ref (.primitive (rt.step isDecrement p))) >>= fun _ =>
      pure (.primitive (if isPrefix then rt.step isDecrement p else p))

def update (isDecrement isPrefix : Bool) (target : Target V) : Evaluation Part Reference JsValue :=
  evaluateTarget rt target >>= updateRest rt vars isDecrement isPrefix

end Spec

/-- The code does what the update does, wherever a read has some answer. -/
def UpdatesRight (c : LReferenceCode V) (vars : Variables V) (m : Machine) (read : Except JsValue JsValue)
    (isDecrement isPrefix : Bool) (target : Target V) : Prop :=
  ∀ rt : Runtime, rt.toMachine = m → (∀ h ref, rt.world.answer (h ++ [Event.getValue ref]) = read) →
    ∀ (t : Temps) (r : Registers) (h : History), t.WellFormed →
      run rt (c.compileUpdate isDecrement isPrefix target t) r h = update rt vars isDecrement isPrefix target h

/-- There is no number to be stored. -/
def Unconvertible (read : Except JsValue JsValue) : Prop :=
  (∃ e, read = .error e) ∨ ∃ id, read = .ok (.primitive (.symbol id))

/-- A second conversion does nothing but what the first one does. -/
def Settled (m : Machine) (read : Except JsValue JsValue) : Prop :=
  ∃ p, read = .ok (.primitive p) ∧ ∀ i, p = .bigint i → m.tonumberBigInt i = .ok (.bigint i)

/-- What the code updates. -/
structure Updatable (vars : Variables V) (m : Machine) (read : Except JsValue JsValue) (isPrefix : Bool)
    (target : Target V) : Prop where
  not_super : ∀ k, target.inner ≠ .superMember k
  stored : Unconvertible read ∨ (∃ v, target.inner = .binding v ∧ vars.immutable v = true) ∨
    (∀ v, target.inner = .binding v → vars.hole v = false) ∧ (isPrefix = true ∨ Settled m read)

section Code

variable {rt : Runtime} {vars : Variables V} {stored : Stored V} {read : Except JsValue JsValue}
  {target : Target V} {res : Resolved V} {isDecrement isPrefix : Bool}

theorem read_of_load (hread : ∀ h ref, rt.world.answer (h ++ [Event.getValue ref]) = read) {old : JsValue}
    {h h' : History} (hload : (denoted rt vars res >>= rt.getValue) h = (.value old, h')) : read = .ok old := by
  obtain ⟨ref, h₁, -, hvalue⟩ := Process.of_bind_value hload
  change completion (rt.world.answer (h₁ ++ [Event.getValue ref])) (h₁ ++ [Event.getValue ref]) = _ at hvalue
  rw [hread] at hvalue
  cases read with
  | error e => cases hvalue
  | ok x =>
    cases hvalue
    rfl

theorem putTo_value {ref : Reference} {x y : JsValue} {h h' : History}
    (hput : putTo rt vars res ref x h = (.value y, h')) : y = x := by
  cases res with
  | binding v =>
    rw [putTo] at hput
    split at hput
    · cases hput
    · obtain ⟨_, h₁, -, hvalue⟩ := Process.of_bind_value hput
      cases hvalue
      rfl
  | property isSuper base k =>
    obtain ⟨_, h₁, -, hvalue⟩ := Process.of_bind_value hput
    cases hvalue
    rfl

theorem updateResult_eq {p q : Primitive} {x : JsValue} (hnumeric : rt.language.numericOf p = .ok q)
    (hbigint : ∀ i, p = .bigint i → rt.tonumberBigInt i = .ok (.bigint i)) :
    rt.updateResult false (.primitive p) x = pure (.primitive q) := by
  have htonumber : rt.tonumber p = .ok q := by
    cases p with
    | bigint i =>
      cases hnumeric
      exact hbigint i rfl
    | undefined | null | boolean b | number bits | string units | symbol id => exact hnumeric
  show completion (rt.tonumber p) >>= _ = _
  rw [htonumber]
  rfl

theorem rest_immutable {v : V} (hinner : target.inner = .binding v) (himmutable : vars.immutable v = true)
    (g : JsValue) (hres : Denotes (fun _ => True) target res) :
    Use.rest rt (loadResolved rt vars g res) (stored.store vars rt target.inner res)
      (.update isDecrement isPrefix) = updateRest rt vars isDecrement isPrefix res := by
  obtain rfl := hres.of_binding hinner
  refine congrArg (rt.getValue _ >>= ·) (funext fun old => ?_)
  refine congrArg (rt.language.toNumeric rt.world old >>= ·) (funext fun p => ?_)
  have hcode : stored.store vars rt target.inner (.binding v) (.primitive (rt.step isDecrement p)) =
      Process.throwing rt.language.typeError := by
    rw [Stored.store, Stored.target_eq _ _ _ (by simp [hinner]), storeResolved_immutable himmutable]
    rfl
  have hspec : putTo rt vars (.binding v) (.binding (vars.place v)) (.primitive (rt.step isDecrement p)) =
      Process.throwing rt.language.typeError := if_pos himmutable
  show _ = putTo rt vars (.binding v) (.binding (vars.place v)) _ >>= _
  rw [hcode, hspec]
  rfl

theorem store_update (hvalue : ∀ x, stored.value rt target.inner x = x)
    (hsuper : ∀ k, target.inner ≠ .superMember k) (hhole : ∀ v, target.inner = .binding v → vars.hole v = false)
    {P : JsValue → Prop} (hres : Denotes P target res) (x : JsValue) :
    stored.store vars rt target.inner res x = denoted rt vars res >>= fun ref => putTo rt vars res ref x := by
  have hwritable : target.Writable vars stored rt.toMachine :=
    ⟨fun v hv _ => hhole v hv, fun k hk => absurd hk (hsuper _)⟩
  rw [store_eq rt hwritable hres, hvalue]

theorem rest_update (hvalue : ∀ x, stored.value rt target.inner x = x)
    (hread : ∀ h ref, rt.world.answer (h ++ [Event.getValue ref]) = read)
    (hupdatable : Updatable vars rt.toMachine read isPrefix target)
    (hres : Denotes (fun _ => True) target res) (g : JsValue) (h : History) :
    Use.rest rt (loadResolved rt vars g res) (stored.store vars rt target.inner res)
      (.update isDecrement isPrefix) h = updateRest rt vars isDecrement isPrefix res h := by
  by_cases himmutable : ∃ v, target.inner = .binding v ∧ vars.immutable v = true
  · obtain ⟨v, hinner, himmutable⟩ := himmutable
    rw [rest_immutable hinner himmutable g hres]
  rw [Use.rest, load_eq hupdatable.not_super hres, updateRest]
  refine Process.bind_congr_value fun old h₁ hload => ?_
  have hold := read_of_load hread hload
  refine Process.bind_congr_value fun q h₂ hq => ?_
  obtain hnone | himm | ⟨hhole, hresult⟩ := hupdatable.stored
  · obtain ⟨e, he⟩ | ⟨id, hid⟩ := hnone
    · cases he.symm.trans hold
    · cases hid.symm.trans hold
      cases hq
  · exact absurd himm himmutable
  · rw [store_update hvalue hupdatable.not_super hhole hres]
    refine Process.bind_congr_value fun s h₃ hs => ?_
    obtain ⟨ref, h', -, hput⟩ := Process.of_bind_value hs
    obtain rfl := putTo_value hput
    cases isPrefix with
    | true => rfl
    | false =>
      obtain ⟨p, hp, hbigint⟩ := hresult.resolve_left (by simp)
      cases hp.symm.trans hold
      have hnumeric : rt.language.numericOf p = .ok q := by
        change completion (rt.language.numericOf p) h₁ = _ at hq
        cases hn : rt.language.numericOf p with
        | error e =>
          rw [hn] at hq
          cases hq
        | ok q' =>
          rw [hn] at hq
          cases hq
          rfl
      rw [updateResult_eq hnumeric hbigint, if_neg (by simp)]

end Code

/-! ## What has happened stays -/

section Grows

variable (rt : Runtime) (vars : Variables V) (res : Resolved V)

theorem grows_property (isSuper : Bool) (base k : JsValue) : Grows (rt.property isSuper base k) :=
  (Grows.toPropertyKey _ _ k).bind fun _ => Grows.pure _

theorem grows_putValue (ref : Reference) (x : JsValue) : Grows (rt.putValue ref x) :=
  (Grows.perform _ _).bind fun _ => Grows.pure _

theorem grows_storeResolved (x : JsValue) : Grows (storeResolved rt vars x res) := by
  cases res with
  | binding v =>
    rw [storeResolved]
    split_ifs
    · exact Grows.throwing _
    · exact Grows.throwing _
    · exact grows_putValue rt _ x
  | property isSuper base k => exact (grows_property rt isSuper base k).bind fun ref => grows_putValue rt ref x

theorem grows_putTo (ref : Reference) (x : JsValue) : Grows (putTo rt vars res ref x) := by
  cases res with
  | binding v =>
    rw [putTo]
    split_ifs
    · exact Grows.throwing _
    · exact (grows_putValue rt ref x).bind fun _ => Grows.pure _
  | property isSuper base k => exact (grows_putValue rt ref x).bind fun _ => Grows.pure _

theorem grows_updateResult (isPrefix : Bool) (old x : JsValue) : Grows (rt.updateResult isPrefix old x) := by
  rw [Runtime.updateResult]
  split_ifs
  · exact Grows.pure _
  · exact (Grows.toPrimitive _ _ _).bind fun _ => (Grows.completion _).bind fun _ => Grows.pure _

theorem grows_denoted : Grows (denoted rt vars res) := by
  cases res with
  | binding v => exact Grows.pure _
  | property isSuper base k => exact grows_property rt isSuper base k

end Grows

/-! ## When the code is right -/

theorem toNumeric_calm (m : Machine) (key read write : Except JsValue JsValue) {old : JsValue}
    (hold : ∀ id, old ≠ .primitive (.symbol id)) (h : History) : ∃ q h',
      m.language.toNumeric (calm m key read write).world old h = (.value q, h') := by
  cases old with
  | object id => exact ⟨_, h ++ [Event.toPrimitive .number id], rfl⟩
  | primitive p =>
    cases p with
    | symbol id => exact absurd rfl (hold id)
    | undefined | null | boolean b | number bits | bigint i | string units => exact ⟨_, h, rfl⟩

theorem load_calm (m : Machine) (vars : Variables V) (write : Except JsValue JsValue) (res : Resolved V)
    {old : JsValue} (hold : ∀ id, old ≠ .primitive (.symbol id)) (h : History) : ∃ q h₁ h₂,
      (denoted (calm m answered (.ok old) write) vars res >>= (calm m answered (.ok old) write).getValue) h =
        (.value old, h₁) ∧
      m.language.toNumeric (calm m answered (.ok old) write).world old h₁ = (.value q, h₂) := by
  have hload : ∃ h₁, (denoted (calm m answered (.ok old) write) vars res >>=
      (calm m answered (.ok old) write).getValue) h = (.value old, h₁) := by
    cases res with
    | binding v => exact ⟨_, getValue_calm ..⟩
    | property isSuper base k =>
      obtain ⟨p, h', hproperty⟩ := property_calm m answered (.ok old) write k h
      exact ⟨_, (Process.bind_value (hproperty isSuper base) _).trans (getValue_calm ..)⟩
  obtain ⟨h₁, hload⟩ := hload
  obtain ⟨q, h₂, hq⟩ := toNumeric_calm m answered (.ok old) write hold h₁
  exact ⟨q, h₁, h₂, hload, hq⟩

theorem store_calm (m : Machine) {vars : Variables V} (read : Except JsValue JsValue) {res : Resolved V}
    (himmutable : ∀ v, res = .binding v → vars.immutable v = false) (x : JsValue) (h : History) : ∃ h',
      (denoted (calm m answered read answered) vars res >>= fun ref =>
        putTo (calm m answered read answered) vars res ref x) h = (.value x, h') := by
  have hput : ∀ ref h, ((calm m answered read answered).putValue ref x >>= fun _ =>
      (pure x : Evaluation Part Reference JsValue)) h = (.value x, h ++ [Event.putValue ref x]) := by
    intro ref h
    have hanswer : (calm m answered read answered).world.answer (h ++ [Event.putValue ref x]) = answered :=
      answer_calm ..
    exact Process.bind_value (perform_bind_ok hanswer _) _
  cases res with
  | binding v =>
    refine ⟨h ++ [Event.putValue (Reference.binding (vars.place v)) x], ?_⟩
    rw [denoted, Process.pure_bind, putTo, himmutable v rfl, if_neg (by simp)]
    exact hput _ h
  | property isSuper base k =>
    obtain ⟨p, h', hproperty⟩ := property_calm m answered read answered k h
    exact ⟨_, (Process.bind_value (hproperty isSuper base) _).trans (hput _ h')⟩

namespace LReferenceCode.Lawful

variable {c : LReferenceCode V} {vars : Variables V} {stored : Stored V} {superBase : Runtime → JsValue → Prop}
  {m : Machine} {read : Except JsValue JsValue} {target : Target V} {isDecrement isPrefix : Bool}

section

variable (hc : c.Lawful vars stored superBase)
include hc

theorem rest_of_updatesRight (hright : UpdatesRight c vars m read isDecrement isPrefix target) (write : Except JsValue JsValue) :
    ∃ g res h, Denotes (fun _ => True) target res ∧
      Use.rest (calm m answered read write) (loadResolved (calm m answered read write) vars g res)
        (stored.store vars (calm m answered read write) target.inner res) (.update isDecrement isPrefix) h =
          updateRest (calm m answered read write) vars isDecrement isPrefix res h := by
  have hwellFormed : Temps.WellFormed ⟨[], 0⟩ := ⟨List.nodup_nil, by simp⟩
  obtain ⟨g, -, hrun⟩ := hc.run_compile (calm m answered read write) (.update isDecrement isPrefix) target
    hwellFormed ⟨.primitive .undefined, fun _ => .primitive .undefined⟩
  obtain ⟨res, h, hres⟩ : ∃ res h, evaluateTarget (calm m answered read write) target [] = (.value res, h) :=
    evaluateTarget_value (fun h => ⟨.primitive .undefined, answer_calm ..⟩)
      (fun _ h => ⟨.primitive .undefined, answer_calm ..⟩) []
  refine ⟨g, res, h, denotes_of_evaluateTarget (fun _ _ _ => trivial) hres, ?_⟩
  have heq := hright (calm m answered read write) rfl (fun _ _ => answer_calm ..) ⟨[], 0⟩
    ⟨.primitive .undefined, fun _ => .primitive .undefined⟩ [] hwellFormed
  rw [show c.compileUpdate isDecrement isPrefix target ⟨[], 0⟩ =
    c.compile (.update isDecrement isPrefix) target ⟨[], 0⟩ from rfl, hrun, Use.before, Process.pure_bind,
    update, Process.bind_value hres, Process.bind_value hres] at heq
  exact heq

theorem not_super_of_updatesRight (hright : UpdatesRight c vars m read isDecrement isPrefix target) (k : Key) :
    target.inner ≠ .superMember k := by
  intro hinner
  obtain ⟨g, res, h, hres, heq⟩ := hc.rest_of_updatesRight hright refused
  cases res with
  | binding v => cases hinner.symm.trans (show target.inner = .binding v from hres)
  | property isSuper base kv =>
    obtain ⟨k', hk', -⟩ := hres
    cases isSuper with
    | false => cases hinner.symm.trans hk'
    | true =>
      obtain ⟨p, h', hproperty⟩ := property_calm m answered read refused kv h
      have hend : ∀ l : History, ((completion read : Evaluation Part Reference JsValue) l).2 = l := by
        intro l
        cases read <;> rfl
      have hcode : (loadResolved (calm m answered read refused) vars g (.property true base kv) h).2 =
          h' ++ [Event.getValue (Reference.property false g p)] := by
        rw [loadResolved, Process.bind_value (hproperty false _), getValue_calm, hend]
        rfl
      have hspec : ((denoted (calm m answered read refused) vars (.property true base kv) >>=
          (calm m answered read refused).getValue) h).2 = h' ++ [Event.getValue (Reference.property true base p)] := by
        rw [denoted, Process.bind_value (hproperty true base), getValue_calm, hend]
      refine ne_of_prefix (Grows.bind_prefix hcode fun old => ?_) (Grows.bind_prefix hspec fun old => ?_)
        (by simp) (congrArg Prod.snd heq)
      · exact (Grows.toNumeric _ _ _).bind fun q => ((grows_storeResolved _ _ _ _).bind fun _ =>
          Grows.pure _).bind (grows_updateResult _ _ old)
      · exact (Grows.toNumeric _ _ _).bind fun q => ((grows_denoted _ _ _).bind fun ref =>
          grows_putTo _ _ _ ref _).bind fun _ => Grows.pure _

theorem not_hole_of_updatesRight {old : JsValue}
    (hright : UpdatesRight c vars m (.ok old) isDecrement isPrefix target)
    (hold : ∀ id, old ≠ .primitive (.symbol id)) {v : V} (hinner : target.inner = .binding v)
    (himmutable : vars.immutable v = false) : vars.hole v = false := by
  by_contra hhole
  rw [Bool.not_eq_false] at hhole
  obtain ⟨g, res, h, hres, heq⟩ := hc.rest_of_updatesRight hright refused
  obtain rfl := hres.of_binding hinner
  obtain ⟨q, h₁, h₂, hload, hq⟩ := load_calm m vars refused (.binding v) hold h
  have hcode : stored.store vars (calm m answered (.ok old) refused) target.inner (.binding v)
      (.primitive (m.step isDecrement q)) h₂ = (.thrown m.language.referenceError, h₂) := by
    rw [Stored.store, Stored.target_eq _ _ _ (by simp [hinner]), storeResolved_hole himmutable hhole]
    rfl
  have hspec : (denoted (calm m answered (.ok old) refused) vars (.binding v) >>= fun ref =>
      putTo (calm m answered (.ok old) refused) vars (.binding v) ref (.primitive (m.step isDecrement q))) h₂ =
        (.thrown (.primitive .undefined),
          h₂ ++ [Event.putValue (Reference.binding (vars.place v)) (.primitive (m.step isDecrement q))]) := by
    rw [denoted, Process.pure_bind, putTo, himmutable, if_neg (by simp)]
    exact putValue_calm ..
  have hends := ((Process.bind_value hload _).trans ((Process.bind_value hq _).trans
    (Process.bind_thrown hcode _))).symm.trans (heq.trans ((Process.bind_value hload _).trans
      ((Process.bind_value hq _).trans (Process.bind_thrown hspec _))))
  simp at hends

theorem settled_of_updatesRight {old : JsValue}
    (hright : UpdatesRight c vars m (.ok old) isDecrement false target)
    (hold : ∀ id, old ≠ .primitive (.symbol id))
    (himmutable : ∀ v, target.inner = .binding v → vars.immutable v = false)
    (hhole : ∀ v, target.inner = .binding v → vars.hole v = false) : Settled m (.ok old) := by
  obtain ⟨g, res, h, hres, heq⟩ := hc.rest_of_updatesRight hright answered
  have hsuper := hc.not_super_of_updatesRight hright
  have hbinding : ∀ v, res = .binding v → vars.immutable v = false := by
    rintro v rfl
    exact himmutable v hres
  obtain ⟨q, h₁, h₂, hload, hq⟩ := load_calm m vars answered res hold h
  obtain ⟨h₃, hspec⟩ := store_calm m (.ok old) hbinding (.primitive (m.step isDecrement q)) h₂
  have hcode := congrFun (store_update (fun x => hc.stored_value (calm m answered (.ok old) answered) _ x hsuper)
    hsuper hhole hres (.primitive (m.step isDecrement q))) h₂
  rw [Use.rest, load_eq hsuper hres] at heq
  -- Both get to the same store; then the code converts what was read once more.
  have hends : (calm m answered (.ok old) answered).updateResult false old (.primitive (m.step isDecrement q)) h₃ =
      (.value (.primitive q), h₃) :=
    ((Process.bind_value hload _).trans ((Process.bind_value hq _).trans
      (Process.bind_value (hcode.trans hspec) _))).symm.trans (heq.trans ((Process.bind_value hload _).trans
        ((Process.bind_value hq _).trans (Process.bind_value hspec _))))
  cases old with
  | object id =>
    have hconverted : (calm m answered (.ok (.object id)) answered).updateResult false (.object id)
        (.primitive (m.step isDecrement q)) h₃ =
          (.value (.primitive (.number (m.language.number .undefined))), h₃ ++ [Event.toPrimitive .number id]) := rfl
    simp [hconverted] at hends
  | primitive p =>
    refine ⟨p, rfl, ?_⟩
    rintro i rfl
    cases hq
    have htonumber : (completion (m.tonumberBigInt i) >>= fun q =>
        (pure (.primitive q) : Evaluation Part Reference JsValue)) h₃ =
          (.value (.primitive (.bigint i)), h₃) := hends
    cases hi : m.tonumberBigInt i with
    | error e =>
      rw [hi] at htonumber
      cases htonumber
    | ok q' =>
      rw [hi] at htonumber
      cases htonumber
      rfl

/-- When the code of an update is right. -/
theorem updatesRight_iff :
    UpdatesRight c vars m read isDecrement isPrefix target ↔ Updatable vars m read isPrefix target := by
  constructor
  · intro hright
    refine ⟨hc.not_super_of_updatesRight hright, ?_⟩
    by_cases hnone : Unconvertible read
    · exact .inl hnone
    by_cases himmutable : ∃ v, target.inner = .binding v ∧ vars.immutable v = true
    · exact .inr (.inl himmutable)
    cases read with
    | error e => exact absurd (.inl ⟨e, rfl⟩) hnone
    | ok old =>
      have hold : ∀ id, old ≠ .primitive (.symbol id) := by
        rintro id rfl
        exact hnone (.inr ⟨id, rfl⟩)
      have himm : ∀ v, target.inner = .binding v → vars.immutable v = false := by
        intro v hv
        by_contra h
        exact himmutable ⟨v, hv, Bool.not_eq_false _ ▸ h⟩
      have hhole : ∀ v, target.inner = .binding v → vars.hole v = false := fun v hv =>
        hc.not_hole_of_updatesRight hright hold hv (himm v hv)
      refine .inr (.inr ⟨hhole, ?_⟩)
      cases isPrefix with
      | true => exact .inl rfl
      | false => exact .inr (hc.settled_of_updatesRight hright hold himm hhole)
  · rintro hupdatable rt rfl hread t r h ht
    obtain ⟨g, -, hrun⟩ := hc.run_compile rt (.update isDecrement isPrefix) target ht r
    have hvalue : ∀ x, stored.value rt target.inner x = x := fun x =>
      hc.stored_value rt target.inner x hupdatable.not_super
    refine (congrFun hrun h).trans ?_
    rw [Use.before, Process.pure_bind, update]
    refine Process.bind_congr_value fun res h' hres => ?_
    exact rest_update hvalue hread hupdatable (denotes_of_evaluateTarget (fun _ _ _ => trivial) hres) g h'

end

end LReferenceCode.Lawful

/-! ## Both compilers -/

/-- The updates whose code is right, by what is read: the target is no property of `super`; there is a number
to be stored, and the variable is no class of the global scope of ts2panda; and where the old value is wanted,
what is read converts to itself, or to a number, and not by user code. -/
theorem updates_right_iff (m : Machine) (read : Except JsValue JsValue) (isDecrement isPrefix : Bool) :
    (∀ target : Target Es2panda.Variable,
      UpdatesRight (Es2panda.code Es2panda.variableCode) Es2panda.variableCode m read isDecrement isPrefix target ↔
        Updatable Es2panda.variableCode m read isPrefix target) ∧
    ∀ (thisIsLexVar : Bool) (target : Target Ts2panda.Variable),
      UpdatesRight (Ts2panda.code Ts2panda.variableCode thisIsLexVar) Ts2panda.variableCode m read isDecrement
        isPrefix target ↔ Updatable Ts2panda.variableCode m read isPrefix target :=
  ⟨fun _ => (Es2panda.lawful Es2panda.variableCode_lawful).updatesRight_iff,
    fun _ _ => (Ts2panda.lawful Ts2panda.variableCode_lawful).updatesRight_iff⟩

/-- `x++` with an object in `x`, which is converted again, and `super.x++`. -/
theorem updates_not_right :
    ¬ UpdatesRight (Es2panda.code Es2panda.variableCode) Es2panda.variableCode someMachine (.ok (.object 0)) false
      false (.binding (.localVariable 0 false)) ∧
    ¬ UpdatesRight (Ts2panda.code Ts2panda.variableCode false) Ts2panda.variableCode someMachine
      (.ok (.object 0)) false false (.binding (.localVariable .let [] (some 0) false)) ∧
    ¬ UpdatesRight (Es2panda.code Es2panda.variableCode) Es2panda.variableCode someMachine
      (.ok (.primitive (.number 0))) false true (.superMember (.literal (.name [120]))) := by
  have hes := Es2panda.lawful Es2panda.variableCode_lawful
  have hts : (Ts2panda.code Ts2panda.variableCode false).Lawful _ _ _ :=
    Ts2panda.lawful Ts2panda.variableCode_lawful
  have hobject : ¬ Unconvertible (.ok (.object 0)) ∧ ¬ Settled someMachine (.ok (.object 0)) := by
    constructor
    · rintro (⟨e, he⟩ | ⟨id, hid⟩)
      · cases he
      · cases hid
    · rintro ⟨p, hp, -⟩
      cases hp
  refine ⟨fun h => ?_, fun h => ?_, fun h => ?_⟩
  · obtain hnone | ⟨v, hv, himm⟩ | ⟨-, hprefix | hsettled⟩ := (hes.updatesRight_iff.mp h).stored
    · exact hobject.1 hnone
    · cases hv
      cases himm
    · cases hprefix
    · exact hobject.2 hsettled
  · obtain hnone | ⟨v, hv, himm⟩ | ⟨-, hprefix | hsettled⟩ := (hts.updatesRight_iff.mp h).stored
    · exact hobject.1 hnone
    · cases hv
      cases himm
    · cases hprefix
    · exact hobject.2 hsettled
  · exact (hes.updatesRight_iff.mp h).not_super _ rfl

end ArkTs2abc.References
