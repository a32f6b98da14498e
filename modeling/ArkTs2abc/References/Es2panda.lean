import ArkTs2abc.References.Lawful

/-!
# References in es2panda

The registers of a reference stay in use until its expression ends. A property of `super` is written with
`this`, and read like any other property of `this`.

## Main results

* `run_createLRef`, `run_getValue`, `run_setValue` — what the three parts of `LReference` do.
* `lawful` — all of it.
-/

namespace ArkTs2abc.References

open StructuredCode Conversions
open Ts2panda.PropertyAccess (Temps)

variable {V : Type} {rt : Runtime}

namespace Es2panda

variable {vars : Variables V} {t : Temps} {rest : List Ins}

theorem inUse_toPropertyKey (key : Key) {k : ℕ} (h : t.InUse k) :
    (toPropertyKey key t).2.2.InUse k := by
  cases key with
  | literal _ => exact h
  | expression => exact h.getTemp

theorem wellFormed_toPropertyKey (key : Key) (h : t.WellFormed) :
    (toPropertyKey key t).2.2.WellFormed := by
  cases key with
  | literal _ => exact h
  | expression => exact h.getTemp

theorem run_toPropertyKey (key : Key) (r : Registers)
    {F : JsValue → Evaluation Part Reference JsValue}
    (h : ∀ r', Keeps t r r' → run rt rest r' = F (keyValue r' (toPropertyKey key t).2.1 key)) :
    run rt ((toPropertyKey key t).1 ++ rest) r = evaluateKey rt key >>= F := by
  cases key with
  | literal k => exact h r (Keeps.refl t r)
  | expression =>
    show run rt (.compile .key t.getTemp.2 :: .sta t.getTemp.1 :: rest) r = _
    rw [run_compile]
    refine congrArg (rt.evaluate .key >>= ·) (funext fun v => ?_)
    have hkeeps : Keeps t r ⟨v, Function.update (r.behind rt .key t.getTemp.2 v).reg t.getTemp.1 v⟩ :=
      ((Keeps.behind rt .key v).mono fun k hk => hk.getTemp).trans (Keeps.update not_inUse_getTemp v v)
    rw [run_sta]
    exact (h _ hkeeps).trans (congrArg F (reg_update ..))

theorem createLRef_wellFormed (target : Target V) (ht : t.WellFormed) :
    (createLRef target t).2.2.WellFormed := by
  induction target with
  | binding v => exact ht
  | member key | superMember key => exact wellFormed_toPropertyKey key ht.getTemp
  | parenthesized target ih => exact ih

theorem createLRef_inUse (target : Target V) {k : ℕ} (hk : t.InUse k) :
    (createLRef target t).2.2.InUse k := by
  induction target with
  | binding v => exact hk
  | member key | superMember key => exact inUse_toPropertyKey key hk.getTemp
  | parenthesized target ih => exact ih

theorem toPropertyKey_live (key : Key) (ht : t.WellFormed) (hkey : key = .expression) :
    (toPropertyKey key t).2.2.InUse (toPropertyKey key t).2.1 := by
  subst hkey
  exact ht.inUse_getTemp

theorem toPropertyKey_ne (key : Key) {k : ℕ} (hk : t.InUse k) (hkey : key = .expression) :
    (toPropertyKey key t).2.1 ≠ k := by
  subst hkey
  exact hk.ne_getTemp.symm

theorem createLRef_live (target : Target V) (ht : t.WellFormed) :
    (createLRef target t).2.1.Live (createLRef target t).2.2 := by
  induction target with
  | binding v => exact trivial
  | member key | superMember key =>
    exact ⟨inUse_toPropertyKey key ht.inUse_getTemp, toPropertyKey_live key ht.getTemp⟩
  | parenthesized target ih => exact ih

theorem createLRef_apart (target : Target V) {k : ℕ} (hk : t.InUse k) :
    (createLRef target t).2.1.Apart k := by
  induction target with
  | binding v => exact trivial
  | member key | superMember key => exact ⟨hk.ne_getTemp.symm, toPropertyKey_ne key hk.getTemp⟩
  | parenthesized target ih => exact ih

theorem createLRef_node (target : Target V) (t : Temps) :
    (createLRef target t).2.1.node = target.inner := by
  induction target with
  | binding v => rfl
  | member key | superMember key => rfl
  | parenthesized target ih => exact ih

theorem run_createLRef (target : Target V) (r : Registers) (ht : t.WellFormed)
    {F : Resolved V → Evaluation Part Reference JsValue}
    (h : ∀ r' res, (createLRef target t).2.1.Holds rt rt.this r' res → Keeps t r r' → run rt rest r' = F res) :
    run rt ((createLRef target t).1 ++ rest) r = evaluateTarget rt target >>= F := by
  induction target with
  | binding v => exact h r (.binding v) rfl (Keeps.refl t r)
  | member key =>
    show run rt (.compile .object t.getTemp.2 :: .sta t.getTemp.1 ::
      ((toPropertyKey key t.getTemp.2).1 ++ rest)) r = _
    rw [run_compile, evaluateTarget, Process.bind_assoc]
    refine congrArg (rt.evaluate .object >>= ·) (funext fun base => ?_)
    rw [run_sta, Process.bind_assoc]
    refine run_toPropertyKey key _ fun r' hr' => ?_
    have hkeeps := ((Keeps.behind rt .object base).mono fun k hk => hk.getTemp).trans
      ((Keeps.update (r := r.behind rt .object t.getTemp.2 base) not_inUse_getTemp base base).trans
        (hr'.mono fun k hk => hk.getTemp))
    refine h r' _ ⟨key, rfl, rfl, ?_⟩ hkeeps
    have hobj : r'.reg t.getTemp.1 = base :=
      (hr' _ ht.inUse_getTemp).trans (reg_update ..)
    exact hobj.symm
  | superMember key =>
    show run rt (.ldThis :: .sta t.getTemp.1 :: ((toPropertyKey key t.getTemp.2).1 ++ rest)) r = _
    rw [run_ldThis, run_sta, evaluateTarget, Process.bind_assoc]
    refine run_toPropertyKey key _ fun r' hr' => ?_
    have hkeeps := (Keeps.update (r := r) (not_inUse_getTemp (t := t)) rt.this rt.this).trans
      (hr'.mono fun k hk => hk.getTemp)
    refine h r' _ ⟨key, rfl, rfl, rfl, ?_⟩ hkeeps
    exact (hr' _ ht.inUse_getTemp).trans (reg_update ..)
  | parenthesized target ih => exact ih h

/-- The value of the accumulator is stored where it should be. -/
def stored : Stored V := ⟨fun _ _ x => x, fun _ k => k⟩

variable {r : Registers}

theorem stored_target {lref : LReference V} {g : JsValue} {res : Resolved V}
    (hholds : lref.Holds rt g r res) : stored.target rt.toMachine lref.node res = res := by
  cases res with
  | binding v =>
    have hnode : lref.node = .binding v := hholds
    rw [hnode]
    rfl
  | property isSuper base k =>
    obtain ⟨key, rfl, hrest⟩ := hholds
    cases isSuper with
    | true =>
      rw [hrest.1]
      cases key <;> rfl
    | false =>
      rw [hrest.1]
      rfl

theorem operand_value (r : Registers) (key : Key) (prop : ℕ) :
    r.operand (operand key prop) = keyValue r prop key := by
  cases key <;> rfl

theorem run_getValue {lref : LReference V} {g : JsValue} {res : Resolved V} (hvars : vars.Lawful)
    (hholds : lref.Holds rt g r res) {F : JsValue → Evaluation Part Reference JsValue}
    (h : ∀ r', Keeps t r r' → run rt rest r' = F r'.acc) :
    run rt (getValue vars lref t ++ rest) r = loadResolved rt vars g res >>= F := by
  cases res with
  | binding v =>
    have hnode : lref.node = .binding v := hholds
    rw [getValue, hnode]
    simp only []
    rw [hvars.run_load]
    exact congrArg (rt.getValue _ >>= ·) (funext fun x => h _ (Keeps.acc x))
  | property isSuper base k =>
    obtain ⟨key, rfl, hrest⟩ := hholds
    have hload : run rt (.ldObj lref.obj (operand key lref.prop) :: rest) r =
        (rt.property false (r.reg lref.obj) (keyValue r lref.prop key) >>= rt.getValue) >>= F := by
      rw [run_ldObj, operand_value, Process.bind_assoc]
      refine congrArg (rt.property _ _ _ >>= ·) (funext fun ref => ?_)
      exact congrArg (rt.getValue ref >>= ·) (funext fun x => h _ (Keeps.acc x))
    cases isSuper with
    | true =>
      obtain ⟨hnode, -, hg⟩ := hrest
      rw [getValue, hnode]
      simp only [List.cons_append, List.nil_append]
      rw [hload, hg]
      rfl
    | false =>
      obtain ⟨hnode, rfl⟩ := hrest
      rw [getValue, hnode]
      simp only [List.cons_append, List.nil_append]
      rw [hload]
      rfl

theorem run_storeSuperProperty {obj : ℕ} {key : Key} {prop : ℕ} (ht : t.WellFormed)
    (hobj : t.InUse obj) {F : Evaluation Part Reference JsValue}
    (h : ∀ r', Keeps t r r' → r'.acc = r.acc → run rt rest r' = F) :
    run rt (storeSuperProperty obj (operand key prop) t ++ rest) r =
      rt.property true (r.reg obj) (keyValue r prop key) >>= fun ref => rt.putValue ref r.acc >>= fun _ => F := by
  have hstore : ∀ (r' : Registers) (key' : Operand), Keeps t r r' → r'.acc = r.acc →
      r'.operand key' = keyValue r prop key → run rt (.stSuper obj key' :: rest) r' =
        rt.property true (r.reg obj) (keyValue r prop key) >>= fun ref => rt.putValue ref r.acc >>= fun _ => F := by
    intro r' key' hkeeps hacc hkey
    rw [run_stSuper, hkeeps obj hobj, hkey, hacc, h r' hkeeps hacc]
  cases key with
  | expression => exact hstore r (.register prop) (Keeps.refl t r) rfl rfl
  | literal k =>
    cases k with
    | name s => exact hstore r (.literal (.name s)) (Keeps.refl t r) rfl rfl
    | number bits isInteger =>
      have hproperty := not_inUse_getTemp (t := t)
      have hvalue : ¬ t.InUse t.getTemp.2.getTemp.1 := fun hk => hk.getTemp.ne_getTemp rfl
      have hapart : t.getTemp.1 ≠ t.getTemp.2.getTemp.1 := ht.inUse_getTemp.ne_getTemp
      show run rt (.sta t.getTemp.2.getTemp.1 :: .ldNumber bits :: .sta t.getTemp.1 ::
        .lda t.getTemp.2.getTemp.1 :: .stSuper obj (.register t.getTemp.1) :: rest) r = _
      rw [run_sta, run_ldNumber, run_sta, run_lda]
      refine hstore _ _ ?_ ?_ ?_
      · exact (Keeps.update hvalue r.acc r.acc).trans
          ((Keeps.update hproperty _ _).trans (Keeps.acc _))
      · simp only []
        rw [Function.update_of_ne hapart.symm, Function.update_self]
      · exact Function.update_self ..

theorem run_setValue {lref : LReference V} {g : JsValue} {res : Resolved V} (hvars : vars.Lawful)
    (ht : t.WellFormed) (hlive : lref.Live t) (hg : g = rt.this) (hholds : lref.Holds rt g r res)
    {F : Evaluation Part Reference JsValue}
    (h : ∀ r', Keeps t r r' → r'.acc = r.acc → run rt rest r' = F) :
    run rt (setValue vars lref t ++ rest) r = storeResolved rt vars r.acc res >>= fun _ => F := by
  cases res with
  | binding v =>
    have hnode : lref.node = .binding v := hholds
    rw [setValue, hnode]
    simp only []
    rw [hvars.run_store, h r (Keeps.refl t r) rfl]
  | property isSuper base k =>
    obtain ⟨key, rfl, hrest⟩ := hholds
    unfold LReference.Live at hlive
    cases isSuper with
    | true =>
      obtain ⟨hnode, rfl, hobj⟩ := hrest
      rw [hnode] at hlive
      rw [setValue, hnode]
      simp only []
      rw [run_storeSuperProperty ht hlive.1 h, hobj, hg, storeResolved, Process.bind_assoc]
    | false =>
      obtain ⟨hnode, rfl⟩ := hrest
      rw [setValue, hnode]
      simp only [List.cons_append, List.nil_append]
      rw [run_stObj, operand_value, storeResolved, Process.bind_assoc, h r (Keeps.refl t r) rfl]

/-- A property of `super` is read from `this`. -/
theorem lawful (hvars : vars.Lawful) : (code vars).Lawful vars stored fun rt g => g = rt.this where
  create_wellFormed target _ ht := createLRef_wellFormed target ht
  create_inUse target _ _ _ hk := createLRef_inUse target hk
  create_live target _ ht := createLRef_live target ht
  create_apart target _ _ _ hk := createLRef_apart target hk
  create_node := createLRef_node
  release_inUse hk _ := hk
  release_wellFormed ht _ := ht
  stored_value _ _ _ _ := rfl
  run_create rt target _ r ht := ⟨rt.this, rfl, fun h => run_createLRef target r ht h⟩
  run_get _ _ hholds _ _ h := run_getValue hvars hholds h
  run_set ht hlive hg hholds _ _ h := by
    rw [stored_target hholds]
    exact run_setValue hvars ht hlive hg hholds h

end Es2panda

end ArkTs2abc.References
