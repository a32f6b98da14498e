import ArkTs2abc.References.Lawful

/-!
# References in ts2panda

The parts of a target get to two registers of their own, and the registers they are evaluated into are free
again. A property of `super` is read from a register that is not set.

## Main results

* `run_generateLReference`, `run_getValue`, `run_setValue` — what the three parts of `LReference` do.
* `lawful` — all of it.
-/

namespace ArkTs2abc.References

open StructuredCode Conversions
open Ts2panda.PropertyAccess (Temps)

variable {V : Type} {rt : Runtime}

namespace Ts2panda

variable {vars : Variables V} {thisIsLexVar : Bool} {t : Temps}

theorem inUse_freeTemps {k : ℕ} {ks : List ℕ} (hk : t.InUse k) (hks : k ∉ ks) :
    (t.freeTemps ks).InUse k :=
  ⟨hk.1, fun h => (List.mem_append.mp h).elim hks hk.2⟩

theorem wellFormed_freeTemps {ks : List ℕ} (ht : t.WellFormed) (hnodup : ks.Nodup)
    (hks : ∀ k ∈ ks, t.InUse k) : (t.freeTemps ks).WellFormed where
  nodup := by
    refine List.nodup_append.mpr ⟨hnodup, ht.nodup, ?_⟩
    rintro k hk k' hk' rfl
    exact (hks k hk).2 hk'
  lt k hk := (List.mem_append.mp hk).elim (fun h => (hks k h).1) (ht.lt k)

/-! ### The registers of a reference -/

/-- The registers when a reference is made: its own two, and two for the parts. -/
def partTemps (t : Temps) : Temps := t.getTemp.2.getTemp.2.getTemp.2

/-- The registers behind a reference. -/
def refTemps (t : Temps) : Temps :=
  (partTemps t).getTemp.2.freeTemps [t.getTemp.2.getTemp.2.getTemp.1, (partTemps t).getTemp.1]

theorem inUse_refTemps {k : ℕ} (hk : t.getTemp.2.getTemp.2.InUse k) : (refTemps t).InUse k := by
  refine inUse_freeTemps hk.getTemp.getTemp fun hmem => ?_
  rcases List.mem_pair.mp hmem with rfl | rfl
  · exact hk.ne_getTemp rfl
  · exact hk.getTemp.ne_getTemp rfl

theorem wellFormed_refTemps (ht : t.WellFormed) : (refTemps t).WellFormed := by
  have hobj := ht.getTemp.getTemp.inUse_getTemp
  refine wellFormed_freeTemps ht.getTemp.getTemp.getTemp.getTemp (by simpa [partTemps] using hobj.ne_getTemp) ?_
  intro k hk
  rcases List.mem_pair.mp hk with rfl | rfl
  · exact hobj.getTemp
  · exact ht.getTemp.getTemp.getTemp.inUse_getTemp

theorem generateLReference_wellFormed (target : Target V) (ht : t.WellFormed) :
    (generateLReference target t).2.2.WellFormed := by
  induction target with
  | binding v => exact ht
  | member key | superMember key => exact wellFormed_refTemps ht
  | parenthesized target ih => exact ih

theorem generateLReference_inUse (target : Target V) {k : ℕ} (hk : t.InUse k) :
    (generateLReference target t).2.2.InUse k := by
  induction target with
  | binding v => exact hk
  | member key | superMember key => exact inUse_refTemps hk.getTemp.getTemp
  | parenthesized target ih => exact ih

theorem generateLReference_live (target : Target V) (ht : t.WellFormed) :
    (generateLReference target t).2.1.Live (generateLReference target t).2.2 := by
  induction target with
  | binding v => exact trivial
  | member key | superMember key =>
    exact ⟨inUse_refTemps ht.inUse_getTemp.getTemp, fun _ => inUse_refTemps ht.getTemp.inUse_getTemp⟩
  | parenthesized target ih => exact ih

theorem generateLReference_apart (target : Target V) {k : ℕ} (hk : t.InUse k) :
    (generateLReference target t).2.1.Apart k := by
  induction target with
  | binding v => exact trivial
  | member key | superMember key =>
    exact ⟨hk.ne_getTemp.symm, fun _ => hk.getTemp.ne_getTemp.symm⟩
  | parenthesized target ih => exact ih

theorem generateLReference_node (target : Target V) (t : Temps) :
    (generateLReference target t).2.1.node = target.inner := by
  induction target with
  | binding v => rfl
  | member key | superMember key => rfl
  | parenthesized target ih => exact ih

/-! ### Its code -/

variable {F : JsValue → Evaluation Part Reference JsValue} {rest : List Ins} {r : Registers}

theorem run_compileProp (key : Key) (r : Registers)
    (h : ∀ r', Keeps t r r' → run rt rest r' = F (keyValue r' t.getTemp.1 key)) :
    run rt (compileProp key t.getTemp.1 t.getTemp.2 ++ rest) r = evaluateKey rt key >>= F := by
  cases key with
  | literal k => exact h r (Keeps.refl t r)
  | expression =>
    show run rt (.compile .key t.getTemp.2 :: .sta t.getTemp.1 :: rest) r = _
    rw [run_compile]
    refine congrArg (rt.evaluate .key >>= ·) (funext fun v => ?_)
    have hkeeps : Keeps t r ⟨v, Function.update (r.behind rt .key t.getTemp.2 v).reg t.getTemp.1 v⟩ :=
      ((Keeps.behind rt .key v).mono fun k hk => hk.getTemp).trans (Keeps.update not_inUse_getTemp v v)
    rw [run_sta]
    exact (h _ hkeeps).trans (congrArg F (reg_update ..))

theorem run_moveProp (key : Key) (prop propReg : ℕ) (r : Registers)
    {o : Evaluation Part Reference JsValue}
    (h : ∀ r', (∀ k, k ≠ prop → r'.reg k = r.reg k) → keyValue r' prop key = keyValue r propReg key →
      run rt rest r' = o) : run rt (moveProp key prop propReg ++ rest) r = o := by
  cases key with
  | literal k => exact h r (fun _ _ => rfl) rfl
  | expression =>
    show run rt (.mov prop propReg :: rest) r = o
    rw [run_mov]
    exact h _ (fun k hk => Function.update_of_ne hk ..) (reg_update ..)

theorem run_generateLReference (target : Target V) (r : Registers) (ht : t.WellFormed)
    {F : Resolved V → Evaluation Part Reference JsValue}
    (h : ∀ r' res, (generateLReference target t).2.1.Holds rt (r.reg t.getTemp.1) r' res → Keeps t r r' →
      run rt rest r' = F res) :
    run rt ((generateLReference target t).1 ++ rest) r = evaluateTarget rt target >>= F := by
  have hobj : (partTemps t).InUse t.getTemp.1 := ht.inUse_getTemp.getTemp.getTemp
  have hobjReg : (partTemps t).InUse t.getTemp.2.getTemp.2.getTemp.1 := ht.getTemp.getTemp.inUse_getTemp
  have hprop : t.getTemp.1 ≠ t.getTemp.2.getTemp.1 := ht.inUse_getTemp.ne_getTemp
  have hkeep : ∀ {k}, t.InUse k → (partTemps t).InUse k := fun hk => hk.getTemp.getTemp.getTemp
  induction target with
  | binding v => exact h r (.binding v) rfl (Keeps.refl t r)
  | member key =>
    show run rt (.compile .object (partTemps t).getTemp.2 :: .sta t.getTemp.2.getTemp.2.getTemp.1 ::
      ((compileProp key (partTemps t).getTemp.1 (partTemps t).getTemp.2 ++
        .mov t.getTemp.1 t.getTemp.2.getTemp.2.getTemp.1 ::
          moveProp key t.getTemp.2.getTemp.1 (partTemps t).getTemp.1) ++ rest)) r = _
    rw [run_compile, evaluateTarget, Process.bind_assoc]
    refine congrArg (rt.evaluate .object >>= ·) (funext fun base => ?_)
    rw [run_sta, List.append_assoc, Process.bind_assoc]
    refine run_compileProp key _ fun r₁ hr₁ => ?_
    rw [List.cons_append, run_mov]
    refine run_moveProp key _ _ _ fun r₂ hr₂ hkey => ?_
    have hbase : r₂.reg t.getTemp.1 = base :=
      (hr₂ _ hprop).trans ((reg_update ..).trans ((hr₁ _ hobjReg).trans (reg_update ..)))
    have hkeyValue : keyValue r₂ t.getTemp.2.getTemp.1 key = keyValue r₁ (partTemps t).getTemp.1 key :=
      hkey.trans (LReference.keyValue_congr fun _ => Function.update_of_ne hobj.ne_getTemp.symm ..)
    have hkeeps : Keeps t r r₂ := by
      intro k hk
      rw [hr₂ k hk.getTemp.ne_getTemp]
      refine (Function.update_of_ne hk.ne_getTemp ..).trans ((hr₁ k (hkeep hk)).trans ?_)
      exact (Function.update_of_ne hk.getTemp.getTemp.ne_getTemp ..).trans (if_pos (hkeep hk).getTemp)
    exact h r₂ _ ⟨key, hkeyValue.symm, rfl, hbase.symm⟩ hkeeps
  | superMember key =>
    show run rt ((compileProp key (partTemps t).getTemp.1 (partTemps t).getTemp.2 ++
      moveProp key t.getTemp.2.getTemp.1 (partTemps t).getTemp.1) ++ rest) r = _
    rw [evaluateTarget, List.append_assoc, Process.bind_assoc]
    refine run_compileProp key _ fun r₁ hr₁ => ?_
    refine run_moveProp key _ _ _ fun r₂ hr₂ hkey => ?_
    have hkeeps : Keeps t r r₂ := fun k hk => (hr₂ k hk.getTemp.ne_getTemp).trans (hr₁ k (hkeep hk))
    exact h r₂ _ ⟨key, hkey.symm, rfl, rfl, (hr₂ _ hprop).trans (hr₁ _ hobj)⟩ hkeeps
  | parenthesized target ih => exact ih h

theorem run_loadObjProperty {obj : ℕ} (key : Key) {prop : ℕ} (hobj : t.InUse obj)
    (h : ∀ r', Keeps t r r' → run rt rest r' = F r'.acc) :
    run rt (loadObjProperty obj key prop t ++ rest) r =
      rt.property false (r.reg obj) (keyValue r prop key) >>= fun ref => rt.getValue ref >>= F := by
  have hload : ∀ (r' : Registers) (key' : Operand), Keeps t r r' → r'.operand key' = keyValue r prop key →
      run rt (.ldObj obj key' :: rest) r' =
        rt.property false (r.reg obj) (keyValue r prop key) >>= fun ref => rt.getValue ref >>= F := by
    intro r' key' hkeeps hkey
    rw [run_ldObj, hkeeps obj hobj, hkey]
    refine congrArg (rt.property _ _ _ >>= ·) (funext fun ref => ?_)
    exact congrArg (rt.getValue ref >>= ·) (funext fun x => h _ (hkeeps.trans (Keeps.acc x)))
  cases key with
  | expression => exact hload r (.register prop) (Keeps.refl t r) rfl
  | literal k =>
    cases k with
    | name s => exact hload r (.literal (.name s)) (Keeps.refl t r) rfl
    | number bits isInteger =>
      cases isInteger with
      | true => exact hload r (.literal (.number bits true)) (Keeps.refl t r) rfl
      | false =>
        show run rt (.ldNumber bits :: .sta t.getTemp.1 :: .ldObj obj (.register t.getTemp.1) :: rest) r = _
        rw [run_ldNumber, run_sta]
        exact hload _ _ (Keeps.update not_inUse_getTemp _ _) (reg_update ..)

/-- A property is written, with the value kept where its key goes through the accumulator. -/
theorem run_storeObjProperty {obj : ℕ} (key : Key) {prop : ℕ} (ht : t.WellFormed)
    (hobj : t.InUse obj) {F : Evaluation Part Reference JsValue}
    (h : ∀ r', Keeps t r r' → r'.acc = r.acc → run rt rest r' = F) :
    run rt (storeObjProperty obj key prop t ++ rest) r =
      rt.property false (r.reg obj) (keyValue r prop key) >>= fun ref => rt.putValue ref r.acc >>= fun _ => F := by
  have hstore : ∀ (r' : Registers) (key' : Operand), Keeps t r r' → r'.acc = r.acc →
      r'.operand key' = keyValue r prop key → run rt (.stObj obj key' :: rest) r' =
        rt.property false (r.reg obj) (keyValue r prop key) >>= fun ref => rt.putValue ref r.acc >>= fun _ => F := by
    intro r' key' hkeeps hacc hkey
    rw [run_stObj, hkeeps obj hobj, hkey, hacc, h r' hkeeps hacc]
  cases key with
  | expression => exact hstore r (.register prop) (Keeps.refl t r) rfl rfl
  | literal k =>
    cases k with
    | name s => exact hstore r (.literal (.name s)) (Keeps.refl t r) rfl rfl
    | number bits isInteger =>
      cases isInteger with
      | true => exact hstore r (.literal (.number bits true)) (Keeps.refl t r) rfl rfl
      | false =>
        have hprop : ¬ t.InUse t.getTemp.2.getTemp.1 := fun hk => hk.getTemp.ne_getTemp rfl
        have hapart : t.getTemp.1 ≠ t.getTemp.2.getTemp.1 := ht.inUse_getTemp.ne_getTemp
        show run rt (.sta t.getTemp.1 :: .ldNumber bits :: .sta t.getTemp.2.getTemp.1 :: .lda t.getTemp.1 ::
          .stObj obj (.register t.getTemp.2.getTemp.1) :: rest) r = _
        rw [run_sta, run_ldNumber, run_sta, run_lda]
        refine hstore _ _ ?_ ?_ (reg_update ..)
        · exact (Keeps.update not_inUse_getTemp r.acc r.acc).trans
            ((Keeps.update hprop _ _).trans (Keeps.acc _))
        · exact (Function.update_of_ne hapart ..).trans (reg_update ..)

theorem run_getValue {lref : LReference V} {g : JsValue} {res : Resolved V} (hvars : vars.Lawful)
    (hlive : lref.Live t) (hholds : lref.Holds rt g r res)
    (h : ∀ r', Keeps t r r' → run rt rest r' = F r'.acc) :
    run rt (getValue vars lref t ++ rest) r = loadResolved rt vars g res >>= F := by
  unfold LReference.Live at hlive
  cases res with
  | binding v =>
    have hnode : lref.node = .binding v := hholds
    rw [getValue, hnode]
    simp only []
    rw [hvars.run_load]
    exact congrArg (rt.getValue _ >>= ·) (funext fun x => h _ (Keeps.acc x))
  | property isSuper base k =>
    obtain ⟨key, rfl, hrest⟩ := hholds
    cases isSuper with
    | true =>
      obtain ⟨hnode, -, rfl⟩ := hrest
      rw [hnode] at hlive
      rw [getValue, hnode]
      simp only []
      rw [run_loadObjProperty key hlive.1 h, loadResolved, Process.bind_assoc]
      rfl
    | false =>
      obtain ⟨hnode, rfl⟩ := hrest
      rw [hnode] at hlive
      rw [getValue, hnode]
      simp only []
      rw [run_loadObjProperty key hlive.1 h, loadResolved, Process.bind_assoc]
      rfl

/-! ### Properties of `super` -/

/-- A key of `super` that is a number is stored itself; else the value goes through `this` where that comes
through the accumulator. -/
def stored (thisIsLexVar : Bool) : Stored V where
  value rt node x :=
    match node with
    | .superMember (.literal (.number bits _)) => .primitive (.number (rt.integer bits))
    | .superMember (.literal (.name _)) | .superMember .expression => if thisIsLexVar then rt.this else x
    | .binding _ | .member _ | .parenthesized _ => x
  literal m
    | .number bits isInteger => .number (m.integer bits) isInteger
    | .name s => .name s

/-- `this` gets to a register, and perhaps to the accumulator. -/
theorem run_getThis (r : Registers) {o : Evaluation Part Reference JsValue}
    (h : ∀ r', Keeps t r r' → r'.reg t.getTemp.1 = rt.this →
      r'.acc = (if thisIsLexVar then rt.this else r.acc) → run rt rest r' = o) :
    run rt (getThis thisIsLexVar t.getTemp.1 ++ rest) r = o := by
  cases thisIsLexVar with
  | true =>
    show run rt (.ldThis :: .sta t.getTemp.1 :: rest) r = o
    rw [run_ldThis, run_sta]
    exact h _ (Keeps.update not_inUse_getTemp _ _) (reg_update ..) rfl
  | false =>
    show run rt (.movThis t.getTemp.1 :: rest) r = o
    rw [run_movThis]
    exact h _ (Keeps.update not_inUse_getTemp _ _) (reg_update ..) rfl

/-- What `storeSuperProperty` writes, with `this` in a register. -/
theorem run_storeSuperProperty {obj : ℕ} {key : Operand} {r' : Registers} {x k : JsValue}
    {F : Evaluation Part Reference JsValue} (hkeeps : Keeps t r r') (hobj : r'.reg obj = rt.this)
    (hkey : r'.operand key = k) (hacc : r'.acc = x)
    (h : ∀ r', Keeps t r r' → r'.acc = x → run rt rest r' = F) :
    run rt (.stSuper obj key :: rest) r' = storeResolved rt vars x (.property true rt.this k) >>= fun _ => F := by
  rw [run_stSuper, hobj, hkey, hacc, h r' hkeeps hacc, storeResolved, Process.bind_assoc]

theorem run_setValue {lref : LReference V} {g : JsValue} {res : Resolved V} (hvars : vars.Lawful)
    (ht : t.WellFormed) (hlive : lref.Live t) (hholds : lref.Holds rt g r res)
    {F : Evaluation Part Reference JsValue}
    (h : ∀ r', Keeps t r r' → r'.acc = (stored thisIsLexVar).value rt lref.node r.acc → run rt rest r' = F) :
    run rt (setValue vars thisIsLexVar lref t ++ rest) r =
      storeResolved rt vars ((stored thisIsLexVar).value rt lref.node r.acc)
        ((stored thisIsLexVar).target rt.toMachine lref.node res) >>= fun _ => F := by
  unfold LReference.Live at hlive
  rw [setValue]
  cases res with
  | binding v =>
    have hnode : lref.node = .binding v := hholds
    rw [hnode] at h ⊢
    simp only []
    rw [hvars.run_store, h r (Keeps.refl t r) rfl]
    rfl
  | property isSuper base k =>
    obtain ⟨key, rfl, hrest⟩ := hholds
    cases isSuper with
    | false =>
      obtain ⟨hnode, rfl⟩ := hrest
      rw [hnode] at hlive h ⊢
      simp only []
      rw [run_storeObjProperty key ht hlive.1 h]
      exact (Process.bind_assoc (rt.property false _ _) _ _).symm
    | true =>
      obtain ⟨hnode, rfl, -⟩ := hrest
      rw [hnode] at hlive h ⊢
      simp only []
      rw [List.append_assoc]
      refine run_getThis r fun r₁ hr₁ hthis hacc => ?_
      cases key with
      | expression => exact run_storeSuperProperty hr₁ hthis (hr₁ _ (hlive.2 rfl)) hacc h
      | literal key =>
        cases key with
        | name s => exact run_storeSuperProperty hr₁ hthis rfl hacc h
        | number bits isInteger =>
          show run rt (.ldInteger bits :: .sta t.getTemp.2.getTemp.1 ::
            .stSuper t.getTemp.1 (.register t.getTemp.2.getTemp.1) :: rest) r₁ = _
          rw [run_ldInteger, run_sta]
          have hprop : ¬ t.InUse t.getTemp.2.getTemp.1 := fun hk => hk.getTemp.ne_getTemp rfl
          refine run_storeSuperProperty (hr₁.trans (Keeps.update hprop _ _)) ?_ (reg_update ..) rfl h
          exact (Function.update_of_ne ht.inUse_getTemp.ne_getTemp ..).trans hthis

/-- A property of `super` is read from any value. -/
theorem lawful (hvars : vars.Lawful) :
    (code vars thisIsLexVar).Lawful vars (stored thisIsLexVar) fun _ _ => True where
  create_wellFormed target _ ht := generateLReference_wellFormed target ht
  create_inUse target _ _ _ hk := generateLReference_inUse target hk
  create_live target _ ht := generateLReference_live target ht
  create_apart target _ _ _ hk := generateLReference_apart target hk
  create_node := generateLReference_node
  release_inUse hk hks := inUse_freeTemps hk hks
  release_wellFormed ht hk := wellFormed_freeTemps ht (by simp) (by simpa using hk)
  stored_value rt node x h := by
    cases node with
    | superMember key => exact absurd rfl (h key)
    | binding v | member key | parenthesized t => rfl
  run_create rt target t r ht :=
    ⟨r.reg t.getTemp.1, trivial, fun h => run_generateLReference target r ht h⟩
  run_get _ hlive hholds _ _ h := run_getValue hvars hlive hholds h
  run_set ht hlive _ hholds _ _ h := run_setValue hvars ht hlive hholds h

end Ts2panda

end ArkTs2abc.References
