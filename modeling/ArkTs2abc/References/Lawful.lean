import ArkTs2abc.References.Code

/-!
# What references do

What the code of `LReference` does, in terms of the code behind it: the parts of the target are in registers
that are in use, which other code keeps.

## Main definitions

* `LReference.Holds` — the registers hold the parts of a target.
* `Keeps` — registers in use are kept.
* `LReferenceCode.Lawful` — what a compiler's references do.

## Main results

* `LReference.Holds.of_keeps`, `LReference.Holds.update` — when registers still hold a target.
-/

namespace ArkTs2abc.References

open StructuredCode Conversions
open Ts2panda.PropertyAccess (Temps)

variable {V : Type} {rt : Runtime}

/-- The value of a key in the registers. -/
def keyValue (r : Registers) (prop : ℕ) : Key → JsValue
  | .literal k => .primitive k.value
  | .expression => r.reg prop

/-- The registers hold the parts of the target, and some value where a property of `super` is read from. -/
def LReference.Holds (rt : Runtime) (g : JsValue) (lref : LReference V) (r : Registers) : Resolved V → Prop
  | .binding v => lref.node = .binding v
  | .property isSuper base k => ∃ key, k = keyValue r lref.prop key ∧
    if isSuper then lref.node = .superMember key ∧ base = rt.this ∧ r.reg lref.obj = g
    else lref.node = .member key ∧ base = r.reg lref.obj

/-- The registers of a reference are in use. -/
def LReference.Live (t : Temps) (lref : LReference V) : Prop :=
  match lref.node with
  | .member key | .superMember key => t.InUse lref.obj ∧ (key = .expression → t.InUse lref.prop)
  | .binding _ => True
  | .parenthesized _ => False

/-- Registers in use are kept. -/
def Keeps (t : Temps) (r r' : Registers) : Prop := ∀ k, t.InUse k → r'.reg k = r.reg k

/-- The registers of a reference are others. -/
def LReference.Apart (k : ℕ) (lref : LReference V) : Prop :=
  match lref.node with
  | .member key | .superMember key => lref.obj ≠ k ∧ (key = .expression → lref.prop ≠ k)
  | .binding _ => True
  | .parenthesized _ => False

namespace Keeps

variable {t : Temps} {r r' r'' : Registers}

theorem refl (t : Temps) (r : Registers) : Keeps t r r := fun _ _ => rfl

theorem trans (h : Keeps t r r') (h' : Keeps t r' r'') : Keeps t r r'' := fun k hk =>
  (h' k hk).trans (h k hk)

theorem mono {t' : Temps} (h : Keeps t' r r') (ht : ∀ k, t.InUse k → t'.InUse k) : Keeps t r r' :=
  fun k hk => h k (ht k hk)

theorem update {k : ℕ} (hk : ¬ t.InUse k) (a x : JsValue) : Keeps t r ⟨a, Function.update r.reg k x⟩ := by
  intro k' hk'
  refine Function.update_of_ne ?_ ..
  rintro rfl
  exact hk hk'

theorem behind (rt : Runtime) (part : Part) (v : JsValue) : Keeps t r (r.behind rt part t v) := by
  intro k hk
  exact if_pos hk

theorem acc (a : JsValue) : Keeps t r { r with acc := a } := fun _ _ => rfl

end Keeps

theorem not_inUse_getTemp {t : Temps} : ¬ t.InUse t.getTemp.1 := fun h => h.ne_getTemp rfl

namespace LReference

variable {lref : LReference V} {g : JsValue} {r r' : Registers} {res : Resolved V}

theorem keyValue_congr {key : Key} {prop : ℕ} (h : key = .expression → r'.reg prop = r.reg prop) :
    keyValue r' prop key = keyValue r prop key := by
  cases key with
  | literal k => rfl
  | expression => exact h rfl

theorem Holds.of_keeps {t : Temps} (h : lref.Holds rt g r res) (hlive : lref.Live t) (hkeeps : Keeps t r r') :
    lref.Holds rt g r' res := by
  cases res with
  | binding v => exact h
  | property isSuper base k =>
    obtain ⟨key, rfl, hrest⟩ := h
    unfold Live at hlive
    cases isSuper with
    | true =>
      obtain ⟨hnode, hbase, hg⟩ := hrest
      rw [hnode] at hlive
      exact ⟨key, (keyValue_congr fun hkey => hkeeps _ (hlive.2 hkey)).symm, hnode, hbase,
        (hkeeps _ hlive.1).trans hg⟩
    | false =>
      obtain ⟨hnode, rfl⟩ := hrest
      rw [hnode] at hlive
      exact ⟨key, (keyValue_congr fun hkey => hkeeps _ (hlive.2 hkey)).symm, hnode,
        (hkeeps _ hlive.1).symm⟩

theorem Holds.update {k : ℕ} (h : lref.Holds rt g r res) (hapart : lref.Apart k) (a x : JsValue) :
    lref.Holds rt g ⟨a, Function.update r.reg k x⟩ res := by
  cases res with
  | binding v => exact h
  | property isSuper base key' =>
    obtain ⟨key, rfl, hrest⟩ := h
    unfold Apart at hapart
    have hkey : (key = .expression → lref.prop ≠ k) → keyValue r lref.prop key =
        keyValue ⟨a, Function.update r.reg k x⟩ lref.prop key := fun hprop =>
      (keyValue_congr fun hexp => Function.update_of_ne (hprop hexp) ..).symm
    cases isSuper with
    | true =>
      obtain ⟨hnode, hbase, hg⟩ := hrest
      rw [hnode] at hapart
      exact ⟨key, hkey hapart.2, hnode, hbase, (Function.update_of_ne hapart.1 ..).trans hg⟩
    | false =>
      obtain ⟨hnode, rfl⟩ := hrest
      rw [hnode] at hapart
      exact ⟨key, hkey hapart.2, hnode, (Function.update_of_ne hapart.1 ..).symm⟩

end LReference

/-- What `SetValue` stores, by what is in the accumulator, and under which literal of a property of `super`. -/
structure Stored (V : Type) where
  value : Runtime → Target V → JsValue → JsValue
  literal : Machine → Literal → Literal

/-- The target with another key. -/
def Resolved.withKey (key : JsValue) : Resolved V → Resolved V
  | .binding v => .binding v
  | .property isSuper base _ => .property isSuper base key

/-- Where `SetValue` stores. -/
def Stored.target (stored : Stored V) (m : Machine) (node : Target V) (res : Resolved V) : Resolved V :=
  match node with
  | .superMember (.literal k) => res.withKey (.primitive (stored.literal m k).value)
  | .superMember .expression => res
  | .binding _ | .member _ | .parenthesized _ => res

theorem Stored.target_eq (stored : Stored V) (m : Machine) {node : Target V} (res : Resolved V)
    (h : ∀ k, node ≠ .superMember (.literal k)) : stored.target m node res = res := by
  cases node with
  | superMember key =>
    cases key with
    | literal k => exact absurd rfl (h k)
    | expression => rfl
  | binding v | member key | parenthesized t => rfl

/-- What the references of a compiler do; `superBase` says what a property of `super` is read from. -/
structure LReferenceCode.Lawful (c : LReferenceCode V) (vars : Variables V) (stored : Stored V)
    (superBase : Runtime → JsValue → Prop) : Prop where
  create_wellFormed : ∀ target {t : Temps}, t.WellFormed → (c.create target t).2.2.WellFormed
  create_inUse : ∀ target {t : Temps} {k}, t.WellFormed → t.InUse k → (c.create target t).2.2.InUse k
  create_live : ∀ target {t : Temps}, t.WellFormed → (c.create target t).2.1.Live (c.create target t).2.2
  create_apart : ∀ target {t : Temps} {k}, t.WellFormed → t.InUse k → (c.create target t).2.1.Apart k
  create_node : ∀ target (t : Temps), (c.create target t).2.1.node = target.inner
  release_inUse : ∀ {t : Temps} {k} {ks : List ℕ}, t.InUse k → k ∉ ks → (c.release t ks).InUse k
  release_wellFormed : ∀ {t : Temps} {k}, t.WellFormed → t.InUse k → (c.release t [k]).WellFormed
  stored_value : ∀ rt node x, (∀ key, node ≠ .superMember key) → stored.value rt node x = x
  run_create : ∀ rt target {t : Temps} (r : Registers), t.WellFormed → ∃ g, superBase rt g ∧ ∀ {rest : List Ins}
    {F : Resolved V → Evaluation Part Reference JsValue},
    (∀ r' res, (c.create target t).2.1.Holds rt g r' res → Keeps t r r' → run rt rest r' = F res) →
      run rt ((c.create target t).1 ++ rest) r = evaluateTarget rt target >>= F
  run_get : ∀ {rt} {lref : LReference V} {t : Temps} {r : Registers} {g} {res}, t.WellFormed → lref.Live t →
    lref.Holds rt g r res → ∀ {rest : List Ins} {F : JsValue → Evaluation Part Reference JsValue},
    (∀ r', Keeps t r r' → run rt rest r' = F r'.acc) →
      run rt (c.get lref t ++ rest) r = loadResolved rt vars g res >>= F
  run_set : ∀ {rt} {lref : LReference V} {t : Temps} {r : Registers} {g} {res}, t.WellFormed → lref.Live t →
    superBase rt g → lref.Holds rt g r res → ∀ {rest : List Ins} {F : Evaluation Part Reference JsValue},
    (∀ r', Keeps t r r' → r'.acc = stored.value rt lref.node r.acc → run rt rest r' = F) →
      run rt (c.set lref t ++ rest) r =
        storeResolved rt vars (stored.value rt lref.node r.acc)
          (stored.target rt.toMachine lref.node res) >>= fun _ => F

end ArkTs2abc.References
