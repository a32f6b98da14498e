import Mathlib.Data.Rat.Lemmas
import Mathlib.Algebra.Order.Ring.Rat
import Mathlib.Tactic.Common
import Mathlib.Tactic.Linarith

/-!
# Property access

The functions that load a property or store the accumulator in one. A key is a name, a number or a register.
A number goes into the instruction if it is a small integer, and through the accumulator into a register
else; there the value to be stored has to be saved.

What the instructions do is not part of the sources: they are run on a `Machine`, which says what an
immediate stands for.

## Main definitions

* `Temps` — the temporary registers of the generator.
* `loadObjProperty`, `storeObjProperty`, `storeOwnProperty`, `loadSuperProperty`, `storeSuperProperty`.
* `exec` — straight-line code, with the accesses it makes.
* `KeepsValue` — the stores that do what they should.

## Main results

* `storesValue_iff` — what is stored, and that loads and stores access the same property.
-/

namespace ArkTs2abc.Ts2panda.PropertyAccess

/-- The values of type number; the finite ones are taken to be rational. -/
inductive Number where
  | nan
  | infinity (negative : Bool)
  | negativeZero
  | finite (value : ℚ)
  deriving DecidableEq

namespace Number

/-- The rational number that is meant, if there is one. -/
def rational : Number → Option ℚ
  | negativeZero => some 0
  | finite value => some value
  | _ => none

/-- `Number.isSafeInteger`. -/
def isSafeInteger (x : Number) : Bool :=
  match x.rational with
  | some value => value.den = 1 ∧ |value| ≤ 2 ^ 53 - 1
  | none => false

/-- `IsValidInt32`, for a number without a fraction. -/
def isInt32 (x : Number) : Bool :=
  match x.rational with
  | some value => value.den = 1 ∧ -2 ^ 31 ≤ value ∧ value ≤ 2 ^ 31 - 1
  | none => false

def isNegative (x : Number) : Bool :=
  match x.rational with
  | some value => value < 0
  | none => false

/-- The number that an integer of the same value is. -/
def withoutSign : Number → Number
  | negativeZero => finite 0
  | x => x

end Number

/-- `MAX_INT`. -/
def maxInt : ℚ := 2 ^ 31 - 1

def isInteger (value : Number) : Bool :=
  if !value.isSafeInteger then false
  else if ∃ q ∈ value.rational, maxInt < q then false
  else true

abbrev VReg := ℕ

inductive PropertyKind where
  | vreg (r : VReg)
  | string (s : String)
  | number (x : Number)

inductive Insn where
  | loadAccumulatorInt (value : Number)
  | loadAccumulatorFloat (value : Number)
  | loadAccumulator (r : VReg)
  | storeAccumulator (r : VReg)
  | loadObjByName (obj : VReg) (key : String)
  | loadObjByIndex (obj : VReg) (index : Number)
  | loadObjByValue (obj prop : VReg)
  | storeObjByName (obj : VReg) (key : String)
  | storeObjByIndex (obj : VReg) (index : Number)
  | storeObjByValue (obj prop : VReg)
  | storeOwnByName (obj : VReg) (key : String) (nameSetting : Bool)
  | storeOwnByIndex (obj : VReg) (index : Number)
  | storeOwnByValue (obj prop : VReg) (nameSetting : Bool)
  | ldSuperByName (obj : VReg) (key : String)
  | ldSuperByValue (obj prop : VReg)
  | stSuperByName (obj : VReg) (key : String)
  | stSuperByValue (obj prop : VReg)

/-! ## Temporary registers -/

/-- The registers made so far, and those of them that are free. -/
structure Temps where
  free : List VReg
  total : ℕ

namespace Temps

def getTemp (t : Temps) : VReg × Temps :=
  match t.free with
  | r :: free => (r, { t with free })
  | [] => (t.total, { t with total := t.total + 1 })

def freeTemps (t : Temps) (temps : List VReg) : Temps := { t with free := temps ++ t.free }

/-- The register was made and is not free. -/
def InUse (t : Temps) (r : VReg) : Prop := r < t.total ∧ r ∉ t.free

/-- No register is free twice. -/
structure WellFormed (t : Temps) : Prop where
  nodup : t.free.Nodup
  lt : ∀ r ∈ t.free, r < t.total

end Temps

/-! ## The functions of `PandaGen` -/

def loadObjProperty (obj : VReg) (prop : PropertyKind) (t : Temps) : List Insn × Temps :=
  match prop with
  | .number x =>
    if isInteger x then ([.loadObjByIndex obj x], t)
    else
      let (propReg, t) := t.getTemp
      ([.loadAccumulatorFloat x, .storeAccumulator propReg, .loadObjByValue obj propReg],
        t.freeTemps [propReg])
  | .string s => ([.loadObjByName obj s], t)
  | .vreg r => ([.loadObjByValue obj r], t)

/-- The instructions that bring a number into a register and keep the accumulator, before another one. -/
def withPropReg (x : Number) (t : Temps) (insn : VReg → Insn) : List Insn × Temps :=
  let (valueReg, t) := t.getTemp
  let (propReg, t) := t.getTemp
  ([.storeAccumulator valueReg, .loadAccumulatorFloat x, .storeAccumulator propReg,
    .loadAccumulator valueReg, insn propReg], t.freeTemps [valueReg, propReg])

def storeObjProperty (obj : VReg) (prop : PropertyKind) (t : Temps) : List Insn × Temps :=
  match prop with
  | .number x =>
    if isInteger x then ([.storeObjByIndex obj x], t)
    else withPropReg x t fun propReg => .storeObjByValue obj propReg
  | .string s => ([.storeObjByName obj s], t)
  | .vreg r => ([.storeObjByValue obj r], t)

def storeOwnProperty (obj : VReg) (prop : PropertyKind) (nameSetting : Bool) (t : Temps) :
    List Insn × Temps :=
  match prop with
  | .number x =>
    if isInteger x then ([.storeOwnByIndex obj x], t)
    else withPropReg x t fun propReg => .storeOwnByValue obj propReg nameSetting
  | .string s => ([.storeOwnByName obj s nameSetting], t)
  | .vreg r => ([.storeOwnByValue obj r nameSetting], t)

def loadSuperProperty (obj : VReg) (prop : PropertyKind) (t : Temps) : List Insn × Temps :=
  match prop with
  | .string s => ([.ldSuperByName obj s], t)
  | .number x =>
    let (propReg, t) := t.getTemp
    ([.loadAccumulatorInt x, .storeAccumulator propReg, .ldSuperByValue obj propReg], t.freeTemps [propReg])
  | .vreg r => ([.ldSuperByValue obj r], t)

def storeSuperProperty (obj : VReg) (prop : PropertyKind) (t : Temps) : List Insn × Temps :=
  match prop with
  | .string s => ([.stSuperByName obj s], t)
  | .number x =>
    let (propReg, t) := t.getTemp
    ([.loadAccumulatorInt x, .storeAccumulator propReg, .stSuperByValue obj propReg], t.freeTemps [propReg])
  | .vreg r => ([.stSuperByValue obj r], t)

/-! ## Running the code -/

/-- What the instructions are run on: values and keys, and what an immediate stands for. One of `ldai` is
an integer of 32 bits; one of the instructions with an index is such an integer that is not negative. -/
structure Machine (Value Key : Type) where
  number : Number → Value
  toPropertyKey : Value → Key
  name : String → Key
  /-- The value that `ldai` loads. -/
  integer : Number → Value
  /-- The property that an index stands for. -/
  index : Number → Key
  /-- Zero has one name. -/
  toPropertyKey_withoutSign : ∀ x : Number,
    toPropertyKey (number x.withoutSign) = toPropertyKey (number x)
  integer_eq : ∀ x : Number, x.isInt32 → integer x = number x.withoutSign
  index_eq : ∀ x : Number, x.isInt32 → x.isNegative = false → index x = toPropertyKey (number x)

/-- Which property is accessed: that of an object, its own one, or the one `super` finds. -/
inductive Target where
  | object
  | own
  | super
  deriving DecidableEq

inductive Access (Value Key : Type) where
  | load (target : Target) (obj : Value) (key : Key)
  | store (target : Target) (obj : Value) (key : Key) (value : Value)

structure State (Value Key : Type) where
  acc : Value
  reg : VReg → Value
  accesses : List (Access Value Key)

section Run

variable {Value Key : Type} (M : Machine Value Key) (get : Target → Value → Key → Value)

namespace State

def load (s : State Value Key) (target : Target) (obj : VReg) (key : Key) : State Value Key :=
  { s with acc := get target (s.reg obj) key, accesses := s.accesses ++ [Access.load target (s.reg obj) key] }

def store (s : State Value Key) (target : Target) (obj : VReg) (key : Key) : State Value Key :=
  { s with accesses := s.accesses ++ [Access.store target (s.reg obj) key s.acc] }

end State

def step (s : State Value Key) : Insn → State Value Key
  | .loadAccumulatorInt x => { s with acc := M.integer x }
  | .loadAccumulatorFloat x => { s with acc := M.number x }
  | .loadAccumulator r => { s with acc := s.reg r }
  | .storeAccumulator r => { s with reg := Function.update s.reg r s.acc }
  | .loadObjByName obj key => s.load get .object obj (M.name key)
  | .loadObjByIndex obj x => s.load get .object obj (M.index x)
  | .loadObjByValue obj prop => s.load get .object obj (M.toPropertyKey (s.reg prop))
  | .storeObjByName obj key => s.store .object obj (M.name key)
  | .storeObjByIndex obj x => s.store .object obj (M.index x)
  | .storeObjByValue obj prop => s.store .object obj (M.toPropertyKey (s.reg prop))
  | .storeOwnByName obj key _ => s.store .own obj (M.name key)
  | .storeOwnByIndex obj x => s.store .own obj (M.index x)
  | .storeOwnByValue obj prop _ => s.store .own obj (M.toPropertyKey (s.reg prop))
  | .ldSuperByName obj key => s.load get .super obj (M.name key)
  | .ldSuperByValue obj prop => s.load get .super obj (M.toPropertyKey (s.reg prop))
  | .stSuperByName obj key => s.store .super obj (M.name key)
  | .stSuperByValue obj prop => s.store .super obj (M.toPropertyKey (s.reg prop))

def exec (code : List Insn) (s : State Value Key) : State Value Key := code.foldl (step M get) s

end Run

/-! ## What should be accessed -/

def storeProperty (target : Target) (obj : VReg) (prop : PropertyKind) (nameSetting : Bool) (t : Temps) :
    List Insn × Temps :=
  match target with
  | .object => storeObjProperty obj prop t
  | .own => storeOwnProperty obj prop nameSetting t
  | .super => storeSuperProperty obj prop t

/-- An own property is loaded as any other one. -/
def loadProperty (target : Target) (obj : VReg) (prop : PropertyKind) (t : Temps) : List Insn × Temps :=
  match target with
  | .super => loadSuperProperty obj prop t
  | _ => loadObjProperty obj prop t

def Target.loaded : Target → Target
  | .super => .super
  | _ => .object

section Spec

variable {Value Key : Type} (M : Machine Value Key) (get : Target → Value → Key → Value)

def keyOf (s : State Value Key) : PropertyKind → Key
  | .vreg r => M.toPropertyKey (s.reg r)
  | .string name => M.name name
  | .number x => M.toPropertyKey (M.number x)

/-- The code makes one access: the accumulator is stored under the key. -/
def StoresValue (target : Target) (obj : VReg) (prop : PropertyKind) (nameSetting : Bool) (t : Temps)
    (s : State Value Key) : Prop :=
  (exec M get (storeProperty target obj prop nameSetting t).1 s).accesses =
    s.accesses ++ [Access.store target (s.reg obj) (keyOf M s prop) s.acc]

/-- The code for a load and that for a store access the same property. -/
def SameProperty (target : Target) (obj : VReg) (prop : PropertyKind) (nameSetting : Bool) (t : Temps)
    (s : State Value Key) : Prop :=
  ∃ key value,
    (exec M get (storeProperty target obj prop nameSetting t).1 s).accesses =
      s.accesses ++ [Access.store target (s.reg obj) key value] ∧
    (exec M get (loadProperty target obj prop t).1 s).accesses =
      s.accesses ++ [Access.load target.loaded (s.reg obj) key]

/-- No number is a key of `super`, unless the accumulator holds just that number and the immediate stands
for it, and a negative index stands for itself. -/
def KeepsValue (target : Target) (prop : PropertyKind) (acc : Value) : Prop :=
  match prop with
  | .number x =>
    match target with
    | .super =>
      if x.isInt32 then acc = M.number x.withoutSign
      else acc = M.integer x ∧ M.toPropertyKey (M.integer x) = M.toPropertyKey (M.number x)
    | _ => isInteger x → x.isNegative → M.index x = M.toPropertyKey (M.number x)
  | _ => True

end Spec

/-! ## Temporary registers are apart from those in use -/

namespace Temps

variable {t : Temps}

theorem WellFormed.getTemp (h : t.WellFormed) : t.getTemp.2.WellFormed := by
  unfold Temps.getTemp
  split
  next r free hfree =>
    have hnodup := h.nodup
    rw [hfree, List.nodup_cons] at hnodup
    exact ⟨hnodup.2, fun r' hr' => h.lt r' (hfree ▸ List.mem_cons_of_mem r hr')⟩
  next hfree =>
    refine ⟨h.nodup, fun r hr => ?_⟩
    rw [hfree] at hr
    cases hr

theorem WellFormed.inUse_getTemp (h : t.WellFormed) : t.getTemp.2.InUse t.getTemp.1 := by
  unfold Temps.getTemp
  split
  next r free hfree =>
    have hnodup := h.nodup
    rw [hfree, List.nodup_cons] at hnodup
    exact ⟨h.lt r (hfree ▸ List.mem_cons_self), hnodup.1⟩
  next hfree => exact ⟨Nat.lt_succ_self _, by simp [hfree]⟩

theorem InUse.getTemp {r : VReg} (h : t.InUse r) : t.getTemp.2.InUse r := by
  obtain ⟨hlt, hfree⟩ := h
  unfold Temps.getTemp
  split
  next r' free heq => exact ⟨hlt, fun hr => hfree (heq ▸ List.mem_cons_of_mem r' hr)⟩
  next => exact ⟨Nat.lt_succ_of_lt hlt, hfree⟩

theorem InUse.ne_getTemp {r : VReg} (h : t.InUse r) : r ≠ t.getTemp.1 := by
  obtain ⟨hlt, hfree⟩ := h
  unfold Temps.getTemp
  split
  next r' free heq =>
    rintro rfl
    exact hfree (heq ▸ List.mem_cons_self)
  next => exact Nat.ne_of_lt hlt

end Temps

/-! ## The code -/

section Code

variable {Value Key : Type} (M : Machine Value Key) (get : Target → Value → Key → Value)

def indexedKey (s : State Value Key) : PropertyKind → Key
  | .number x => if isInteger x then M.index x else M.toPropertyKey (M.number x)
  | prop => keyOf M s prop

def superKey (s : State Value Key) : PropertyKind → Key
  | .number x => M.toPropertyKey (M.integer x)
  | prop => keyOf M s prop

def superValue (s : State Value Key) : PropertyKind → Value
  | .number x => M.integer x
  | _ => s.acc

variable {obj : VReg} {t : Temps}

theorem exec_withPropReg (ht : t.WellFormed) (hobj : t.InUse obj) (x : Number) {insn : VReg → Insn}
    {target : Target}
    (hinsn : ∀ s prop, step M get s (insn prop) = s.store target obj (M.toPropertyKey (s.reg prop)))
    (s : State Value Key) :
    (exec M get (withPropReg x t insn).1 s).accesses =
      s.accesses ++ [Access.store target (s.reg obj) (M.toPropertyKey (M.number x)) s.acc] := by
  have hvalue := hobj.ne_getTemp
  have hprop := hobj.getTemp.ne_getTemp
  have hapart : t.getTemp.1 ≠ t.getTemp.2.getTemp.1 := ht.inUse_getTemp.ne_getTemp
  simp only [exec, withPropReg, List.foldl_cons, List.foldl_nil, hinsn]
  simp [step, State.store, hvalue, hprop, hapart]

theorem storeObjProperty_accesses (ht : t.WellFormed) (hobj : t.InUse obj) (prop : PropertyKind)
    (s : State Value Key) :
    (exec M get (storeObjProperty obj prop t).1 s).accesses =
      s.accesses ++ [Access.store .object (s.reg obj)
        (indexedKey M s prop) s.acc] := by
  cases prop with
  | vreg r => rfl
  | string name => rfl
  | number x =>
    simp only [storeObjProperty, indexedKey]
    split_ifs with h
    · rfl
    · exact exec_withPropReg M get ht hobj x (fun _ _ => rfl) s

theorem storeOwnProperty_accesses (ht : t.WellFormed) (hobj : t.InUse obj) (prop : PropertyKind)
    (nameSetting : Bool) (s : State Value Key) :
    (exec M get (storeOwnProperty obj prop nameSetting t).1 s).accesses =
      s.accesses ++ [Access.store .own (s.reg obj)
        (indexedKey M s prop) s.acc] := by
  cases prop with
  | vreg r => rfl
  | string name => rfl
  | number x =>
    simp only [storeOwnProperty, indexedKey]
    split_ifs with h
    · rfl
    · exact exec_withPropReg M get ht hobj x (fun _ _ => rfl) s

section

variable (hobj : t.InUse obj) (prop : PropertyKind) (s : State Value Key)
include hobj prop s

theorem loadObjProperty_accesses :
    (exec M get (loadObjProperty obj prop t).1 s).accesses =
      s.accesses ++ [Access.load .object (s.reg obj)
        (indexedKey M s prop)] := by
  cases prop with
  | vreg r => rfl
  | string name => rfl
  | number x =>
    simp only [loadObjProperty, indexedKey]
    split_ifs with h
    · rfl
    · simp [exec, step, State.load, hobj.ne_getTemp]

theorem storeSuperProperty_accesses :
    (exec M get (storeSuperProperty obj prop t).1 s).accesses =
      s.accesses ++ [Access.store .super (s.reg obj) (superKey M s prop) (superValue M s prop)] := by
  cases prop with
  | vreg r => rfl
  | string name => rfl
  | number x => simp [exec, storeSuperProperty, superKey, superValue, step, State.store, hobj.ne_getTemp]

theorem loadSuperProperty_accesses :
    (exec M get (loadSuperProperty obj prop t).1 s).accesses =
      s.accesses ++ [Access.load .super (s.reg obj)
        (superKey M s prop)] := by
  cases prop with
  | vreg r => rfl
  | string name => rfl
  | number x => simp [exec, loadSuperProperty, superKey, step, State.load, hobj.ne_getTemp]

end

theorem isInt32_of_isInteger {x : Number} (h : isInteger x = true) (hneg : x.isNegative = false) :
    x.isInt32 = true := by
  unfold isInteger at h
  cases hx : x.rational with
  | none => simp [Number.isSafeInteger, hx] at h
  | some q =>
    simp only [Number.isSafeInteger, Number.isNegative, Number.isInt32, hx, maxInt, Option.mem_some_iff,
      exists_eq_left', Bool.not_eq_true', decide_eq_false_iff_not, decide_eq_true_iff] at h hneg ⊢
    split_ifs at h with hsafe hmax
    have hpos := not_lt.mp hneg
    exact ⟨hsafe.1, by linarith, not_lt.mp hmax⟩

theorem indexedKey_eq_iff (target : Target) (htarget : target ≠ .super) (prop : PropertyKind)
    (s : State Value Key) :
    indexedKey M s prop = keyOf M s prop ↔ KeepsValue M target prop s.acc := by
  cases prop with
  | vreg r => simp [indexedKey, KeepsValue]
  | string name => simp [indexedKey, KeepsValue]
  | number x =>
    have hkeeps : KeepsValue M target (.number x) s.acc ↔
        (isInteger x → x.isNegative → M.index x = M.toPropertyKey (M.number x)) := by
      cases target with
      | super => exact absurd rfl htarget
      | object => rfl
      | own => rfl
    rw [hkeeps, indexedKey, keyOf]
    cases hinteger : isInteger x with
    | false => simp
    | true =>
      cases hneg : x.isNegative with
      | true => simp
      | false => simpa using M.index_eq x (isInt32_of_isInteger hinteger hneg) hneg

theorem superKey_eq_iff (prop : PropertyKind) (s : State Value Key) :
    (superKey M s prop = keyOf M s prop ∧ superValue M s prop = s.acc) ↔
      KeepsValue M .super prop s.acc := by
  cases prop with
  | vreg r => simp [superKey, superValue, KeepsValue]
  | string name => simp [superKey, superValue, KeepsValue]
  | number x =>
    simp only [superKey, superValue, keyOf, KeepsValue]
    by_cases hint : x.isInt32 = true
    · rw [if_pos hint, M.integer_eq x hint, M.toPropertyKey_withoutSign]
      simp [eq_comm]
    · rw [if_neg hint, and_comm, eq_comm]

/-- The value is kept and stored under the key unless a number is a key of `super` or a negative index, and
a load accesses the property that a store does. -/
theorem storesValue_iff {t : Temps} (ht : t.WellFormed) {obj : VReg} (hobj : t.InUse obj) (target : Target)
    (prop : PropertyKind) (nameSetting : Bool) (s : State Value Key) :
    (StoresValue M get target obj prop nameSetting t s ↔ KeepsValue M target prop s.acc) ∧
      SameProperty M get target obj prop nameSetting t s := by
  cases target with
  | object =>
    have hstore := storeObjProperty_accesses M get ht hobj prop s
    refine ⟨?_, _, _, hstore, loadObjProperty_accesses M get hobj prop s⟩
    rw [StoresValue, storeProperty, hstore, ← indexedKey_eq_iff M .object nofun]
    simp
  | own =>
    have hstore := storeOwnProperty_accesses M get ht hobj prop nameSetting s
    refine ⟨?_, _, _, hstore, loadObjProperty_accesses M get hobj prop s⟩
    rw [StoresValue, storeProperty, hstore, ← indexedKey_eq_iff M .own nofun]
    simp
  | super =>
    have hstore := storeSuperProperty_accesses M get hobj prop s
    refine ⟨?_, _, _, hstore, loadSuperProperty_accesses M get hobj prop s⟩
    rw [StoresValue, storeProperty, hstore, ← superKey_eq_iff]
    simp

end Code

/-- A machine on numbers, where a key is a number without its sign if that is zero, or a name. -/
def numbers : Machine Number (Number ⊕ String) where
  number x := x
  toPropertyKey x := .inl x.withoutSign
  name s := .inr s
  integer x := x.withoutSign
  index x := .inl x.withoutSign
  toPropertyKey_withoutSign x := by cases x <;> rfl
  integer_eq _ _ := rfl
  index_eq _ _ _ := rfl

/-- `obj[1.5] = 7`, with the value and the key in two new registers. -/
theorem storesValue_example :
    StoresValue numbers (fun _ _ _ => .nan) .object 0 (.number (.finite (3 / 2))) false ⟨[], 1⟩
      ⟨.finite 7, fun _ => .nan, []⟩ := by
  have ht : Temps.WellFormed ⟨[], 1⟩ := ⟨List.nodup_nil, by simp⟩
  have hobj : Temps.InUse ⟨[], 1⟩ 0 := ⟨Nat.one_pos, by simp⟩
  refine ((storesValue_iff numbers (fun _ _ _ => .nan) ht hobj
    .object (.number (.finite (3 / 2))) false ⟨.finite 7, fun _ => .nan, []⟩).1).mpr ?_
  intro _ hneg
  exact absurd hneg (by decide +kernel)

/-- `super[5] = 7` stores 5. -/
theorem super_index_stored : ¬ StoresValue numbers (fun _ _ _ => .nan) .super 0 (.number (.finite 5)) false
    ⟨[], 1⟩ ⟨.finite 7, fun _ => .nan, []⟩ := by
  intro h
  have hobj : Temps.InUse ⟨[], 1⟩ 0 := ⟨Nat.one_pos, by simp⟩
  have hstore := storeSuperProperty_accesses numbers (fun _ _ _ => .nan) hobj (.number (.finite 5))
    ⟨.finite 7, fun _ => .nan, []⟩
  rw [StoresValue, storeProperty, hstore] at h
  simp [superValue, numbers, Number.withoutSign] at h

end ArkTs2abc.Ts2panda.PropertyAccess
