import Mathlib
import ArkTs2abc.Ts2panda.PropertyAccess

/-!
# Literal keys

The key of an element access or of a member is a name or an index, chosen by the spelling of the literal.
A plus sign becomes a part of the name unless an index follows it, and an index that goes through an
immediate has only 32 bits there.

## Main definitions

* `getObjAndProp`, `getPropName`, `isValidIndex` — as in the source.
* `deletedKey` — the key that a deletion computes.
* `Denotes` — every operation with a literal key addresses the property of its value.

## Main results

* `literalKey_denotes_iff` — the literals that are addressed right.
-/

namespace ArkTs2abc.Ts2panda.LiteralKeys

open PropertyAccess

/-- The value of a numeric literal. -/
structure Magnitude where
  number : Number
  unsigned : number = .infinity false ∨ ∃ q : ℚ, 0 ≤ q ∧ number = .finite q

/-- A literal in the place of a key, with the sign in front of it. -/
inductive Literal where
  | string (text : String)
  | number (x : Magnitude)
  | plus (x : Magnitude)
  | minus (x : Magnitude)

/-- `MAX_LENGTH`. -/
def maxLength : ℚ := 2 ^ 32 - 1

def isValidIndex (num : Number) : Bool :=
  match num.rational with
  | some value => 0 ≤ value ∧ value < maxLength ∧ value.den = 1
  | none => false

def neg : Number → Number
  | .nan => .nan
  | .infinity negative => .infinity !negative
  | .negativeZero => .finite 0
  | .finite value => if value = 0 then .negativeZero else .finite (-value)

variable {Value Key : Type} (M : Machine Value Key)

/-- The functions of JavaScript between numbers and texts. A number is the key that its text names, the
text of an index is read back, and an immediate of `ldai` is an integer of 32 bits. -/
structure Conversions where
  toString : Number → String
  toNumber : String → Number
  parseFloat : String → Number
  name_toString : ∀ x, M.name (toString x) = M.toPropertyKey (M.number x)
  name_injective : Function.Injective M.name
  toString_neg : ∀ x : Magnitude, x.number ≠ .finite 0 → toString (neg x.number) = "-" ++ toString x.number
  toNumber_toString : ∀ q : ℚ, isValidIndex (.finite q) → toNumber (toString (.finite q)) = .finite q
  parseFloat_toString : ∀ q : ℚ, isValidIndex (.finite q) → parseFloat (toString (.finite q)) ≠ .nan
  exists_integer : ∀ x, ∃ y : Number, y.isInt32 ∧ M.integer x = M.number y
  rational_eq : ∀ x y : Number, isValidIndex x → y.isInt32 →
    M.toPropertyKey (M.number y) = M.toPropertyKey (M.number x) → y.rational = x.rational

variable {M} (C : Conversions M)

/-! ## The functions -/

/-- A text such as that of `a["1"]`. -/
def indexText (prop : String) : PropertyKind :=
  let temp := C.toNumber prop
  if C.parseFloat prop ≠ .nan ∧ temp ≠ .nan ∧ isValidIndex temp ∧ C.toString temp = prop then .number temp
  else .string prop

def numericKey (prop : Number) : PropertyKind :=
  if isValidIndex prop then .number prop else .string (C.toString prop)

/-- The key of an element access. -/
def getObjAndProp : Literal → PropertyKind
  | .string prop => indexText C prop
  | .number prop => numericKey C prop.number
  | .minus temp =>
    if temp.number = .finite 0 then .number temp.number else .string ("-" ++ C.toString temp.number)
  | .plus temp =>
    if isValidIndex temp.number then .number temp.number else .string ("+" ++ C.toString temp.number)

/-- A literal that can be the name of a member. -/
inductive MemberName where
  | string (text : String)
  | number (x : Magnitude)

def getPropName : MemberName → PropertyKind
  | .string propName => indexText C propName
  | .number propName => numericKey C propName.number

def propertyKeyAsString : PropertyKind → String
  | .number propName => C.toString propName
  | .string propName => propName
  -- a computed name
  | .vreg _ => ""

variable (M)

/-- The key in the register of a deletion: a name is loaded as a string, and an index by `ldai`. -/
def deletedKey (s : State Value Key) : PropertyKind → Key
  | .string prop => M.name prop
  | .number prop => M.toPropertyKey (M.integer prop)
  | .vreg propReg => M.toPropertyKey (s.reg propReg)

/-! ## What is addressed -/

/-- `ToPropertyKey` of the value. -/
def Literal.key : Literal → Key
  | .string text => M.name text
  | .number x | .plus x => M.toPropertyKey (M.number x.number)
  | .minus x => M.toPropertyKey (M.number (neg x.number))

def MemberName.literal : MemberName → Literal
  | .string text => .string text
  | .number x => .number x

variable {M}

/-- An element access, of an object or of `super`, and a deletion address the property of the value. -/
structure Denotes (get : Target → Value → Key → Value) (k : Literal) : Prop where
  load : ∀ {t : Temps} {obj : VReg}, t.InUse obj → ∀ s,
    (exec M get (loadObjProperty obj (getObjAndProp C k) t).1 s).accesses =
      s.accesses ++ [Access.load .object (s.reg obj) (k.key M)]
  store : ∀ {t : Temps} {obj : VReg}, t.WellFormed → t.InUse obj → ∀ s,
    (exec M get (storeObjProperty obj (getObjAndProp C k) t).1 s).accesses =
      s.accesses ++ [Access.store .object (s.reg obj) (k.key M) s.acc]
  loadSuper : ∀ {t : Temps} {obj : VReg}, t.InUse obj → ∀ s,
    (exec M get (loadSuperProperty obj (getObjAndProp C k) t).1 s).accesses =
      s.accesses ++ [Access.load .super (s.reg obj) (k.key M)]
  storeSuper : ∀ {t : Temps} {obj : VReg}, t.InUse obj → ∀ s, ∃ value,
    (exec M get (storeSuperProperty obj (getObjAndProp C k) t).1 s).accesses =
      s.accesses ++ [Access.store .super (s.reg obj) (k.key M) value]
  delete : ∀ s, deletedKey M s (getObjAndProp C k) = k.key M
  /-- A member is defined by a store, or by its name in a buffer or in an accumulator. -/
  define : ∀ n : MemberName, n.literal = k → ∀ {t : Temps} {obj : VReg}, t.WellFormed → t.InUse obj →
    ∀ nameSetting s, (exec M get (storeOwnProperty obj (getPropName C n) nameSetting t).1 s).accesses =
      s.accesses ++ [Access.store .own (s.reg obj) (k.key M) s.acc] ∧
    M.name (propertyKeyAsString C (getPropName C n)) = k.key M

/-- An index that does not fit into an immediate, in one of its spellings. -/
def LargeIndex (k : Literal) : Prop :=
  ∃ q : ℚ, isValidIndex (.finite q) ∧ maxInt < q ∧
    (k = .string (C.toString (.finite q)) ∨ ∃ x, x.number = .finite q ∧ (k = .number x ∨ k = .plus x))

/-- The key is an index or a name, as which it is the property meant. -/
def Chosen (key : Key) (prop : PropertyKind) : Prop :=
  (∃ x, prop = .number x ∧ isValidIndex x ∧ M.toPropertyKey (M.number x) = key) ∨
    ∃ name, prop = .string name ∧ M.name name = key

/-! ## The choice of the key -/

section Choice

variable {C} {prop : PropertyKind} {key : Key} {get : Target → Value → Key → Value} {k : Literal}

theorem chosen_indexText (text : String) : Chosen (M := M) (M.name text) (indexText C text) := by
  simp only [indexText]
  split_ifs with h
  · obtain ⟨-, -, hvalid, htext⟩ := h
    exact .inl ⟨_, rfl, hvalid, by rw [← C.name_toString, htext]⟩
  · exact .inr ⟨text, rfl, rfl⟩

theorem chosen_numericKey (x : Number) :
    Chosen (M := M) (M.toPropertyKey (M.number x)) (numericKey C x) := by
  unfold numericKey
  split_ifs with h
  · exact .inl ⟨x, rfl, h, rfl⟩
  · exact .inr ⟨_, rfl, C.name_toString x⟩

theorem chosen_getObjAndProp (hplus : ∀ x, k = .plus x → isValidIndex x.number) :
    Chosen (M := M) (k.key M) (getObjAndProp C k) := by
  cases k with
  | string text => exact chosen_indexText text
  | number x => exact chosen_numericKey x.number
  | plus x =>
    have hvalid := hplus x rfl
    rw [getObjAndProp, if_pos hvalid]
    exact .inl ⟨_, rfl, hvalid, rfl⟩
  | minus x =>
    rw [getObjAndProp]
    split_ifs with hzero
    · refine .inl ⟨_, rfl, ?_, ?_⟩
      · rw [hzero]
        decide +kernel
      · have hsign := M.toPropertyKey_withoutSign .negativeZero
        simpa [Literal.key, neg, hzero, Number.withoutSign] using hsign
    · exact .inr ⟨_, rfl, by rw [← C.toString_neg x hzero, C.name_toString]; rfl⟩

theorem Chosen.indexedKey_eq (h : Chosen (M := M) key prop) (s : State Value Key) :
    indexedKey M s prop = key := by
  rcases h with ⟨x, rfl, hvalid, rfl⟩ | ⟨name, rfl, rfl⟩
  · refine (indexedKey_eq_iff M .object (by simp) (.number x) s).mpr fun _ hneg => ?_
    unfold isValidIndex at hvalid
    unfold Number.isNegative at hneg
    cases hx : x.rational with
    | none => simp [hx] at hneg
    | some value =>
      simp only [hx, decide_eq_true_eq] at hvalid hneg
      exact absurd hvalid.1 (not_le.mpr hneg)
  · rfl

theorem integer_eq_iff (C : Conversions M) {x : Number} (h : isValidIndex x) :
    M.toPropertyKey (M.integer x) = M.toPropertyKey (M.number x) ↔ x.isInt32 := by
  constructor
  · intro heq
    obtain ⟨y, hy, hinteger⟩ := C.exists_integer x
    have hrational := C.rational_eq x y h hy (hinteger ▸ heq)
    unfold Number.isInt32 at hy ⊢
    rwa [← hrational]
  · intro hx
    rw [M.integer_eq x hx, M.toPropertyKey_withoutSign]

theorem Chosen.superKey_eq (h : Chosen (M := M) key prop) (hint : ∀ x, prop = .number x → x.isInt32)
    (s : State Value Key) : superKey M s prop = key := by
  rcases h with ⟨x, rfl, hvalid, rfl⟩ | ⟨name, rfl, rfl⟩
  · rw [superKey, M.integer_eq x (hint x rfl), M.toPropertyKey_withoutSign]
  · rfl

theorem isInt32_or_large {x : Number} (h : isValidIndex x) :
    x.isInt32 ∨ ∃ q, x = .finite q ∧ maxInt < q := by
  unfold isValidIndex at h
  unfold Number.isInt32
  cases x with
  | nan => simp [Number.rational] at h
  | infinity negative => simp [Number.rational] at h
  | negativeZero => exact .inl (by decide +kernel)
  | finite q =>
    simp only [Number.rational, decide_eq_true_eq] at h ⊢
    rcases lt_or_ge maxInt q with hlarge | hsmall
    · exact .inr ⟨q, rfl, hlarge⟩
    · exact .inl ⟨h.2.2, by linarith, hsmall⟩

/-- An index that is chosen fits into an immediate unless the literal is a large one. -/
theorem isInt32_of_chosen (hlarge : ¬ LargeIndex C k) {x : Number} (h : getObjAndProp C k = .number x) :
    x.isInt32 := by
  have hspelled (hvalid : isValidIndex x) (hk : ∀ q, x = .finite q → k = .string (C.toString x) ∨
      ∃ y : Magnitude, y.number = x ∧ (k = .number y ∨ k = .plus y)) : x.isInt32 := by
    rcases isInt32_or_large hvalid with hint | ⟨q, rfl, hq⟩
    · exact hint
    · exact absurd ⟨q, hvalid, hq, hk q rfl⟩ hlarge
  cases k with
  | string text =>
    simp only [getObjAndProp, indexText] at h
    split_ifs at h with hcond
    cases h
    exact hspelled hcond.2.2.1 fun _ _ => .inl (by rw [hcond.2.2.2])
  | number y =>
    simp only [getObjAndProp, numericKey] at h
    split_ifs at h with hvalid
    cases h
    exact hspelled hvalid fun _ _ => .inr ⟨y, rfl, .inl rfl⟩
  | plus y =>
    simp only [getObjAndProp] at h
    split_ifs at h with hvalid
    cases h
    exact hspelled hvalid fun _ _ => .inr ⟨y, rfl, .inr rfl⟩
  | minus y =>
    simp only [getObjAndProp] at h
    split_ifs at h with hzero
    cases h
    rw [hzero]
    decide +kernel

theorem getObjAndProp_of_large {q : ℚ} (hvalid : isValidIndex (.finite q))
    (hk : k = .string (C.toString (.finite q)) ∨ ∃ x, x.number = .finite q ∧ (k = .number x ∨ k = .plus x)) :
    getObjAndProp C k = .number (.finite q) ∧ k.key M = M.toPropertyKey (M.number (.finite q)) := by
  rcases hk with rfl | ⟨x, hx, rfl | rfl⟩
  · refine ⟨?_, C.name_toString _⟩
    simp [getObjAndProp, indexText, C.toNumber_toString q hvalid, C.parseFloat_toString q hvalid, hvalid]
  · simp [getObjAndProp, numericKey, Literal.key, hx, hvalid]
  · simp [getObjAndProp, Literal.key, hx, hvalid]

theorem plus_ne (s : String) : "+" ++ s ≠ s := by
  intro h
  have hlength := congrArg String.length h
  simp at hlength

/-- The literals that are addressed right: no plus before a number that is no index, and no index that
does not fit into an immediate. -/
theorem literalKey_denotes_iff (C : Conversions M) (get : Target → Value → Key → Value) (s₀ : State Value Key)
    (k : Literal) : Denotes C get k ↔
      (∀ x, k = .plus x → isValidIndex x.number) ∧ ¬ LargeIndex C k := by
  constructor
  · intro h
    constructor
    · rintro x rfl
      by_contra hvalid
      have hdelete := h.delete s₀
      rw [getObjAndProp, if_neg hvalid, deletedKey, Literal.key, ← C.name_toString] at hdelete
      exact plus_ne _ (C.name_injective hdelete)
    · rintro ⟨q, hvalid, hq, hk⟩
      obtain ⟨hprop, hkey⟩ := getObjAndProp_of_large hvalid hk
      have hdelete := h.delete s₀
      rw [hprop, hkey, deletedKey, integer_eq_iff C hvalid] at hdelete
      simp only [Number.isInt32, Number.rational, decide_eq_true_eq] at hdelete
      exact absurd hdelete.2.2 (not_le.mpr hq)
  · rintro ⟨hplus, hlarge⟩
    have hchosen := chosen_getObjAndProp (C := C) hplus
    have hsuper := hchosen.superKey_eq fun x hx => isInt32_of_chosen hlarge hx
    constructor
    · intro t obj hobj s
      rw [loadObjProperty_accesses M get hobj, hchosen.indexedKey_eq]
    · intro t obj ht hobj s
      rw [storeObjProperty_accesses M get ht hobj, hchosen.indexedKey_eq]
    · intro t obj hobj s
      rw [loadSuperProperty_accesses M get hobj, hsuper]
    · intro t obj hobj s
      exact ⟨_, by rw [storeSuperProperty_accesses M get hobj, hsuper]⟩
    · intro s
      have h := hsuper s
      rcases hchosen with ⟨x, hx, -, -⟩ | ⟨name, hname, -⟩
      · rwa [hx] at h ⊢
      · rwa [hname] at h ⊢
    · rintro n rfl t obj ht hobj nameSetting s
      have hn : getPropName C n = getObjAndProp C n.literal := by cases n <;> rfl
      rw [hn, storeOwnProperty_accesses M get ht hobj, hchosen.indexedKey_eq]
      refine ⟨rfl, ?_⟩
      rcases hchosen with ⟨x, hx, -, hkey⟩ | ⟨name, hname, hkey⟩
      · rw [hx, ← hkey]
        exact C.name_toString x
      · rw [hname, ← hkey]
        rfl

end Choice

/-! ## An example -/

/-- The texts of integers are their own, those of the numbers between them are made up. -/
def text : Number → String
  | .nan => "NaN"
  | .infinity negative => if negative then "-Infinity" else "Infinity"
  | .negativeZero => "0"
  | .finite q => if q.den = 1 then Int.repr q.num else Int.repr q.num ++ "/" ++ Nat.repr q.den

def wrapped (x : Number) : Number :=
  match x.rational with
  | some q => .finite (q.num.bmod (2 ^ 32))
  | none => .finite 0

theorem repr_neg {n : ℤ} (h : 0 < n) : Int.repr (-n) = "-" ++ Int.repr n := by
  obtain ⟨m, rfl⟩ := Int.eq_succ_of_zero_lt h
  rfl

theorem text_eq {x : Number} {q : ℚ} (h : x.rational = some q) (hq : q.den = 1) :
    text x = Int.repr q.num := by
  cases x with
  | nan => simp [Number.rational] at h
  | infinity negative => simp [Number.rational] at h
  | negativeZero =>
    cases h
    rfl
  | finite q' =>
    cases h
    exact if_pos hq

theorem finite_num {q : ℚ} (h : q.den = 1) : Number.finite q.num = .finite q :=
  congrArg Number.finite (Rat.coe_int_num_of_den_eq_one h)

def integers : Machine Number String where
  number x := x
  toPropertyKey := text
  name s := s
  integer := wrapped
  index := text
  toPropertyKey_withoutSign x := by
    cases x <;> rfl
  integer_eq x h := by
    cases x with
    | nan => exact absurd h (by decide)
    | infinity negative => exact absurd h (by simp [Number.isInt32, Number.rational])
    | negativeZero => rfl
    | finite q =>
      simp only [Number.isInt32, Number.rational, decide_eq_true_eq] at h
      obtain ⟨hden, hlow, hhigh⟩ := h
      rw [← Rat.coe_int_num_of_den_eq_one hden] at hlow hhigh
      have hlow' : -2147483648 ≤ q.num := by exact_mod_cast (by linarith : (-2147483648 : ℚ) ≤ q.num)
      have hhigh' : q.num ≤ 2147483647 := by exact_mod_cast (by linarith : (q.num : ℚ) ≤ 2147483647)
      have hnum : q.num.bmod (2 ^ 32) = q.num := Int.bmod_eq_of_le (by omega) (by omega)
      simp only [wrapped, Number.rational, hnum]
      exact finite_num hden
  index_eq _ _ _ := rfl

def conversions : Conversions integers where
  toString := text
  toNumber s := match s.toInt? with
    | some n => .finite n
    | none => .nan
  parseFloat s := match s.toInt? with
    | some n => .finite n
    | none => .nan
  name_toString _ := rfl
  name_injective _ _ h := h
  toString_neg x hx := by
    rcases x.unsigned with h | ⟨q, hq, h⟩
    · rw [h]
      decide
    · rw [h] at hx ⊢
      have hpos : 0 < q.num := Rat.num_pos.mpr (lt_of_le_of_ne hq fun h => hx (by rw [← h]))
      have hne : q ≠ 0 := fun h => hx (by rw [h])
      simp only [neg, hne, if_false, text, Rat.neg_den, Rat.neg_num, repr_neg hpos]
      split_ifs <;> simp [String.append_assoc]
  toNumber_toString q h := by
    simp only [isValidIndex, Number.rational, decide_eq_true_eq] at h
    simp [text, h.2.2, finite_num]
  parseFloat_toString q h := by
    simp only [isValidIndex, Number.rational, decide_eq_true_eq] at h
    simp [text, h.2.2]
  exists_integer x := by
    refine ⟨wrapped x, ?_, rfl⟩
    unfold wrapped
    split
    next q _ =>
      have hlow : -2 ^ 31 ≤ q.num.bmod (2 ^ 32) := Int.le_bmod (by decide)
      have hhigh : q.num.bmod (2 ^ 32) < 2 ^ 31 := Int.bmod_lt (by decide)
      simp only [Number.isInt32, Number.rational, Rat.den_intCast, decide_eq_true_eq, true_and]
      constructor
      · exact_mod_cast hlow
      · exact_mod_cast Int.le_sub_one_of_lt hhigh
    next => decide +kernel
  rational_eq x y hx hy h := by
    unfold isValidIndex at hx
    unfold Number.isInt32 at hy
    cases hp : x.rational with
    | none => simp [hp] at hx
    | some p =>
      cases hq : y.rational with
      | none => simp [hq] at hy
      | some q =>
        simp only [hp, hq, decide_eq_true_eq] at hx hy
        have hnum : Int.repr q.num = Int.repr p.num := by
          rw [← text_eq hq hy.1, ← text_eq hp hx.2.2]
          exact h
        have hden : q.den = p.den := hy.1.trans hx.2.2.symm
        exact congrArg some (Rat.ext (Int.repr_injective hnum) hden)

/-- The sign is taken for a part of the name. -/
theorem plus_named : ¬ Denotes conversions (fun _ _ _ => .nan)
    (.plus ⟨.finite 4294967295, .inr ⟨_, by norm_num, rfl⟩⟩) := by
  intro h
  have hdelete := h.delete ⟨.nan, fun _ => .nan, []⟩
  exact absurd hdelete (by decide +kernel)

end ArkTs2abc.Ts2panda.LiteralKeys
