import Mathlib.Data.List.Perm.Lattice
import Mathlib.Data.Int.Notation
import ArkTs2abc.Es2panda.Checker.UnionType

/-!
# What unions come to

The constituents of the unions that the checker makes, their flags and their values.

## Main definitions

* `Value`, `Meaning`, `Denotes` — the values of types.
* `UnionCondition` — when the types of a list make a proper union, in whatever order.
* `WellCreated` — what is expected of the union of a list.

## Main results

* `wellCreated_iff` — the union is as expected if and only if the condition holds.
-/

namespace Es2panda.Checker

open NestedCalls

/-- The values of JavaScript, objects and symbols by their identity. -/
inductive Value where
  | undefined
  | null
  | boolean (value : Bool)
  | number (value : Number)
  | string (value : List Char)
  | bigint (value : ℤ)
  | symbol (id : ℕ)
  | object (id : ℕ)
  deriving DecidableEq

variable {τ : Type}

/-- What is left open: the numbers that the texts of bigint literals are for, and the values of object
types, array types and enums. -/
structure Meaning (node : τ → TypeNode τ) where
  bigintOf : List Char → ℤ
  members : τ → Value → Prop
  members_array : ∀ t e v, node t = .array e → members t v → ∃ id, v = .object id
  members_object : ∀ t o v, node t = .object o → members t v → ∃ id, v = .object id

/-- A value is one of a type's. -/
inductive Denotes {node : τ → TypeNode τ} (m : Meaning node) : τ → Value → Prop where
  | any {t : τ} (v : Value) (h : node t = .any) : Denotes m t v
  | unknown {t : τ} (v : Value) (h : node t = .unknown) : Denotes m t v
  | void {t : τ} (h : node t = .void) : Denotes m t .undefined
  | null {t : τ} (h : node t = .null) : Denotes m t .null
  | undefined {t : τ} (h : node t = .undefined) : Denotes m t .undefined
  | number {t : τ} (x : Number) (h : node t = .number) : Denotes m t (.number x)
  | string {t : τ} (s : List Char) (h : node t = .string) : Denotes m t (.string s)
  | boolean {t : τ} (b : Bool) (h : node t = .boolean) : Denotes m t (.boolean b)
  | bigint {t : τ} (z : ℤ) (h : node t = .bigint) : Denotes m t (.bigint z)
  | nonPrimitive {t : τ} (id : ℕ) (h : node t = .nonPrimitive) : Denotes m t (.object id)
  | numberLiteral {t : τ} (x : Number) (h : node t = .numberLiteral x) : Denotes m t (.number x)
  | stringLiteral {t : τ} (s : List Char) (h : node t = .stringLiteral s) : Denotes m t (.string s)
  | bigintLiteral {t : τ} {s : List Char} {negative : Bool} (h : node t = .bigintLiteral s negative) :
      Denotes m t (.bigint (if negative then - m.bigintOf s else m.bigintOf s))
  | booleanLiteral {t : τ} (b : Bool) (h : node t = .booleanLiteral b) : Denotes m t (.boolean b)
  | enumLiteral {t : τ} {e : Option ℕ} {v : Value} (h : node t = .enumLiteral e)
      (hv : m.members t v) : Denotes m t v
  | enumType {t : τ} {e : ℕ} {w : EnumValue} {v : Value} (h : node t = .enumType e w)
      (hv : m.members t v) : Denotes m t v
  | array {t e : τ} {v : Value} (h : node t = .array e) (hv : m.members t v) : Denotes m t v
  | object {t : τ} {o : ObjectType τ} {v : Value} (h : node t = .object o) (hv : m.members t v) :
      Denotes m t v
  | union {t c : τ} {cs : List τ} {flags : Finset TypeFlag} {v : Value} (h : node t = .union cs flags)
      (hc : c ∈ cs) (hv : Denotes m c v) : Denotes m t v
  | typeReference {t r : τ} {v : Value} (h : node t = .typeReference (some r)) (hv : Denotes m r v) :
      Denotes m t v

/-- The values of a type by its node. -/
def NodeDenotes {node : τ → TypeNode τ} (m : Meaning node) (t : τ) : TypeNode τ → Value → Prop
  | .any, _ => True
  | .unknown, _ => True
  | .never, _ => False
  | .void, v => v = .undefined
  | .null, v => v = .null
  | .undefined, v => v = .undefined
  | .number, v => ∃ x, v = .number x
  | .string, v => ∃ s, v = .string s
  | .boolean, v => ∃ b, v = .boolean b
  | .bigint, v => ∃ z, v = .bigint z
  | .nonPrimitive, v => ∃ id, v = .object id
  | .numberLiteral x, v => v = .number x
  | .stringLiteral s, v => v = .string s
  | .bigintLiteral s negative, v => v = .bigint (if negative then - m.bigintOf s else m.bigintOf s)
  | .booleanLiteral b, v => v = .boolean b
  | .enumLiteral _, v => m.members t v
  | .enumType _ _, v => m.members t v
  | .array _, v => m.members t v
  | .object _, v => m.members t v
  | .union cs _, v => ∃ c ∈ cs, Denotes m c v
  | .typeReference (some r), v => Denotes m r v
  | .typeReference none, _ => False

theorem denotes_iff {node : τ → TypeNode τ} {m : Meaning node} {t : τ} {v : Value} :
    Denotes m t v ↔ NodeDenotes m t (node t) v := by
  constructor
  · intro h
    cases h <;> simp_all [NodeDenotes]
    exact ⟨_, ‹_›, ‹_›⟩
  · intro h
    generalize hn : node t = n at h
    cases n with
    | union cs flags =>
      obtain ⟨c, hc, hv⟩ := h
      exact .union hn hc hv
    | typeReference r =>
      cases r with
      | none => cases h
      | some r => exact .typeReference hn h
    | any => exact .any v hn
    | unknown => exact .unknown v hn
    | never => cases h
    | void => exact h ▸ .void hn
    | null => exact h ▸ .null hn
    | undefined => exact h ▸ .undefined hn
    | number =>
      obtain ⟨x, rfl⟩ := h
      exact .number x hn
    | string =>
      obtain ⟨x, rfl⟩ := h
      exact .string x hn
    | boolean =>
      obtain ⟨x, rfl⟩ := h
      exact .boolean x hn
    | bigint =>
      obtain ⟨x, rfl⟩ := h
      exact .bigint x hn
    | nonPrimitive =>
      obtain ⟨x, rfl⟩ := h
      exact .nonPrimitive x hn
    | numberLiteral x => exact h ▸ .numberLiteral x hn
    | stringLiteral x => exact h ▸ .stringLiteral x hn
    | bigintLiteral x negative => exact h ▸ .bigintLiteral hn
    | booleanLiteral x => exact h ▸ .booleanLiteral x hn
    | enumLiteral e => exact .enumLiteral hn h
    | enumType e w => exact .enumType hn h
    | array e => exact .array hn h
    | object o => exact .object hn h

/-- A value is one of the values of some of the types. -/
def DenotesSome {node : τ → TypeNode τ} (m : Meaning node) (ts : List τ) (v : Value) : Prop :=
  ∃ t ∈ ts, Denotes m t v

section Flags

variable (node : τ → TypeNode τ) (checked : τ → Bool)

theorem typeFlag_ne_relationChecked (t : TypeNode τ) : t.typeFlag ≠ .relationChecked := by
  cases t <;> simp [TypeNode.typeFlag]

theorem mem_typeFlags {t : τ} {flag : TypeFlag} :
    flag ∈ typeFlags node checked t ↔
      flag = (node t).typeFlag ∨ flag = .relationChecked ∧ checked t = true := by
  unfold typeFlags
  by_cases h : checked t <;> simp [h]

namespace UnionType

variable {ts : List τ}

theorem mem_flagsOf {flag : TypeFlag} :
    flag ∈ flagsOf node checked ts ↔ ∃ t ∈ ts, flag ∈ typeFlags node checked t := by
  induction ts with
  | nil => simp [flagsOf]
  | cons t ts ih => simp [flagsOf, ih]

theorem hasConstituentFlag_new {flag : TypeFlag} (h : flag ≠ .relationChecked) :
    (new node checked ts).hasConstituentFlag flag = true ↔ ∃ t ∈ ts, (node t).typeFlag = flag := by
  simp only [hasConstituentFlag, new, decide_eq_true_eq, mem_flagsOf, mem_typeFlags]
  constructor
  · rintro ⟨t, ht, rfl | ⟨rfl, -⟩⟩
    · exact ⟨t, ht, rfl⟩
    · exact absurd rfl h
  · rintro ⟨t, ht, rfl⟩
    exact ⟨t, ht, .inl rfl⟩

/-- The flag of the primitive type that a literal's values are of. -/
def baseFlag : TypeFlag → Option TypeFlag
  | .numberLiteral => some .number
  | .stringLiteral => some .string
  | .bigintLiteral => some .bigint
  | .booleanLiteral => some .boolean
  | _ => none

/-- A literal type has its base type beside it. -/
def BesideBase (ts : List τ) (t : τ) : Prop :=
  ∃ s ∈ ts, baseFlag (node t).typeFlag = some (node s).typeFlag

variable {t : τ}

theorem isRedundant_new (ht : t ∈ ts) :
    (new node checked ts).isRedundant node t = true ↔ BesideBase node ts t := by
  have hself : ∀ flag, (node t).typeFlag = flag → ∃ s ∈ ts, (node s).typeFlag = flag :=
    fun flag h => ⟨t, ht, h⟩
  simp only [isRedundant, Bool.or_eq_true, Bool.and_eq_true, hasConstituentFlag_new, ne_eq,
    reduceCtorEq, not_false_eq_true, TypeNode.isNumberLiteralType, TypeNode.isStringLiteralType,
    TypeNode.isBigintLiteralType, TypeNode.isBooleanLiteralType, decide_eq_true_eq, BesideBase]
  generalize (node t).typeFlag = flag at hself
  cases flag <;> simp [baseFlag, eq_comm] <;> grind

theorem removeLiterals_eq (redundant : τ → Bool) (ts : List τ) (flags : Finset TypeFlag) :
    removeLiterals node checked redundant ts flags =
      (ts.filter fun t => ¬ redundant t,
        flags \ flagsOf node checked (ts.filter fun t => redundant t)) := by
  induction ts generalizing flags with
  | nil => simp [removeLiterals, flagsOf]
  | cons t ts ih =>
    rw [removeLiterals]
    by_cases ht : redundant t
    · rw [if_pos ht, ih]
      simp [ht, flagsOf, sdiff_sdiff_left]
    · rw [if_neg ht, ih]
      simp [ht]

open Classical in
/-- The types without the literals that have their base type beside them. -/
noncomputable def remaining (ts : List τ) : List τ := ts.filter fun t => ¬ BesideBase node ts t

theorem mem_remaining :
    t ∈ remaining node ts ↔ t ∈ ts ∧ ¬ BesideBase node ts t := by
  simp [remaining]

theorem remaining_perm {us : List τ} (h : ts.Perm us) :
    (remaining node ts).Perm (remaining node us) := by
  classical
  have hfilter : remaining node us = us.filter fun t => ¬ BesideBase node ts t := by
    refine List.filter_congr fun t _ => ?_
    have hbase : BesideBase node ts t ↔ BesideBase node us t :=
      exists_congr fun s => and_congr_left fun _ => h.mem_iff
    simp [hbase]
  rw [hfilter]
  exact h.filter _

theorem baseFlag_ne (flag : TypeFlag) : baseFlag flag ≠ some flag := by
  cases flag <;> simp [baseFlag]

theorem remaining_singleton (t : τ) : remaining node [t] = [t] := by
  have h : ¬ BesideBase node [t] t := by
    rintro ⟨s, hs, hbase⟩
    obtain rfl := List.mem_singleton.1 hs
    exact baseFlag_ne _ hbase
  simp [remaining, h]

open Classical in
/-- What `removeRedundantLiteralTypesFromUnion` leaves of a new union. -/
theorem removeRedundantLiterals_new (ts : List τ) :
    (new node checked ts).removeRedundantLiteralTypesFromUnion node checked =
      ⟨remaining node ts,
        flagsOf node checked ts \ flagsOf node checked (ts.filter fun t => BesideBase node ts t)⟩ := by
  have hfilter : ts.filter (fun t => (new node checked ts).isRedundant node t) =
      ts.filter fun t => BesideBase node ts t := by
    refine List.filter_congr fun t ht => ?_
    rw [Bool.eq_iff_iff, isRedundant_new node checked ht, decide_eq_true_eq]
  have hfilterNot : ts.filter (fun t => ¬ (new node checked ts).isRedundant node t) =
      remaining node ts := by
    refine List.filter_congr fun t ht => ?_
    rw [Bool.eq_iff_iff, decide_eq_true_eq, decide_eq_true_eq, isRedundant_new node checked ht]
  simp only [removeRedundantLiteralTypesFromUnion, new, removeLiterals_eq]
  rw [← hfilter, ← hfilterNot]
  rfl

theorem exists_typeFlag_iff (n : TypeNode τ) (h : ∀ t : TypeNode τ, t.typeFlag = n.typeFlag → t = n) :
    (∃ t ∈ ts, (node t).typeFlag = n.typeFlag) ↔ ∃ t ∈ ts, node t = n := by
  constructor
  · rintro ⟨t, ht, hflag⟩
    exact ⟨t, ht, h _ hflag⟩
  · rintro ⟨t, ht, rfl⟩
    exact ⟨t, ht, rfl⟩

theorem has_any_iff :
    (new node checked ts).hasConstituentFlag .any = true ↔ ∃ t ∈ ts, node t = .any := by
  rw [hasConstituentFlag_new node checked (by simp)]
  refine exists_typeFlag_iff node .any fun t ht => ?_
  cases t <;> simp_all [TypeNode.typeFlag]

theorem has_unknown_iff :
    (new node checked ts).hasConstituentFlag .unknown = true ↔ ∃ t ∈ ts, node t = .unknown := by
  rw [hasConstituentFlag_new node checked (by simp)]
  refine exists_typeFlag_iff node .unknown fun t ht => ?_
  cases t <;> simp_all [TypeNode.typeFlag]

/-- What is made of types none of which is `any` or `unknown`. -/
noncomputable def literalsRemoved (ts : List τ) : Created τ :=
  match remaining node ts with
  | [t] => .existing t
  | us =>
    .fresh us (((new node checked ts).removeRedundantLiteralTypesFromUnion node
      checked).constituentFlags)

variable {node} (globals : GlobalTypes node)

theorem finish_eq_any (h : ∃ t ∈ ts, node t = .any) (hlen : ∀ t, ts ≠ [t]) :
    finish checked globals ts = .existing globals.globalAny := by
  unfold finish
  split
  · exact absurd rfl (hlen _)
  · rw [handleUnionType, if_pos ((has_any_iff node checked).2 h)]

theorem finish_eq_unknown (hany : ¬ ∃ t ∈ ts, node t = .any) (h : ∃ t ∈ ts, node t = .unknown)
    (hlen : ∀ t, ts ≠ [t]) :
    finish checked globals ts = .existing globals.globalUnknown := by
  unfold finish
  split
  · exact absurd rfl (hlen _)
  · rw [handleUnionType, if_neg (mt (has_any_iff node checked).1 hany),
      if_pos ((has_unknown_iff node checked).2 h)]

theorem finish_any (h : ∃ t ∈ ts, node t = .any) :
    ∃ t, finish checked globals ts = .existing t ∧ node t = .any := by
  by_cases hlen : ∃ t, ts = [t]
  · obtain ⟨t, rfl⟩ := hlen
    obtain ⟨s, hs, hany⟩ := h
    obtain rfl := List.mem_singleton.1 hs
    exact ⟨s, rfl, hany⟩
  · exact ⟨_, finish_eq_any checked globals h (not_exists.1 hlen), globals.node_any⟩

theorem finish_unknown (hany : ¬ ∃ t ∈ ts, node t = .any) (h : ∃ t ∈ ts, node t = .unknown) :
    ∃ t, finish checked globals ts = .existing t ∧ node t = .unknown := by
  by_cases hlen : ∃ t, ts = [t]
  · obtain ⟨t, rfl⟩ := hlen
    obtain ⟨s, hs, hunknown⟩ := h
    obtain rfl := List.mem_singleton.1 hs
    exact ⟨s, rfl, hunknown⟩
  · exact ⟨_, finish_eq_unknown checked globals hany h (not_exists.1 hlen), globals.node_unknown⟩

theorem finish_neither (hany : ¬ ∃ t ∈ ts, node t = .any) (hunknown : ¬ ∃ t ∈ ts, node t = .unknown) :
    finish checked globals ts = literalsRemoved node checked ts := by
  unfold finish literalsRemoved
  split
  · rw [remaining_singleton]
  · rw [handleUnionType, if_neg (mt (has_any_iff node checked).1 hany),
      if_neg (mt (has_unknown_iff node checked).1 hunknown), removeRedundantLiterals_new]
    all_goals rcases remaining node ts with _ | ⟨t, _ | _⟩ <;> rfl

/-- The shape of what is made of types without `any` and `unknown`. -/
theorem literalsRemoved_cases (ts : List τ) :
    (∃ t, remaining node ts = [t] ∧ literalsRemoved node checked ts = .existing t) ∨
    ((remaining node ts).length ≠ 1 ∧ literalsRemoved node checked ts = .fresh (remaining node ts)
      ((new node checked ts).removeRedundantLiteralTypesFromUnion node checked).constituentFlags) := by
  unfold literalsRemoved
  rcases remaining node ts with _ | ⟨t, _ | ⟨u, us⟩⟩
  · exact .inr ⟨by simp, rfl⟩
  · exact .inl ⟨t, rfl, rfl⟩
  · exact .inr ⟨by simp, rfl⟩

/-- The result is `any` or `unknown` only where that is one of the types. -/
theorem exists_of_finish {p : TypeNode τ} (hp : p = .any ∨ p = .unknown)
    (hany : p = .unknown → ¬ ∃ s ∈ ts, node s = .any) (h : finish checked globals ts = .existing t)
    (ht : node t = p) : ∃ s ∈ ts, node s = p := by
  by_contra hno
  have hno_any : ¬ ∃ s ∈ ts, node s = .any := by
    rcases hp with rfl | rfl
    · exact hno
    · exact hany rfl
  by_cases hunknown : ∃ s ∈ ts, node s = .unknown
  · obtain ⟨u, hu, hnode⟩ := finish_unknown checked globals hno_any hunknown
    rw [hu] at h
    cases h
    exact hno (by rwa [← ht, hnode])
  · rw [finish_neither checked globals hno_any hunknown] at h
    rcases literalsRemoved_cases checked ts with ⟨u, hu, heq⟩ | ⟨-, heq⟩
    · rw [heq] at h
      cases h
      have hmem : t ∈ remaining node ts := by
        rw [hu]
        exact List.mem_singleton_self t
      exact hno ⟨t, ((mem_remaining node).1 hmem).1, ht⟩
    · rw [heq] at h
      cases h

/-- The flags that are left are those of the types that are left, unless a literal that is removed has
the mark `RELATION_CHECKED` and one that is left has it too. -/
theorem constituentFlags_eq_iff (ts : List τ) :
    ((new node checked ts).removeRedundantLiteralTypesFromUnion node checked).constituentFlags =
        flagsOf node checked (remaining node ts) ↔
      ¬ ((∃ t ∈ ts, BesideBase node ts t ∧ checked t = true) ∧
        ∃ t ∈ remaining node ts, checked t = true) := by
  classical
  rw [removeRedundantLiterals_new]
  constructor
  · rintro heq ⟨⟨t, ht, hbase, hmark⟩, s, hs, hs'⟩
    have hmem : TypeFlag.relationChecked ∈ flagsOf node checked (remaining node ts) :=
      (mem_flagsOf node checked).2 ⟨s, hs, (mem_typeFlags node checked).2 (.inr ⟨rfl, hs'⟩)⟩
    rw [← heq] at hmem
    refine (Finset.mem_sdiff.1 hmem).2 ((mem_flagsOf node checked).2 ⟨t, ?_, ?_⟩)
    · simp [ht, hbase]
    · exact (mem_typeFlags node checked).2 (.inr ⟨rfl, hmark⟩)
  · intro hmarks
    ext flag
    simp only [Finset.mem_sdiff, mem_flagsOf, mem_typeFlags, mem_remaining, List.mem_filter,
      decide_eq_true_eq]
    constructor
    · rintro ⟨⟨t, ht, hflag⟩, hnot⟩
      refine ⟨t, ⟨ht, fun hbase => hnot ⟨t, ⟨ht, hbase⟩, hflag⟩⟩, hflag⟩
    · rintro ⟨t, ⟨ht, hrest⟩, hflag⟩
      refine ⟨⟨t, ht, hflag⟩, ?_⟩
      rintro ⟨s, ⟨hs, hbase⟩, hs'⟩
      rcases hflag with rfl | ⟨rfl, hmark⟩
      · rcases hs' with heq | ⟨heq, -⟩
        · obtain ⟨b, hb, hflag⟩ := hbase
          exact hrest ⟨b, hb, heq ▸ hflag⟩
        · exact typeFlag_ne_relationChecked _ heq
      · rcases hs' with heq | ⟨-, hmark'⟩
        · exact typeFlag_ne_relationChecked _ heq.symm
        · exact hmarks ⟨⟨s, hs, hbase, hmark'⟩, t, (mem_remaining node).2 ⟨ht, hrest⟩, hmark⟩

theorem not_besideBase_of_base {us : List τ} {s : τ}
    (h : baseFlag (node t).typeFlag = some (node s).typeFlag) : ¬ BesideBase node us s := by
  rintro ⟨u, -, hu⟩
  revert h hu
  generalize (node s).typeFlag = flag
  generalize (node t).typeFlag = flag'
  generalize (node u).typeFlag = flag''
  cases flag' <;> cases flag <;> simp [baseFlag]

theorem exists_mem_remaining (ht : t ∈ ts) :
    t ∈ remaining node ts ∨
      ∃ s ∈ remaining node ts, baseFlag (node t).typeFlag = some (node s).typeFlag := by
  by_cases hbase : BesideBase node ts t
  · obtain ⟨s, hs, hflag⟩ := hbase
    exact .inr ⟨s, (mem_remaining node).2 ⟨hs, not_besideBase_of_base hflag⟩, hflag⟩
  · exact .inl ((mem_remaining node).2 ⟨ht, hbase⟩)

theorem remaining_ne_nil (ht : t ∈ ts) : remaining node ts ≠ [] := by
  rcases exists_mem_remaining ht with h | ⟨s, h, -⟩
  · exact List.ne_nil_of_mem h
  · exact List.ne_nil_of_mem h

theorem denotes_base {m : Meaning node} {s : τ} {v : Value}
    (h : baseFlag (node t).typeFlag = some (node s).typeFlag) (hv : Denotes m t v) :
    Denotes m s v := by
  rw [denotes_iff] at hv ⊢
  cases hs : node s <;> cases ht : node t <;> simp_all [baseFlag, TypeNode.typeFlag, NodeDenotes]

theorem denotesSome_remaining {m : Meaning node} (ts : List τ) (v : Value) :
    DenotesSome m (remaining node ts) v ↔ DenotesSome m ts v := by
  constructor
  · rintro ⟨t, ht, hv⟩
    exact ⟨t, ((mem_remaining node).1 ht).1, hv⟩
  · rintro ⟨t, ht, hv⟩
    rcases exists_mem_remaining ht with h | ⟨s, h, hbase⟩
    · exact ⟨t, h, hv⟩
    · exact ⟨s, h, denotes_base hbase hv⟩

/-- What is made of a list does not depend on the order, except for that of the constituents. -/
theorem finish_perm {us : List τ} (h : ts.Perm us) :
    finish checked globals ts = finish checked globals us ∨
      ∃ cs cs' flags flags', finish checked globals ts = .fresh cs flags ∧
        finish checked globals us = .fresh cs' flags' ∧ cs.Perm cs' := by
  by_cases hlen : ∃ t, us = [t]
  · obtain ⟨t, rfl⟩ := hlen
    rw [List.perm_singleton.1 h]
    exact .inl rfl
  · have hlen' : ∀ t, ts ≠ [t] := by
      rintro t rfl
      exact hlen ⟨t, List.perm_singleton.1 h.symm⟩
    have hmem : ∀ p : TypeNode τ, (∃ t ∈ ts, node t = p) ↔ ∃ t ∈ us, node t = p := fun p =>
      exists_congr fun t => and_congr_left fun _ => h.mem_iff
    by_cases hany : ∃ t ∈ ts, node t = .any
    · left
      rw [finish_eq_any checked globals hany hlen',
        finish_eq_any checked globals ((hmem _).1 hany) (not_exists.1 hlen)]
    · have hany' := mt (hmem _).2 hany
      by_cases hunknown : ∃ t ∈ ts, node t = .unknown
      · left
        rw [finish_eq_unknown checked globals hany hunknown hlen',
          finish_eq_unknown checked globals hany' ((hmem _).1 hunknown) (not_exists.1 hlen)]
      · rw [finish_neither checked globals hany hunknown,
          finish_neither checked globals hany' (mt (hmem _).2 hunknown)]
        have hremaining := remaining_perm node h
        unfold literalsRemoved
        rcases hts : remaining node ts with _ | ⟨t, _ | ⟨t', ts'⟩⟩
        · rw [hts] at hremaining
          rw [List.perm_nil.1 hremaining.symm]
          exact .inr ⟨[], [], _, _, rfl, rfl, .refl _⟩
        · rw [hts] at hremaining
          rw [List.perm_singleton.1 hremaining.symm]
          exact .inl rfl
        · rw [hts] at hremaining
          rcases hus : remaining node us with _ | ⟨u, _ | ⟨u', us'⟩⟩
          · rw [hus] at hremaining
            exact absurd hremaining.length_eq (by simp)
          · rw [hus] at hremaining
            exact absurd hremaining.length_eq (by simp)
          · rw [hus] at hremaining
            exact .inr ⟨_, _, _, _, rfl, rfl, hremaining⟩

end UnionType

end Flags

section Results

variable [DecidableEq τ] (node : τ → TypeNode τ)

/-- `IsIdenticalTo` says that two types are identical. -/
def SameType (a b : τ) : Prop :=
  TreeAnswers (identityTree node) (.isIdenticalTo .false a b) .true

/-- Each type of one list is identical to some type of the other. -/
def SameTypes (ts us : List τ) : Prop :=
  (∀ t ∈ ts, ∃ u ∈ us, SameType node t u) ∧ ∀ u ∈ us, ∃ t ∈ ts, SameType node u t

/-- Two results are one type, or unions of the same types. -/
def SameCreated : Created τ → Created τ → Prop
  | .existing a, .existing b => SameType node a b ∧ SameType node b a
  | .fresh ts _, .fresh us _ => SameTypes node ts us
  | .existing a, .fresh us _ => ∃ ts flags, node a = .union ts flags ∧ SameTypes node ts us
  | .fresh ts _, .existing b => ∃ us flags, node b = .union us flags ∧ SameTypes node ts us

variable {node} (globals : GlobalTypes node) (m : Meaning node)

/-- The checker makes `c` of a list of types. -/
def Creates (st : Relation τ) (ts : List τ) (c : Created τ) : Prop :=
  ∀ result, ∃ r st', ((createUnionType st.relationChecked globals ts result).lift Query.identity).Results
    (relationBody node) st ((c, r), st')

/-- What is expected of the result of a list of types. -/
structure ProperUnion (checked : τ → Bool) (ts : List τ) (c : Created τ) : Prop where
  any : (∃ t ∈ ts, node t = .any) → ∃ t, c = .existing t ∧ node t = .any
  unknown : (¬ ∃ t ∈ ts, node t = .any) → (∃ t ∈ ts, node t = .unknown) →
    ∃ t, c = .existing t ∧ node t = .unknown
  single : (¬ ∃ t ∈ ts, node t = .any) → (¬ ∃ t ∈ ts, node t = .unknown) →
    ∀ t, c = .existing t → t ∈ ts ∧ ∀ v, Denotes m t v ↔ DenotesSome m ts v
  union : (¬ ∃ t ∈ ts, node t = .any) → (¬ ∃ t ∈ ts, node t = .unknown) →
    ∀ us flags, c = .fresh us flags → 2 ≤ us.length ∧
      us.Pairwise (fun a b => ¬ SameType node a b ∧ ¬ SameType node b a) ∧
      (∀ u ∈ us, ¬ UnionType.BesideBase node us u) ∧
      flags = UnionType.flagsOf node checked us ∧
      ∀ v, DenotesSome m us v ↔ DenotesSome m ts v

/-- The union of a list is as expected, and the same for every permutation of the list. -/
def WellCreated (st : Relation τ) (ts : List τ) : Prop :=
  ∃ c, Creates globals st ts c ∧ ProperUnion m st.relationChecked ts c ∧
    ∀ us, us.Perm ts → ∃ c', Creates globals st us c' ∧ SameCreated node c c'

variable {first : τ} {rest : List τ}

theorem creates_iff {st : Relation τ} (hs : st.Sound node) {c : Created τ} :
    Creates globals st (first :: rest) c ↔ (∀ t ∈ rest, Comparable node first t) ∧
      c = UnionType.finish st.relationChecked globals (keptTypes node first rest) := by
  have htrees : ∀ result, (∃ r st', ((createUnionType st.relationChecked globals (first :: rest)
      result).lift Query.identity).Results (relationBody node) st ((c, r), st')) ↔
      ∃ r, TreeResults (identityTree node)
        (createUnionType st.relationChecked globals (first :: rest) result) (c, r) :=
    fun result => exists_congr fun r => (identity_memoized node).results_iff hs
  constructor
  · intro h
    exact (createUnionType_results_iff node globals _ first rest .false c).1 ((htrees .false).1 (h .false))
  · intro h result
    exact (htrees result).2 ((createUnionType_results_iff node globals _ first rest result c).2 h)

variable (node) in
/-- Two lists of types, each without literals beside their base types, come to the same. -/
def SameOutcome (ts us : List τ) : Prop :=
  match ts, us with
  | [a], [b] => SameType node a b ∧ SameType node b a
  | [a], us => ∃ cs flags, node a = .union cs flags ∧ SameTypes node cs us
  | ts, [b] => ∃ cs flags, node b = .union cs flags ∧ SameTypes node ts cs
  | ts, us => SameTypes node ts us

/-- One of the types is `any`, or one is `unknown`. -/
def HasTop (node : τ → TypeNode τ) (ts : List τ) : Prop :=
  (∃ t ∈ ts, node t = .any) ∨ ∃ t ∈ ts, node t = .unknown

/-- When the types of a list make a proper union. Only the copies of the first type are removed, so no
other type may be there twice; what is taken for a copy must have no values of its own; the mark
`RELATION_CHECKED` must not be cleared with a literal that goes; and whichever of the types stands
first, its copies must be the same ones. -/
structure UnionCondition (checked : τ → Bool) (first : τ) (rest : List τ) : Prop where
  comparable : ∀ l₁ t l₂, first :: rest = l₁ ++ t :: l₂ → ∀ s ∈ l₁ ++ l₂, Comparable node t s
  any : (∃ t ∈ first :: rest, node t = .any) → ∀ l₁ t l₂, first :: rest = l₁ ++ t :: l₂ →
    ∃ s ∈ keptTypes node t (l₁ ++ l₂), node s = .any
  unknown : (¬ ∃ t ∈ first :: rest, node t = .any) → (∃ t ∈ first :: rest, node t = .unknown) →
    ∀ l₁ t l₂, first :: rest = l₁ ++ t :: l₂ → ∃ s ∈ keptTypes node t (l₁ ++ l₂), node s = .unknown
  distinct : ¬ HasTop node (first :: rest) →
    (UnionType.remaining node (keptTypes node first rest)).Pairwise
      fun a b => ¬ SameType node a b ∧ ¬ SameType node b a
  values : ¬ HasTop node (first :: rest) → ∀ t ∈ rest, SaysIdentical node first t →
    ∀ v, Denotes m t v → DenotesSome m (keptTypes node first rest) v
  marks : ¬ HasTop node (first :: rest) →
    (UnionType.remaining node (keptTypes node first rest)).length ≠ 1 →
    ¬ ((∃ t ∈ keptTypes node first rest,
        UnionType.BesideBase node (keptTypes node first rest) t ∧ checked t = true) ∧
      ∃ t ∈ UnionType.remaining node (keptTypes node first rest), checked t = true)
  order : ¬ HasTop node (first :: rest) → ∀ l₁ t l₂, first :: rest = l₁ ++ t :: l₂ →
    SameOutcome node (UnionType.remaining node (keptTypes node first rest))
      (UnionType.remaining node (keptTypes node t (l₁ ++ l₂)))

variable {checked : τ → Bool}

theorem SameCreated.of_perm {c : Created τ} {ts us : List τ} (h : ts.Perm us)
    (hc : SameCreated node c (UnionType.finish checked globals ts)) :
    SameCreated node c (UnionType.finish checked globals us) := by
  rcases UnionType.finish_perm checked globals h with heq | ⟨cs, cs', flags, flags', hts, hus, hperm⟩
  · rwa [← heq]
  · rw [hts] at hc
    rw [hus]
    have hsame : ∀ ds, SameTypes node ds cs → SameTypes node ds cs' := by
      rintro ds ⟨hl, hr⟩
      refine ⟨fun t ht => ?_, fun u hu => hr u (hperm.mem_iff.2 hu)⟩
      obtain ⟨u, hu, hut⟩ := hl t ht
      exact ⟨u, hperm.mem_iff.1 hu, hut⟩
    cases c with
    | existing a =>
      obtain ⟨ds, fl, ha, hds⟩ := hc
      exact ⟨ds, fl, ha, hsame ds hds⟩
    | fresh ds fl => exact hsame ds hc

theorem keptTypes_perm {t : τ} {us vs : List τ} (h : us.Perm vs) :
    (keptTypes node t us).Perm (keptTypes node t vs) :=
  (h.filter _).cons t

theorem mem_of_mem_keptTypes {t : τ} (h : t ∈ keptTypes node first rest) :
    t ∈ first :: rest := by
  rcases List.mem_cons.1 h with rfl | h
  · exact List.mem_cons_self
  · exact List.mem_cons_of_mem _ ((mem_droppingCopies node).1 h).1

theorem mem_keptTypes_or {t : τ} (h : t ∈ first :: rest) :
    t ∈ keptTypes node first rest ∨ t ∈ rest ∧ SaysIdentical node first t := by
  rcases List.mem_cons.1 h with rfl | h
  · exact .inl List.mem_cons_self
  · by_cases hsays : SaysIdentical node first t
    · exact .inr ⟨h, hsays⟩
    · exact .inl (List.mem_cons_of_mem _ ((mem_droppingCopies node).2 ⟨h, hsays⟩))

theorem keptTypes_subset {p : τ → Prop} (h : ¬ ∃ t ∈ first :: rest, p t) :
    ¬ ∃ t ∈ keptTypes node first rest, p t := by
  rintro ⟨t, ht, hp⟩
  exact h ⟨t, mem_of_mem_keptTypes ht, hp⟩

omit [DecidableEq τ] in
theorem identicalKind_register (flag : TypeFlag) (n : TypeNode τ) :
    (identicalKind flag n).register .false = .ret (if n.typeFlag = flag then .true else .false) := by
  unfold identicalKind
  by_cases h : n.typeFlag = flag
  · rw [if_pos h, if_pos h]
    rfl
  · rw [if_neg h, if_neg h]
    rfl

/-- Only a type that is `any` is identical to `any`, and likewise for `unknown`. -/
theorem sameType_top_iff {n : TypeNode τ} (hn : n = .any ∨ n = .unknown) {a b : τ}
    (ha : node a = n) : SameType node b a ↔ node b = n := by
  unfold SameType
  rw [treeAnswers_iff, identityTree]
  by_cases hab : b = a
  · subst hab
    rw [if_pos rfl]
    exact ⟨fun _ => ha, fun _ => .ret _⟩
  · rw [if_neg hab, ha]
    have hregister : (n.identical node b).register .false =
        .ret (if (node b).typeFlag = n.typeFlag then .true else .false) := by
      rcases hn with rfl | rfl <;> exact identicalKind_register _ _
    rw [hregister, treeResults_ret_iff]
    have hflag_iff : (node b).typeFlag = n.typeFlag ↔ node b = n := by
      rcases hn with rfl | rfl <;> cases node b <;> simp [TypeNode.typeFlag]
    rw [← hflag_iff]
    split <;> simp_all

/-- What is made of types without `any` and `unknown` is the same where what is left of them is. -/
theorem sameCreated_literalsRemoved_iff {ts us : List τ} :
    SameCreated node (UnionType.literalsRemoved node checked ts)
        (UnionType.literalsRemoved node checked us) ↔
      SameOutcome node (UnionType.remaining node ts) (UnionType.remaining node us) := by
  unfold UnionType.literalsRemoved
  rcases UnionType.remaining node ts with _ | ⟨t, _ | ⟨t', ts'⟩⟩ <;>
    rcases UnionType.remaining node us with _ | ⟨u, _ | ⟨u', us'⟩⟩ <;> rfl

theorem finish_keptTypes (h : ¬ HasTop node (first :: rest)) :
    UnionType.finish checked globals (keptTypes node first rest) =
      UnionType.literalsRemoved node checked (keptTypes node first rest) :=
  UnionType.finish_neither _ globals (keptTypes_subset (not_or.1 h).1)
    (keptTypes_subset (not_or.1 h).2)

omit [DecidableEq τ] in
theorem hasTop_of_split {t : τ} {l₁ l₂ : List τ} (heq : first :: rest = l₁ ++ t :: l₂) :
    HasTop node (t :: (l₁ ++ l₂)) ↔ HasTop node (first :: rest) := by
  have hmem : ∀ s, s ∈ t :: (l₁ ++ l₂) ↔ s ∈ first :: rest := fun s => by
    rw [heq]
    exact List.perm_middle.symm.mem_iff
  simp only [HasTop, hmem]

/-- Where the result for one order is `any` or `unknown`, that is what the others must keep. -/
theorem top_kept {n : TypeNode τ} (hn : n = .any ∨ n = .unknown) {a : τ} (ha : node a = n)
    {ts : List τ} (hany : n = .unknown → ¬ ∃ s ∈ ts, node s = .any)
    (h : SameCreated node (.existing a) (UnionType.finish checked globals ts)) :
    ∃ s ∈ ts, node s = n := by
  cases hc : UnionType.finish checked globals ts with
  | existing b =>
    rw [hc] at h
    exact UnionType.exists_of_finish checked globals hn hany hc ((sameType_top_iff hn ha).1 h.2)
  | fresh us flags =>
    rw [hc] at h
    obtain ⟨ds, fl, hunion, -⟩ := h
    rw [ha] at hunion
    rcases hn with rfl | rfl <;> cases hunion

theorem sameCreated_top {n : TypeNode τ} (hn : n = .any ∨ n = .unknown) {a b : τ} (ha : node a = n)
    (hb : node b = n) : SameCreated node (.existing a) (.existing b) :=
  ⟨(sameType_top_iff hn hb).2 ha, (sameType_top_iff hn ha).2 hb⟩

theorem unionCondition_of_wellCreated {st : Relation τ} (hs : st.Sound node)
    (h : WellCreated globals m st (first :: rest)) :
    UnionCondition m st.relationChecked first rest := by
  obtain ⟨c, hc, hproper, hperm⟩ := h
  obtain ⟨hcomparable, rfl⟩ := (creates_iff globals hs).1 hc
  have hsplit : ∀ l₁ t l₂, first :: rest = l₁ ++ t :: l₂ →
      (∀ s ∈ l₁ ++ l₂, Comparable node t s) ∧
      SameCreated node (UnionType.finish st.relationChecked globals (keptTypes node first rest))
        (UnionType.finish st.relationChecked globals (keptTypes node t (l₁ ++ l₂))) := by
    intro l₁ t l₂ heq
    obtain ⟨c', hc', hsame⟩ := hperm (t :: (l₁ ++ l₂)) (heq ▸ List.perm_middle.symm)
    obtain ⟨hcomparable', rfl⟩ := (creates_iff globals hs).1 hc'
    exact ⟨hcomparable', hsame⟩
  refine ⟨fun l₁ t l₂ heq => (hsplit l₁ t l₂ heq).1, fun hany l₁ t l₂ heq => ?_,
    fun hany hunknown l₁ t l₂ heq => ?_, fun htop => ?_, fun htop => ?_, fun htop hlen => ?_,
    fun htop l₁ t l₂ heq => ?_⟩
  · obtain ⟨a, hfinish, ha⟩ := hproper.any hany
    have hsame := (hsplit l₁ t l₂ heq).2
    rw [hfinish] at hsame
    exact top_kept globals (.inl rfl) ha (by simp) hsame
  · obtain ⟨a, hfinish, ha⟩ := hproper.unknown hany hunknown
    have hsame := (hsplit l₁ t l₂ heq).2
    rw [hfinish] at hsame
    refine top_kept globals (.inr rfl) ha (fun _ => keptTypes_subset ?_) hsame
    rintro ⟨s, hs', hnode⟩
    exact hany ⟨s, by rw [heq]; exact List.perm_middle.symm.mem_iff.1 hs', hnode⟩
  · rcases UnionType.literalsRemoved_cases st.relationChecked (keptTypes node first rest) with
      ⟨t, ht, -⟩ | ⟨-, heq⟩
    · rw [ht]
      exact List.pairwise_singleton _ t
    · exact (hproper.union (not_or.1 htop).1 (not_or.1 htop).2 _ _
        ((finish_keptTypes globals htop).trans heq)).2.1
  · intro t ht hsays v hv
    have hlist : DenotesSome m (first :: rest) v := ⟨t, List.mem_cons_of_mem _ ht, hv⟩
    rw [← UnionType.denotesSome_remaining]
    rcases UnionType.literalsRemoved_cases st.relationChecked (keptTypes node first rest) with
      ⟨u, hu, heq⟩ | ⟨-, heq⟩
    · have hsingle := (hproper.single (not_or.1 htop).1 (not_or.1 htop).2 u
        ((finish_keptTypes globals htop).trans heq)).2 v
      rw [hu]
      exact ⟨u, List.mem_singleton_self u, hsingle.2 hlist⟩
    · exact ((hproper.union (not_or.1 htop).1 (not_or.1 htop).2 _ _
        ((finish_keptTypes globals htop).trans heq)).2.2.2.2 v).2 hlist
  · rcases UnionType.literalsRemoved_cases st.relationChecked (keptTypes node first rest) with
      ⟨t, ht, -⟩ | ⟨-, heq⟩
    · exact absurd (by rw [ht, List.length_singleton]) hlen
    · exact (UnionType.constituentFlags_eq_iff _ _).1
        (hproper.union (not_or.1 htop).1 (not_or.1 htop).2 _ _
          ((finish_keptTypes globals htop).trans heq)).2.2.2.1
  · have hsame := (hsplit l₁ t l₂ heq).2
    rw [finish_keptTypes globals htop,
      finish_keptTypes globals (mt (hasTop_of_split heq).1 htop)] at hsame
    exact sameCreated_literalsRemoved_iff.1 hsame

theorem denotesSome_keptTypes (h : UnionCondition m checked first rest)
    (htop : ¬ HasTop node (first :: rest)) (v : Value) :
    DenotesSome m (keptTypes node first rest) v ↔ DenotesSome m (first :: rest) v := by
  constructor
  · rintro ⟨t, ht, hv⟩
    exact ⟨t, mem_of_mem_keptTypes ht, hv⟩
  · rintro ⟨t, ht, hv⟩
    rcases mem_keptTypes_or ht with hkept | ⟨hrest, hsays⟩
    · exact ⟨t, hkept, hv⟩
    · exact h.values htop t hrest hsays v hv

omit [DecidableEq τ] in
theorem besideBase_of_remaining {ts : List τ} {t : τ}
    (h : UnionType.BesideBase node (UnionType.remaining node ts) t) :
    UnionType.BesideBase node ts t := by
  obtain ⟨s, hs, hbase⟩ := h
  exact ⟨s, ((UnionType.mem_remaining node).1 hs).1, hbase⟩

theorem properUnion_of_unionCondition (h : UnionCondition m checked first rest) :
    ProperUnion m checked (first :: rest)
      (UnionType.finish checked globals (keptTypes node first rest)) where
  any hany := UnionType.finish_any checked globals (h.any hany [] first rest rfl)
  unknown hany hunknown := UnionType.finish_unknown checked globals (keptTypes_subset hany)
    (h.unknown hany hunknown [] first rest rfl)
  single hany hunknown t ht := by
    have htop : ¬ HasTop node (first :: rest) := not_or.2 ⟨hany, hunknown⟩
    rw [finish_keptTypes globals htop] at ht
    rcases UnionType.literalsRemoved_cases checked (keptTypes node first rest) with
      ⟨u, hu, heq⟩ | ⟨-, heq⟩
    · rw [heq] at ht
      cases ht
      have hmem : t ∈ UnionType.remaining node (keptTypes node first rest) := by
        rw [hu]
        exact List.mem_singleton_self t
      refine ⟨mem_of_mem_keptTypes ((UnionType.mem_remaining node).1 hmem).1, fun v => ?_⟩
      rw [← denotesSome_keptTypes m h htop, ← UnionType.denotesSome_remaining, hu]
      simp [DenotesSome]
    · rw [heq] at ht
      cases ht
  union hany hunknown us flags hus := by
    have htop : ¬ HasTop node (first :: rest) := not_or.2 ⟨hany, hunknown⟩
    rw [finish_keptTypes globals htop] at hus
    rcases UnionType.literalsRemoved_cases checked (keptTypes node first rest) with
      ⟨u, hu, heq⟩ | ⟨hlen, heq⟩
    · rw [heq] at hus
      cases hus
    · rw [heq] at hus
      cases hus
      have hne : UnionType.remaining node (keptTypes node first rest) ≠ [] :=
        UnionType.remaining_ne_nil (List.mem_cons_self : first ∈ keptTypes node first rest)
      have hpos := List.length_pos_iff.2 hne
      refine ⟨by omega, h.distinct htop, fun u hu hbase => ?_,
        (UnionType.constituentFlags_eq_iff _ _).2 (h.marks htop hlen), fun v => ?_⟩
      · exact ((UnionType.mem_remaining node).1 hu).2 (besideBase_of_remaining hbase)
      · rw [UnionType.denotesSome_remaining, denotesSome_keptTypes m h htop]

/-- Whichever of the types stands first, the result is the same. -/
theorem sameCreated_of_unionCondition (h : UnionCondition m checked first rest) {l₁ l₂ : List τ}
    {t : τ} (heq : first :: rest = l₁ ++ t :: l₂) :
    SameCreated node (UnionType.finish checked globals (keptTypes node first rest))
      (UnionType.finish checked globals (keptTypes node t (l₁ ++ l₂))) := by
  by_cases hany : ∃ s ∈ first :: rest, node s = .any
  · obtain ⟨a, ha, hnode⟩ := UnionType.finish_any checked globals (h.any hany [] first rest rfl)
    obtain ⟨b, hb, hnode'⟩ := UnionType.finish_any checked globals (h.any hany l₁ t l₂ heq)
    rw [List.nil_append] at ha
    rw [ha, hb]
    exact sameCreated_top (.inl rfl) hnode hnode'
  · have hmem : ∀ s, s ∈ t :: (l₁ ++ l₂) ↔ s ∈ first :: rest := fun s => by
      rw [heq]
      exact List.perm_middle.symm.mem_iff
    have hany' : ¬ ∃ s ∈ t :: (l₁ ++ l₂), node s = .any := by
      simp only [hmem]
      exact hany
    by_cases hunknown : ∃ s ∈ first :: rest, node s = .unknown
    · obtain ⟨a, ha, hnode⟩ := UnionType.finish_unknown checked globals (keptTypes_subset hany)
        (h.unknown hany hunknown [] first rest rfl)
      obtain ⟨b, hb, hnode'⟩ := UnionType.finish_unknown checked globals (keptTypes_subset hany')
        (h.unknown hany hunknown l₁ t l₂ heq)
      rw [ha, hb]
      exact sameCreated_top (.inr rfl) hnode hnode'
    · have htop : ¬ HasTop node (first :: rest) := not_or.2 ⟨hany, hunknown⟩
      rw [finish_keptTypes globals htop, finish_keptTypes globals (mt (hasTop_of_split heq).1 htop)]
      exact sameCreated_literalsRemoved_iff.2 (h.order htop l₁ t l₂ heq)

theorem wellCreated_of_unionCondition {st : Relation τ} (hs : st.Sound node)
    (h : UnionCondition m st.relationChecked first rest) :
    WellCreated globals m st (first :: rest) := by
  refine ⟨_, (creates_iff globals hs).2 ⟨h.comparable [] first rest rfl, rfl⟩,
    properUnion_of_unionCondition globals m h, fun us hus => ?_⟩
  cases us with
  | nil => exact absurd hus.length_eq (by simp)
  | cons t others =>
    obtain ⟨l₁, l₂, heq⟩ := List.append_of_mem (hus.mem_iff.1 (List.mem_cons_self : t ∈ t :: others))
    have hothers : others.Perm (l₁ ++ l₂) := by
      apply List.Perm.cons_inv (a := t)
      refine hus.trans ?_
      rw [heq]
      exact List.perm_middle
    refine ⟨_, (creates_iff globals hs).2 ⟨fun s hs' => ?_, rfl⟩, ?_⟩
    · exact h.comparable l₁ t l₂ heq s (hothers.mem_iff.1 hs')
    · exact SameCreated.of_perm globals (keptTypes_perm hothers.symm)
        (sameCreated_of_unionCondition globals m h heq)

end Results

/-- A graph of four primitive types. -/
inductive Primitive where
  | any
  | unknown
  | number
  | string
  deriving DecidableEq

namespace Primitive

def node : Primitive → TypeNode Primitive
  | any => .any
  | unknown => .unknown
  | number => .number
  | string => .string

def globals : GlobalTypes node := ⟨any, unknown, rfl, rfl⟩

def meaning : Meaning node where
  bigintOf _ := 0
  members _ _ := False
  members_array _ _ _ _ h := h.elim
  members_object _ _ _ _ h := h.elim

theorem answers (a b : Primitive) :
    TreeAnswers (identityTree node) (.identical .false a b) (if a = b then .true else .false) := by
  apply treeAnswers_iff.2
  cases a <;> cases b <;> exact .ret _

theorem saysIdentical_iff {a b : Primitive} : SaysIdentical node a b ↔ a = b := by
  constructor
  · intro h
    have hunique := (answers a b).unique h
    by_contra hab
    rw [if_neg hab] at hunique
    cases hunique
  · rintro rfl
    have h := answers a a
    rwa [if_pos rfl] at h

theorem sameType_refl (a : Primitive) : SameType node a a := by
  apply treeAnswers_iff.2
  rw [identityTree, if_pos rfl]
  exact .ret _

theorem not_besideBase (ts : List Primitive) (t : Primitive) : ¬ UnionType.BesideBase node ts t := by
  rintro ⟨s, -, hbase⟩
  cases t <;> simp [node, TypeNode.typeFlag, UnionType.baseFlag] at hbase

theorem remaining_eq (ts : List Primitive) : UnionType.remaining node ts = ts := by
  simp [UnionType.remaining, not_besideBase]

end Primitive

end Es2panda.Checker
