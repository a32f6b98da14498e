import ArkTs2abc.Number.Decimal
import Mathlib.Data.Rat.Floor
import ArkTs2abc.Unicode.Utf

/-!
# Property keys

A computed key that is a literal is turned into an index or a name. `GetIndex` reads a string digit
by digit in 64 bits and stops as soon as the number is no index. A number that is no index is named by
the text of its token.

## Main definitions

* `getIndex`, `isIndex` — strings and numbers that are indices.
* `toPropertyKey`, `loadPropertyKey` — the operand for a key, or the value of a register.
* `KeyLiteral.Denotes` — the operand denotes the property of ECMAScript.

## Main results

* `KeyLiteral.denotes_and_getIndex` — when it does, and what `GetIndex` answers.
-/

namespace ArkTs2abc.Es2panda

open Decimal

namespace Helpers

def invalidIndex : Int64 := 4294967295

def isDigit (c : Char) : Bool := '0' ≤ c && c ≤ '9'

/-- `value * MULTIPLIER + (c - '0')`. -/
def nextValue (value : Int64) (c : Char) : Int64 := value * 10 + Int64.ofNat (c.toNat - '0'.toNat)

/-- The loop of `GetIndex`. -/
def getIndexLoop (value : Int64) : List Char → Int64
  | [] => value
  | c :: s =>
    if !isDigit c then invalidIndex
    else if invalidIndex ≤ nextValue value c then invalidIndex
    else getIndexLoop (nextValue value c) s

def getIndex (s : List Char) : Int64 :=
  if s.isEmpty || s.head? = some '0' && 1 < s.length then invalidIndex else getIndexLoop 0 s

/-- `static_cast<uint32_t>` of a number that is not negative. -/
def truncate (q : ℚ) : ℕ := ⌊q⌋.toNat

def isIndex : Double → Bool
  | .finite q _ => 0 ≤ q && q < 4294967295 && (truncate q : ℚ) = q
  | .infinity => false

end Helpers

/-- The expression of a property key. -/
inductive KeyExpression where
  | identifier (name : List Char)
  | stringLiteral (str : List Char)
  /-- The value of a number and the text of its token. -/
  | numberLiteral (number : Double) (str : List Char)
  | other

/-- `Operand`: a register, an index or a name. -/
inductive KeyOperand where
  | vreg
  | index (i : Int64)
  | name (str : List Char)
  deriving DecidableEq, Repr

open Helpers

def toNamedPropertyKey (prop : KeyExpression) (isComputed : Bool) : KeyOperand :=
  match isComputed, prop with
  | false, .identifier name => .name name
  | true, .stringLiteral str =>
    if str = "__proto__".toList then .vreg
    else if getIndex str ≠ invalidIndex then .index (getIndex str) else .name str
  | true, .numberLiteral number str =>
    match number with
    | .finite q _ => if isIndex number then .index (Int64.ofNat (truncate q)) else .name str
    | .infinity => .name str
  | _, _ => .vreg

/-- What an expression is evaluated to before it is used as a key. -/
inductive KeyValue where
  | string (str : List Char)
  | number (number : Double)
  | int (i : Int64)
  | unknown

/-- A string or a number literal. -/
inductive KeyLiteral where
  | string (str : List Char)
  | number (number : Double) (str : List Char)

namespace KeyLiteral

def expression : KeyLiteral → KeyExpression
  | string str => .stringLiteral str
  | number n str => .numberLiteral n str

/-- What `Compile` loads. -/
def value : KeyLiteral → KeyValue
  | string str => .string str
  | number n _ => .number n

end KeyLiteral

/-- `ToPropertyKey`, with the value of the register if it is one. -/
def toPropertyKey (lit : KeyLiteral) (isComputed : Bool) : KeyOperand × KeyValue :=
  match toNamedPropertyKey lit.expression isComputed with
  | .vreg => (.vreg, lit.value)
  | op => (op, .unknown)

/-- `LoadPropertyKey`: the value of the register. -/
def loadPropertyKey (lit : KeyLiteral) (isComputed : Bool) : KeyValue :=
  match toNamedPropertyKey lit.expression isComputed with
  | .name str => .string str
  | .index i => .int i
  | .vreg => lit.value

/-- The text of an integer. -/
def intText (i : Int64) : List Char :=
  if i < 0 then '-' :: Nat.toDigits 10 i.toInt.natAbs else Nat.toDigits 10 i.toInt.toNat

/-- ECMAScript's ToPropertyKey. -/
noncomputable def KeyValue.propertyKey : KeyValue → Option (List Char)
  | string str => some str
  | number n => some n.toString
  | int i => some (intText i)
  | unknown => none

/-- The property that an operand denotes. -/
noncomputable def KeyOperand.propertyKey (v : KeyValue) : KeyOperand → Option (List Char)
  | vreg => v.propertyKey
  | index i => some (intText i)
  | name str => some str

namespace KeyLiteral

/-- The operand, and the register, denote the property that the value of the literal is the key of. -/
def Denotes (lit : KeyLiteral) (isComputed : Bool) : Prop :=
  (toPropertyKey lit isComputed).1.propertyKey (toPropertyKey lit isComputed).2 =
      lit.value.propertyKey ∧
    (loadPropertyKey lit isComputed).propertyKey = lit.value.propertyKey

/-- A number that is no index, in brackets, has to be written as ECMAScript writes it. -/
def handled (lit : KeyLiteral) (isComputed : Bool) : Prop :=
  match lit with
  | string _ => True
  | number n str => isComputed = true → isIndex n = false → str = n.toString

end KeyLiteral

/-! ### Indices -/

namespace Helpers

/-- No operation of the loop leaves the 64 bits. -/
def LoopFits (value : Int64) : List Char → Prop
  | [] => True
  | c :: s => isDigit c = true →
    (value * 10).toInt = value.toInt * 10 ∧
      (nextValue value c).toInt = value.toInt * 10 + (c.toNat - '0'.toNat : ℕ) ∧
      (nextValue value c < invalidIndex → LoopFits (nextValue value c) s)

theorem isDigit_eq (c : Char) : isDigit c = c.isDigit := rfl

theorem toNat_sub_le {c : Char} (h : isDigit c) : c.toNat - '0'.toNat < 10 :=
  (digitChar_of_isDigit (isDigit_eq c ▸ h)).1

theorem toInt_ofNat {n : ℕ} (h : n < 2 ^ 63) : (Int64.ofNat n).toInt = n :=
  Int64.toInt_ofNat_of_lt h

theorem nextValue_ofNat (v : ℕ) (c : Char) :
    nextValue (Int64.ofNat v) c = Int64.ofNat (10 * v + (c.toNat - '0'.toNat)) := by
  rw [Nat.mul_comm, Int64.ofNat_add, Int64.ofNat_mul]
  rfl

theorem invalidIndex_le_iff {n : ℕ} (h : n < 2 ^ 63) :
    invalidIndex ≤ Int64.ofNat n ↔ 4294967295 ≤ n := by
  rw [Int64.le_iff_toInt_le, toInt_ofNat h]
  have hinvalid : invalidIndex.toInt = 4294967295 := by decide
  omega

theorem le_ofDigitChars (s : List Char) (v : ℕ) : v ≤ Nat.ofDigitChars 10 s v := by
  induction s generalizing v with
  | nil => simp
  | cons c s ih =>
    rw [Nat.ofDigitChars_cons]
    refine Nat.le_trans ?_ (ih _)
    omega

/-- The loop computes the value of the digits as long as it is an index. -/
theorem getIndexLoop_eq {v : ℕ} (hv : v < 4294967295) (s : List Char) :
    LoopFits (Int64.ofNat v) s ∧ getIndexLoop (Int64.ofNat v) s =
      if (∀ c ∈ s, isDigit c) ∧ Nat.ofDigitChars 10 s v < 4294967295
      then Int64.ofNat (Nat.ofDigitChars 10 s v) else invalidIndex := by
  induction s generalizing v with
  | nil => simp [LoopFits, getIndexLoop, hv]
  | cons c s ih =>
    rw [getIndexLoop, LoopFits, nextValue_ofNat, Nat.ofDigitChars_cons]
    cases hdigit : isDigit c with
    | false => simp [hdigit]
    | true =>
      have hd := toNat_sub_le hdigit
      generalize c.toNat - '0'.toNat = d at hd ⊢
      have hmul : Int64.ofNat v * 10 = Int64.ofNat (v * 10) := by
        rw [Int64.ofNat_mul]
        rfl
      have hlt : 10 * v + d < 2 ^ 63 := by omega
      have hle := le_ofDigitChars s (10 * v + d)
      rw [hmul, toInt_ofNat (by omega), toInt_ofNat (by omega), toInt_ofNat hlt]
      by_cases hindex : 4294967295 ≤ 10 * v + d
      · have hinvalid := (invalidIndex_le_iff hlt).mpr hindex
        have hnot : ¬ Nat.ofDigitChars 10 s (10 * v + d) < 4294967295 := by omega
        simp only [hinvalid, Int64.not_lt.mpr hinvalid, hnot, and_false, if_false, if_true]
        refine ⟨fun _ => ⟨?_, ?_, nofun⟩, by simp⟩ <;> omega
      · have hvalid := mt (invalidIndex_le_iff hlt).mp hindex
        obtain ⟨hfits, hloop⟩ := ih (Nat.lt_of_not_le hindex)
        simp only [hvalid, hfits, hloop, hdigit, List.forall_mem_cons]
        simp
        omega

theorem getIndex_of_head_ne {c : Char} (hc : c ≠ '0') (s : List Char) :
    getIndex (c :: s) = getIndexLoop 0 (c :: s) := by
  simp [getIndex, hc]

/-- `GetIndex` answers the number whose digits it reads. -/
theorem getIndex_cases (s : List Char) :
    (∃ n : ℕ, n < 4294967295 ∧ s = Nat.toDigits 10 n ∧ getIndex s = Int64.ofNat n) ∨
      (∀ n < 4294967295, s ≠ Nat.toDigits 10 n) ∧ getIndex s = invalidIndex := by
  cases s with
  | nil => exact .inr ⟨fun n _ h => Nat.toDigits_ne_nil h.symm, rfl⟩
  | cons c cs =>
    by_cases hc : c = '0'
    · subst hc
      cases cs with
      | nil => exact .inl ⟨0, by decide, by decide, by decide⟩
      | cons d ds =>
        refine .inr ⟨?_, rfl⟩
        intro n _ h
        rcases Nat.eq_zero_or_pos n with rfl | hn
        · simp at h
        · exact head?_toDigits hn (by rw [← h]; rfl)
    · rw [getIndex_of_head_ne hc]
      have hloop := (getIndexLoop_eq (v := 0) (by decide) (c :: cs)).2
      split at hloop
      · next hvalid =>
        obtain ⟨htext, -⟩ := toDigits_ofDigitChars hc hvalid.1
        exact .inl ⟨_, hvalid.2, htext.symm, hloop⟩
      · next hinvalid =>
        refine .inr ⟨?_, hloop⟩
        intro n hn h
        refine hinvalid ⟨?_, ?_⟩
        · intro d hd
          rw [h] at hd
          exact Nat.isDigit_of_mem_toDigits (by decide) (by decide) hd
        · rw [h, Nat.ofDigitChars_ten_toDigits]
          exact hn

theorem ofNat_ne_invalidIndex {n : ℕ} (h : n < 4294967295) : Int64.ofNat n ≠ invalidIndex := by
  intro heq
  have htoInt := congrArg Int64.toInt heq
  rw [toInt_ofNat (by omega)] at htoInt
  have hinvalid : invalidIndex.toInt = 4294967295 := by decide
  omega

theorem getIndex_ne_invalidIndex_iff (s : List Char) :
    getIndex s ≠ invalidIndex ↔ ∃ n : ℕ, n < 4294967295 ∧ s = Nat.toDigits 10 n := by
  rcases getIndex_cases s with ⟨n, hn, htext, hindex⟩ | ⟨hnone, hinvalid⟩
  · rw [hindex]
    exact iff_of_true (ofNat_ne_invalidIndex hn) ⟨n, hn, htext⟩
  · refine iff_of_false (not_not_intro hinvalid) ?_
    rintro ⟨n, hn, htext⟩
    exact hnone n hn htext

theorem getIndex_toDigits {n : ℕ} (h : n < 4294967295) :
    getIndex (Nat.toDigits 10 n) = Int64.ofNat n := by
  rcases getIndex_cases (Nat.toDigits 10 n) with ⟨m, -, htext, hindex⟩ | ⟨hnone, -⟩
  · have hvalue := congrArg (Nat.ofDigitChars 10 · 0) htext
    simp only [Nat.ofDigitChars_ten_toDigits] at hvalue
    rw [hindex, hvalue]
  · exact absurd rfl (hnone n h)

theorem exists_of_isIndex {q : ℚ} {h : IsDouble q} (hindex : isIndex (.finite q h)) :
    truncate q < 4294967295 ∧ q = (truncate q : ℕ) := by
  simp only [isIndex, Bool.and_eq_true, decide_eq_true_eq] at hindex
  obtain ⟨⟨-, hlt⟩, heq⟩ := hindex
  refine ⟨?_, heq.symm⟩
  rw [← heq] at hlt
  exact_mod_cast hlt

end Helpers

/-! ### The operand -/

theorem intText_ofNat {n : ℕ} (h : n < 4294967295) : intText (Int64.ofNat n) = Nat.toDigits 10 n := by
  have hvalue := toInt_ofNat (n := n) (by omega)
  have hnonneg : ¬ Int64.ofNat n < 0 := by
    rw [Int64.lt_iff_toInt_lt, hvalue, Int64.toInt_zero]
    omega
  rw [intText, if_neg hnonneg, hvalue, Int.toNat_natCast]

theorem intText_getIndex {s : List Char} (h : getIndex s ≠ invalidIndex) :
    intText (getIndex s) = s := by
  obtain ⟨n, hn, rfl⟩ := (getIndex_ne_invalidIndex_iff s).mp h
  rw [getIndex_toDigits hn, intText_ofNat hn]

theorem intText_truncate {q : ℚ} {h : IsDouble q} (hindex : isIndex (.finite q h)) :
    intText (Int64.ofNat (truncate q)) = (Double.finite q h).toString := by
  obtain ⟨hlt, heq⟩ := exists_of_isIndex hindex
  rw [intText_ofNat hlt]
  generalize truncate q = n at hlt heq
  subst heq
  exact (Double.toString_natCast (by omega) h).symm

namespace KeyLiteral

theorem denotes_of_vreg {lit : KeyLiteral} {isComputed : Bool}
    (h : toNamedPropertyKey lit.expression isComputed = .vreg) : lit.Denotes isComputed := by
  simp [Denotes, toPropertyKey, loadPropertyKey, h, KeyOperand.propertyKey]

theorem denotes_of_index {lit : KeyLiteral} {isComputed : Bool} {i : Int64}
    (h : toNamedPropertyKey lit.expression isComputed = .index i) :
    lit.Denotes isComputed ↔ some (intText i) = lit.value.propertyKey := by
  simp [Denotes, toPropertyKey, loadPropertyKey, h, KeyOperand.propertyKey, KeyValue.propertyKey]

theorem denotes_of_name {lit : KeyLiteral} {isComputed : Bool} {str : List Char}
    (h : toNamedPropertyKey lit.expression isComputed = .name str) :
    lit.Denotes isComputed ↔ some str = lit.value.propertyKey := by
  simp [Denotes, toPropertyKey, loadPropertyKey, h, KeyOperand.propertyKey, KeyValue.propertyKey]

theorem denotes_false (lit : KeyLiteral) : lit.Denotes false := by
  apply denotes_of_vreg
  cases lit <;> rfl

theorem toNamedPropertyKey_string (str : List Char) :
    toNamedPropertyKey (string str).expression true =
      if str = "__proto__".toList then .vreg
      else if getIndex str ≠ invalidIndex then .index (getIndex str) else .name str := by
  rfl

theorem denotes_string (str : List Char) : (string str).Denotes true := by
  have hkey := toNamedPropertyKey_string str
  split at hkey
  · exact denotes_of_vreg hkey
  · split at hkey
    · next hindex => exact (denotes_of_index hkey).mpr (congrArg some (intText_getIndex hindex))
    · exact (denotes_of_name hkey).mpr rfl

theorem denotes_number_of_isIndex {n : Double} (str : List Char) (h : isIndex n = true) :
    (number n str).Denotes true := by
  cases n with
  | infinity => cases h
  | finite q hq =>
    have hkey : toNamedPropertyKey (number (.finite q hq) str).expression true =
        .index (Int64.ofNat (truncate q)) := by
      simp [expression, toNamedPropertyKey, h]
    exact (denotes_of_index hkey).mpr (congrArg some (intText_truncate h))

theorem toNamedPropertyKey_number {n : Double} (str : List Char) (h : isIndex n = false) :
    toNamedPropertyKey (number n str).expression true = .name str := by
  cases n with
  | infinity => rfl
  | finite q hq => simp [expression, toNamedPropertyKey, h]

theorem denotes_number_iff {n : Double} (str : List Char) (h : isIndex n = false) :
    (number n str).Denotes true ↔ str = n.toString := by
  rw [denotes_of_name (toNamedPropertyKey_number str h)]
  exact Option.some_inj

theorem denotes_iff (lit : KeyLiteral) (isComputed : Bool) :
    lit.Denotes isComputed ↔ lit.handled isComputed := by
  cases isComputed with
  | false =>
    refine iff_of_true lit.denotes_false ?_
    cases lit with
    | string str => trivial
    | number n str => exact fun h => nomatch h
  | true =>
    cases lit with
    | string str => exact iff_of_true (denotes_string str) trivial
    | number n str =>
      cases hindex : isIndex n with
      | true =>
        refine iff_of_true (denotes_number_of_isIndex str hindex) ?_
        intro _ hfalse
        rw [hindex] at hfalse
        cases hfalse
      | false =>
        rw [denotes_number_iff str hindex]
        simp [handled, hindex]

/-- A key denotes its property unless it is a number in brackets that is no index and is not written
as ECMAScript writes it. A string is an index exactly if it is the decimal of one, and `GetIndex` stays
within its 64 bits. -/
theorem denotes_and_getIndex (lit : KeyLiteral) (isComputed : Bool) (s : List Char) :
    (lit.Denotes isComputed ↔ lit.handled isComputed) ∧ LoopFits 0 s ∧
      (getIndex s ≠ invalidIndex ↔ ∃ n : ℕ, n < 4294967295 ∧ s = Nat.toDigits 10 n) ∧
      ∀ n : ℕ, n < 4294967295 → s = Nat.toDigits 10 n → getIndex s = Int64.ofNat n := by
  refine ⟨denotes_iff lit isComputed, (getIndexLoop_eq (v := 0) (by decide) s).1, getIndex_ne_invalidIndex_iff s, ?_⟩
  rintro n hn rfl
  exact getIndex_toDigits hn

theorem isDouble_half : IsDouble (1 / 2) := ⟨1, -1, by decide, by decide, by decide, by norm_num⟩

/-- `o[.5]` and `o[0.5]` are two properties, and the first is not the one of ECMAScript. -/
theorem half_not_denotes :
    ¬ (number (.finite (1 / 2) isDouble_half) ".5".toList).Denotes true ∧
      (toPropertyKey (number (.finite (1 / 2) isDouble_half) ".5".toList) true).1 ≠
        (toPropertyKey (number (.finite (1 / 2) isDouble_half) "0.5".toList) true).1 := by
  have hindex : isIndex (.finite (1 / 2) isDouble_half) = false := by
    have hfloor : ⌊(1 / 2 : ℚ)⌋ = 0 := by norm_num
    have hne : ¬ ((truncate (1 / 2) : ℕ) : ℚ) = 1 / 2 := by
      rw [truncate, hfloor]
      norm_num
    rw [isIndex, decide_eq_false hne, Bool.and_false]
  have hkey : ∀ str, (toPropertyKey (number (.finite (1 / 2) isDouble_half) str) true).1 =
      .name str := by
    intro str
    rw [toPropertyKey, toNamedPropertyKey_number str hindex]
  constructor
  · rw [denotes_number_iff _ hindex]
    intro htext
    apply (Double.finite (1 / 2) isDouble_half).head?_toString
    rw [← htext]
    rfl
  · rw [hkey, hkey]
    decide

end KeyLiteral

end ArkTs2abc.Es2panda
