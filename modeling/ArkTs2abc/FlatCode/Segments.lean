import ArkTs2abc.FlatCode.Fragment

/-!
# Stretches of flat code marked out by pairs of labels

A range that code is cut out of again is described by a list of label pairs, each
of which covers the positions from its first label to before its second one.
`Segments` says how such a list comes about while code is laid down: it starts at a
label that is open, a gap closes the open pair and opens the next one.

When every label is placed once, the pairs cover what lies outside of the gaps,
and they stand in the order of the code and do not overlap.

## Main definitions

* `LabelPair`, `LabelPair.Covers` — a pair of labels and the positions between them.
* `Segments` — code laid down under an open pair.
* `InOrder` — pairs that follow each other.
* `PlacedOnce` — no label stands at two positions.

## Main results

* `Segments.covers_iff` — what the pairs cover.
* `Segments.inOrder` — they are in order and disjoint.
-/

namespace FlatCode

/-- The stretch between two labels. -/
structure LabelPair (α : Type) where
  beginLabel : Label α
  endLabel : Label α
  deriving DecidableEq, Repr

variable {ι α τ : Type}

/-- The position lies in the stretch. -/
def LabelPair.Covers (code : List (Point ι α τ)) (pair : LabelPair α) (pc : ℕ) : Prop :=
  ∃ i j, nodeAt code i = some (.label pair.beginLabel) ∧
    nodeAt code j = some (.label pair.endLabel) ∧ i ≤ pc ∧ pc < j

/-- The first stretch ends where the second one begins, or before. -/
def LabelPair.Before (code : List (Point ι α τ)) (pair pair' : LabelPair α) : Prop :=
  ∃ i j, nodeAt code i = some (.label pair.endLabel) ∧
    nodeAt code j = some (.label pair'.beginLabel) ∧ i ≤ j

/-- The pairs stand in the order of the code, one after the other, and none is empty. -/
def InOrder (code : List (Point ι α τ)) (pairs : List (LabelPair α)) : Prop :=
  pairs.Pairwise (LabelPair.Before code) ∧ ∀ pair ∈ pairs, ∃ pc, pair.Covers code pc

/-- No label stands at two positions. -/
def PlacedOnce (code : List (Point ι α τ)) : Prop :=
  ∀ i j l l', nodeAt code i = some (.label l) → nodeAt code j = some (.label l') → l.id = l'.id →
    i = j

/-- `Segments In l c ps l'`: while `c` is laid down, the pair that is open from `l` on is closed
and opened again around what is not `In`; `ps` are the pairs closed, and the last one is open
from `l'` on. -/
inductive Segments (In : Point ι α τ → Prop) :
    Label α → List (Point ι α τ) → List (LabelPair α) → Label α → Prop where
  | nil {l} : Segments In l [] [] l
  | point {l p c ps l'} : In p → Segments In l c ps l' → Segments In l (p :: c) ps l'
  | gap {l x y lx ly g c ps l'} : x.node = .label lx → ¬ In x → (∀ p ∈ g, ¬ In p) →
      y.node = .label ly → In y → Segments In ly c ps l' →
      Segments In l (x :: (g ++ y :: c)) (⟨l, lx⟩ :: ps) l'

namespace Segments

variable {In : Point ι α τ → Prop} {l l' l'' : Label α} {c c' : List (Point ι α τ)}
  {ps ps' : List (LabelPair α)}

theorem append (h : Segments In l c ps l') (h' : Segments In l' c' ps' l'') :
    Segments In l (c ++ c') (ps ++ ps') l'' := by
  induction h with
  | nil => exact h'
  | point hp _ ih => exact .point hp (ih h')
  | @gap l x y lx ly g c ps l' hx hx' hg hy hy' _ ih =>
    rw [List.cons_append, List.append_assoc, List.cons_append, List.cons_append]
    exact .gap hx hx' hg hy hy' (ih h')

end Segments

theorem LabelPair.covers_iff {code : List (Point ι α τ)} (honce : PlacedOnce code)
    {pair : LabelPair α} {i j pc : ℕ} (hi : nodeAt code i = some (.label pair.beginLabel))
    (hj : nodeAt code j = some (.label pair.endLabel)) : pair.Covers code pc ↔ i ≤ pc ∧ pc < j := by
  constructor
  · rintro ⟨i', j', hi', hj', hle, hlt⟩
    obtain rfl : i' = i := honce _ _ _ _ hi' hi rfl
    obtain rfl : j' = j := honce _ _ _ _ hj' hj rfl
    exact ⟨hle, hlt⟩
  · rintro ⟨hle, hlt⟩
    exact ⟨i, j, hi, hj, hle, hlt⟩

/-- The point at the position is `In`. -/
def InAt (code : List (Point ι α τ)) (In : Point ι α τ → Prop) (pc : ℕ) : Prop :=
  ∃ p, code[pc]? = some p ∧ In p

/-- `Segments` by positions: the pairs `ps` lead from the position `i` of `l` to that of `l'`. -/
inductive Spans (code : List (Point ι α τ)) (In : Point ι α τ → Prop) :
    ℕ → Label α → List (LabelPair α) → ℕ → Label α → Prop where
  | nil {k l} : nodeAt code k = some (.label l) → Spans code In k l [] k l
  | cons {i j m k l lx ly ps l'} : nodeAt code i = some (.label l) →
      nodeAt code j = some (.label lx) → i < j → j < m →
      (∀ pc, i ≤ pc → pc < j → InAt code In pc) → (∀ pc, j ≤ pc → pc < m → ¬ InAt code In pc) →
      Spans code In m ly ps k l' → Spans code In i l (⟨l, lx⟩ :: ps) k l'

section Positions

variable {code : List (Point ι α τ)} {In : Point ι α τ → Prop} {i k m : ℕ} {l l' last : Label α}
  {ps : List (LabelPair α)} {post pre c : List (Point ι α τ)}

theorem inAt_append_cons {p : Point ι α τ} :
    InAt (pre ++ p :: post) In pre.length ↔ In p := by
  simp [InAt]

theorem nodeAt_append_cons {p : Point ι α τ} :
    nodeAt (pre ++ p :: post) pre.length = some p.node := by
  simp [nodeAt]

theorem Spans.le (h : Spans code In i l ps k l') : i ≤ k := by
  induction h with
  | nil => exact Nat.le_refl _
  | cons _ _ hij hjm _ _ _ ih => omega

theorem Spans.exists_begin (h : Spans code In i l ps k l') {pair : LabelPair α}
    (hpair : pair ∈ ps ++ [⟨l', last⟩]) :
    ∃ j, nodeAt code j = some (.label pair.beginLabel) ∧ i ≤ j := by
  induction h with
  | nil h =>
    obtain rfl : pair = ⟨_, last⟩ := by simpa using hpair
    exact ⟨_, h, Nat.le_refl _⟩
  | cons hi hj hij hjm _ _ _ ih =>
    rcases List.mem_cons.mp hpair with rfl | hpair
    · exact ⟨_, hi, Nat.le_refl _⟩
    · obtain ⟨b, hb, hmb⟩ := ih hpair
      exact ⟨b, hb, by omega⟩

theorem Spans.covers_iff (honce : PlacedOnce code) (h : Spans code In i l ps k l')
    (hm : nodeAt code m = some (.label last)) (hkm : k ≤ m)
    (hin : ∀ pc, k ≤ pc → pc < m → InAt code In pc) (pc : ℕ) :
    (∃ pair ∈ ps ++ [⟨l', last⟩], pair.Covers code pc) ↔ i ≤ pc ∧ pc < m ∧ InAt code In pc := by
  induction h with
  | nil hk =>
    simp only [List.nil_append, List.mem_singleton, exists_eq_left]
    rw [LabelPair.covers_iff honce hk hm]
    exact ⟨fun ⟨h₁, h₂⟩ => ⟨h₁, h₂, hin pc h₁ h₂⟩, fun ⟨h₁, h₂, _⟩ => ⟨h₁, h₂⟩⟩
  | @cons i j m' k l lx ly ps l' hi hj hij hjm hyes hno hs ih =>
    have hle := hs.le
    simp only [List.cons_append, List.mem_cons, exists_eq_or_imp]
    rw [LabelPair.covers_iff honce hi hj, ih hkm hin]
    constructor
    · rintro (⟨h₁, h₂⟩ | ⟨h₁, h₂, h₃⟩)
      · exact ⟨h₁, by omega, hyes pc h₁ h₂⟩
      · exact ⟨by omega, h₂, h₃⟩
    · rintro ⟨h₁, h₂, h₃⟩
      by_cases hpj : pc < j
      · exact .inl ⟨h₁, hpj⟩
      · refine .inr ⟨?_, h₂, h₃⟩
        by_contra hpm
        exact hno pc (Nat.not_lt.mp hpj) (Nat.not_le.mp hpm) h₃

theorem Spans.inOrder (h : Spans code In i l ps k l') (hm : nodeAt code m = some (.label last))
    (hkm : k < m) : InOrder code (ps ++ [⟨l', last⟩]) := by
  induction h with
  | nil hk =>
    refine ⟨List.pairwise_singleton _ _, fun pair hpair => ?_⟩
    obtain rfl := List.mem_singleton.mp hpair
    exact ⟨_, _, _, hk, hm, Nat.le_refl _, hkm⟩
  | cons hi hj hij hjm _ _ hs ih =>
    obtain ⟨hpw, hne⟩ := ih hkm
    refine ⟨List.pairwise_cons.mpr ⟨fun pair hpair => ?_, hpw⟩, fun pair hpair => ?_⟩
    · obtain ⟨b, hb, hmb⟩ := hs.exists_begin hpair
      exact ⟨_, b, hj, hb, by omega⟩
    · rcases List.mem_cons.mp hpair with rfl | hpair
      · exact ⟨_, _, _, hi, hj, Nat.le_refl _, hij⟩
      · exact hne pair hpair

section

variable (h : Segments In l c ps l')
include h

/-- Where the pairs of `Segments` stand. -/
theorem Segments.spans (hcode : code = pre ++ (c ++ post))
    (hi : nodeAt code i = some (.label l)) (hle : i < pre.length)
    (hin : ∀ pc, i ≤ pc → pc < pre.length → InAt code In pc) :
    ∃ k, Spans code In i l ps k l' ∧ k < pre.length + c.length ∧
      ∀ pc, k ≤ pc → pc < pre.length + c.length → InAt code In pc := by
  induction h generalizing pre i with
  | nil => exact ⟨i, .nil hi, hle, hin⟩
  | @point l p c ps l' hp _ ih =>
    have hpre : (pre ++ [p]).length = pre.length + 1 := List.length_append
    have hat : InAt code In pre.length := by
      rw [hcode, List.cons_append]
      exact inAt_append_cons.mpr hp
    obtain ⟨k, hs, hk, hin'⟩ := @ih i (pre ++ [p]) (by simp [hcode]) hi (by omega) fun pc h₁ h₂ => by
      rcases Nat.lt_or_ge pc pre.length with hlt | hge
      · exact hin pc h₁ hlt
      · obtain rfl : pc = pre.length := by omega
        exact hat
    have hlen : (pre ++ [p]).length + c.length = pre.length + (p :: c).length := by grind
    exact ⟨k, hs, hlen ▸ hk, hlen ▸ hin'⟩
  | @gap l x y lx ly g c ps l' hx hx' hg hy hy' _ ih =>
    have hcode' : code = (pre ++ x :: g) ++ y :: (c ++ post) := by simp [hcode]
    have hpre : (pre ++ x :: g).length = pre.length + 1 + g.length := by grind
    have hmid : nodeAt code (pre ++ x :: g).length = some (.label ly) := by
      rw [hcode', nodeAt_append_cons, hy]
    have hno (pc : ℕ) (h₁ : pre.length ≤ pc) (h₂ : pc < (pre ++ x :: g).length) :
        ¬ InAt code In pc := by
      rintro ⟨p, hp, hpin⟩
      have hmem : p ∈ x :: g := by
        rw [hcode', List.getElem?_append_left h₂, List.getElem?_append_right h₁] at hp
        exact List.mem_of_getElem? hp
      rcases List.mem_cons.mp hmem with rfl | hmem
      · exact hx' hpin
      · exact hg p hmem hpin
    obtain ⟨k, hs, hk, hin'⟩ := @ih _ (pre ++ x :: g ++ [y]) (by simp [hcode]) hmid (by simp)
      fun pc h₁ h₂ => by
        obtain rfl : pc = (pre ++ x :: g).length := by grind
        rw [hcode']
        exact inAt_append_cons.mpr hy'
    have hlen : ((pre ++ x :: g) ++ [y]).length + c.length =
        pre.length + (x :: (g ++ y :: c)).length := by grind
    refine ⟨k, .cons hi ?_ hle (by omega) hin hno hs, hlen ▸ hk, hlen ▸ hin'⟩
    rw [hcode, List.cons_append, nodeAt_append_cons, hx]

section

variable {b e : Point ι α τ} (hb : b.node = .label l) (hb' : In b) (he : e.node = .label last)
include hb hb' he

theorem Segments.stretch (hcode : code = pre ++ b :: (c ++ e :: post)) :
    nodeAt code pre.length = some (.label l) ∧
      nodeAt code (pre.length + 1 + c.length) = some (.label last) ∧
      ∃ k, Spans code In pre.length l ps k l' ∧ k < pre.length + 1 + c.length ∧
        ∀ pc, k ≤ pc → pc < pre.length + 1 + c.length → InAt code In pc := by
  have hlen : (pre ++ [b]).length = pre.length + 1 := List.length_append
  have hbegin : nodeAt code pre.length = some (.label l) := by
    rw [hcode, nodeAt_append_cons, hb]
  have hend : nodeAt code (pre ++ [b] ++ c).length = some (.label last) := by
    rw [show code = (pre ++ [b] ++ c) ++ e :: post by simp [hcode], nodeAt_append_cons, he]
  rw [List.length_append, hlen] at hend
  have hcode' : code = (pre ++ [b]) ++ (c ++ (e :: post)) := by simp [hcode]
  refine ⟨hbegin, hend, hlen ▸ h.spans hcode' hbegin (by simp) fun pc h₁ h₂ => ?_⟩
  obtain rfl : pc = pre.length := by omega
  rw [hcode]
  exact inAt_append_cons.mpr hb'

/-- The pairs cover what is `In` between the first label and the last one. -/
theorem Segments.covers_iff (hout : ∀ p ∈ pre ++ e :: post, ¬ In p)
    (hcode : code = pre ++ b :: (c ++ e :: post)) (honce : PlacedOnce code) (pc : ℕ) :
    (∃ pair ∈ ps ++ [⟨l', last⟩], pair.Covers code pc) ↔ InAt code In pc := by
  obtain ⟨hbegin, hend, k, hs, hk, hin⟩ := h.stretch hb hb' he hcode
  rw [hs.covers_iff honce hend (Nat.le_of_lt hk) hin]
  refine ⟨fun h => h.2.2, fun hpc => ?_⟩
  obtain ⟨p, hp, hpin⟩ := hpc
  refine ⟨?_, ?_, p, hp, hpin⟩ <;> by_contra hlt
  · refine hout p ?_ hpin
    rw [hcode, List.getElem?_append_left (Nat.not_le.mp hlt)] at hp
    exact List.mem_append_left _ (List.mem_of_getElem? hp)
  · refine hout p ?_ hpin
    have hcode' : code = (pre ++ b :: c) ++ e :: post := by simp [hcode]
    have hlen : (pre ++ b :: c).length ≤ pc := by grind
    rw [hcode', List.getElem?_append_right hlen] at hp
    exact List.mem_append_right _ (List.mem_of_getElem? hp)

theorem Segments.inOrder (hcode : code = pre ++ b :: (c ++ e :: post)) :
    InOrder code (ps ++ [⟨l', last⟩]) := by
  obtain ⟨hbegin, hend, k, hs, hk, -⟩ := h.stretch hb hb' he hcode
  exact hs.inOrder hend hk

end

end

end Positions

end FlatCode
