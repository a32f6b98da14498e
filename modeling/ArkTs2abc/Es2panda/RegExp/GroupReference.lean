import ArkTs2abc.Es2panda.RegExp.BracedQuantifier

/-!
# References to groups

A reference counts by the groups of the whole pattern. The parser knows the groups that it has
opened before the reference, and keeps 32 bits of the number of a decimal escape.

## Main definitions

* `RegExpParser.capturingGroups` — the groups of a pattern, by its text alone.
* `RegExpParser.DecimalRight`, `RegExpParser.NamedRight` — the parser judges a reference by them.

## Main results

* `RegExpParser.references_right_iff` — the patterns on which it does.
-/

namespace ArkTs2abc.Es2panda.RegExpParser

open Relation
open Lexer (isDecimalDigit)
open WrappedDigits (accumulate number residue Falls push)

/-! ## The groups of a pattern -/

/-- Whether a parenthesis before a text captures: there is no question mark, or a name. -/
def capturesBefore : List Char → Bool
  | '?' :: '<' :: c :: _ => c ≠ '=' ∧ c ≠ '!'
  | '?' :: _ => false
  | _ => true

/-- The texts behind the parentheses that capture, outside of classes. -/
def capturingGroups : (isCharClass : Bool) → List Char → List (List Char)
  | _, [] => []
  | isCharClass, '\\' :: iter =>
    match iter with
    | [] => []
    | _ :: iter => capturingGroups isCharClass iter
  | isCharClass, c :: iter =>
    (if c = '(' ∧ isCharClass = false ∧ capturesBefore iter then [iter] else []) ++
      capturingGroups (classAfter isCharClass c) iter

/-- The name before a group that has one. -/
def namesGroup : List Char → Bool
  | '?' :: '<' :: _ => true
  | _ => false

variable (p : RegExpParser)

/-- A name is that of a group of the pattern. -/
def IsGroupName (pattern : List Char) (name : List UInt8) : Prop :=
  ∃ text ∈ capturingGroups false pattern, namesGroup text = true ∧
    ∃ n rest, p.parseIdent n (text.drop 2) = .ok (name, rest)

/-- Before a number without a leading zero: the escape is accepted just if there are so many groups. -/
def DecimalRight (pattern : List Char) (s : State) : Prop :=
  ∀ ds rest, s.iter = '\\' :: (ds ++ rest) → DigitText ds → ds.head? ≠ some '0' →
    isDecimalDigit (next rest).1 = false →
    ((∃ n s', p.parseAtomEscape n s.skip = .ok s') ↔ number ds ≤ (capturingGroups false pattern).length)

/-- Before `\k`: a name is read, and accepted just if a group has it. -/
def NamedRight (pattern : List Char) (s : State) : Prop :=
  ∀ iter, s.iter = '\\' :: 'k' :: iter → ∀ s', (∃ n, p.parseAtomEscape n s.skip = .ok s') ↔
    ∃ n name rest, iter.head? = some '<' ∧ p.parseIdent n iter.tail = .ok (name, rest) ∧
      p.IsGroupName pattern name ∧ s' = s.at rest

/-- The parser judges all references that it comes to by the groups of the whole pattern. -/
def ReferencesRight (pattern : List Char) : Prop :=
  ∀ c, p.Reaches pattern c →
    (p.unicode = true → p.DecimalRight pattern c.state) ∧
    (p.unicode = true ∨ (∃ text ∈ capturingGroups false pattern, namesGroup text = true) →
      p.NamedRight pattern c.state)

/-! ## Decimal escapes -/

/-- The number counts as that of one of the groups opened so far. -/
def CountsAsOpened (count : ℕ) (ds : List Char) : Prop := ¬ Falls 32 ds ∧ residue 32 ds ≤ count

theorem decimalDigits_append {ds rest : List Char} (v : ℕ) (hds : ∀ c ∈ ds, isDecimalDigit c.toNat = true)
    (hrest : isDecimalDigit (next rest).1 = false) : decimalDigits v (ds ++ rest) =
      match accumulate 32 v ds with
      | none => .error "Invalid decimal escape"
      | some value => .ok (value, rest) := by
  induction ds generalizing v with
  | nil =>
    cases rest with
    | nil => rfl
    | cons c rest =>
      rw [List.nil_append, decimalDigits, isDecimalDigit_peek, hrest, if_neg Bool.false_ne_true]
      rfl
  | cons c ds ih =>
    obtain ⟨hc, hds⟩ := List.forall_mem_cons.mp hds
    rw [List.cons_append, decimalDigits, isDecimalDigit_peek, next_fst, if_pos hc, accumulate,
      List.foldlM_cons, push]
    dsimp only
    rw [uint32, digitValue]
    split
    · rfl
    · exact ih _ hds

theorem digitValue_bounds {c : Char} (hc : isDecimalDigit c.toNat = true) (hzero : c ≠ '0') :
    0 < digitValue c.toNat ∧ digitValue c.toNat ≤ 9 := by
  have hne := Lexer.toNat_ne hzero
  simp only [isDecimalDigit, decide_eq_true_eq] at hc
  have hnine : '9'.toNat = 57 := rfl
  have hzero : '0'.toNat = 48 := rfl
  rw [digitValue]
  omega

/-- In Unicode mode a decimal escape is read just if its number counts as opened. -/
theorem parseDecimalEscape_ok_iff {count : ℕ} {ds rest : List Char} (hds : DigitText ds)
    (hzero : ds.head? ≠ some '0') (hrest : isDecimalDigit (next rest).1 = false) :
    (∃ x, parseDecimalEscape true count (ds ++ rest) = .ok x) ↔ CountsAsOpened count ds := by
  obtain ⟨c, ds, rfl⟩ := List.exists_cons_of_ne_nil hds.ne_nil
  obtain ⟨hc, hdigits⟩ := List.forall_mem_cons.mp hds.digits
  obtain ⟨hpos, hle⟩ := digitValue_bounds hc (by simpa using hzero)
  have hfirst : accumulate 32 0 (c :: ds) = accumulate 32 (digitValue c.toNat) ds := by
    have hpush : push 32 0 c = some (digitValue c.toNat) := by
      have hmod : (0 * 10 + (c.toNat - '0'.toNat)) % 2 ^ 32 = digitValue c.toNat := by
        rw [Nat.zero_mul, Nat.zero_add, ← digitValue]
        exact Nat.mod_eq_of_lt (by omega)
      rw [push, hmod]
      rfl
    rw [accumulate, List.foldlM_cons, hpush]
    rfl
  have hvalue := WrappedDigits.accumulate_eq (c :: ds) |>.symm.trans hfirst
  rw [List.cons_append, parseDecimalEscape]
  dsimp only
  rw [next_fst, if_neg (by omega), skip_cons, decimalDigits_append _ hdigits hrest, ← hvalue, CountsAsOpened]
  by_cases hfalls : Falls 32 (c :: ds)
  · rw [if_pos hfalls]
    refine iff_of_false ?_ fun h => h.1 hfalls
    rintro ⟨x, hx⟩
    cases hx
  · rw [if_neg hfalls]
    by_cases hcount : residue 32 (c :: ds) ≤ count
    · exact iff_of_true ⟨_, if_pos hcount⟩ ⟨hfalls, hcount⟩
    · refine iff_of_false ?_ fun h => hcount h.2
      rintro ⟨x, hx⟩
      have herror : (if residue 32 (c :: ds) ≤ count then (.ok (residue 32 (c :: ds), rest) :
          Except String (ℕ × List Char)) else .error "Invalid decimal escape") = .ok x := hx
      rw [if_neg hcount] at herror
      cases herror

variable {p}

/-- Before a number: it counts as opened just if the pattern has so many groups. -/
def NumberOpened (pattern : List Char) (s : State) : Prop :=
  ∀ ds rest, s.iter = '\\' :: (ds ++ rest) → DigitText ds → ds.head? ≠ some '0' →
    isDecimalDigit (next rest).1 = false →
    (CountsAsOpened s.capturingGroupCount ds ↔ number ds ≤ (capturingGroups false pattern).length)

theorem decimalRight_iff (hunicode : p.unicode = true) (pattern : List Char) (s : State) :
    p.DecimalRight pattern s ↔ NumberOpened pattern s := by
  refine forall₂_congr fun ds rest => forall_congr' fun hiter => forall_congr' fun hds =>
    forall_congr' fun hzero => forall_congr' fun hrest => ?_
  rw [← parseDecimalEscape_ok_iff hds hzero hrest]
  have hskip : s.skip.iter = ds ++ rest := by rw [State.skip_iter, hiter, skip_cons]
  have hread (n : ℕ) : p.parseAtomEscape n s.skip =
      (Outcome.ofExcept (parseDecimalEscape true s.capturingGroupCount (ds ++ rest))).bind
        fun x => .ok (s.skip.at x.2) := by
    rw [parseAtomEscape]
    dsimp only
    rw [hskip, isDecimalDigit_peek, hds.first, if_pos rfl, hunicode]
    rfl
  refine iff_congr ?_ Iff.rfl
  constructor
  · rintro ⟨n, s', h⟩
    rw [hread n] at h
    obtain ⟨x, hx, -⟩ := Outcome.bind_eq_ok.mp h
    exact ⟨x, Outcome.ofExcept_eq_ok.mp hx⟩
  · rintro ⟨x, hx⟩
    exact ⟨0, s.skip.at x.2, by rw [hread, hx]; rfl⟩

/-! ## Named references -/

theorem parseIdent_unique {n m : ℕ} {iter : List Char} {x y : List UInt8 × List Char}
    (hn : p.parseIdent n iter = .ok x) (hm : p.parseIdent m iter = .ok y) : x = y := by
  have hmono {n m : ℕ} (h : n ≤ m) : Outcome.Below (p.parseIdent n iter) (p.parseIdent m iter) :=
    Outcome.Below.of_succ (f := fun n => p.parseIdent n iter) (fun _ => p.below_parseIdent iter) h
  rcases Nat.le_total n m with h | h
  · have heq := (hmono h).eq (by simp [hn])
    exact Outcome.ok.inj (hn.symm.trans (heq.symm.trans hm))
  · have heq := (hmono h).eq (by simp [hm])
    exact (Outcome.ok.inj (hm.symm.trans (heq.symm.trans hn))).symm

theorem parseAtomEscape_k {s : State} {iter : List Char} (hiter : s.iter = '\\' :: 'k' :: iter) (n : ℕ) :
    p.parseAtomEscape n s.skip = p.parseNamedBackreference n (s.at iter) := by
  have hskip : s.skip.iter = 'k' :: iter := by rw [State.skip_iter, hiter, skip_cons]
  have hpeek : peek ('k' :: iter) = 'k'.toNat := peek_ascii (by decide) iter
  have hstate : s.skip.skip = s.at iter := by
    rw [State.skip, hskip]
    rfl
  rw [parseAtomEscape]
  dsimp only
  rw [hskip, hpeek, if_neg (by decide), if_neg (by decide), if_neg (by decide), if_pos rfl, hstate]

theorem parseNamedBackreference_ok_iff {n : ℕ} {s s' : State} {iter : List Char} (hnames : s.groupNames ≠ []) :
    p.parseNamedBackreference n (s.at iter) = .ok s' ↔ ∃ name rest, iter.head? = some '<' ∧
      p.parseIdent n iter.tail = .ok (name, rest) ∧ name ∈ s.groupNames ∧ s' = s.at rest := by
  rw [parseNamedBackreference, State.at_names, if_neg hnames, State.at_iter]
  by_cases hless : iter.head? = some '<'
  · obtain ⟨iter, rfl⟩ := List.head?_eq_some_iff.mp hless
    rw [if_neg (not_not.mpr (next_fst '<' iter)), skip_cons, List.tail_cons, Outcome.bind_eq_ok]
    constructor
    · rintro ⟨⟨name, rest⟩, hname, h⟩
      dsimp only at h
      split_ifs at h with hmem
      exact ⟨name, rest, rfl, hname, hmem, (Outcome.ok.inj h).symm⟩
    · rintro ⟨name, rest, -, hname, hmem, rfl⟩
      exact ⟨(name, rest), hname, if_pos hmem⟩
  · rw [if_pos (mt (next_eq_iff iter).mp hless)]
    refine iff_of_false (by simp) ?_
    rintro ⟨name, rest, hhead, -⟩
    exact hless hhead

variable (p) in
/-- Before `\k`: some name is known, and the one behind it just if the pattern has a group of it. -/
def NameOpened (pattern : List Char) (s : State) : Prop :=
  ∀ iter, s.iter = '\\' :: 'k' :: iter → s.groupNames ≠ [] ∧
    ∀ n name rest, iter.head? = some '<' → p.parseIdent n iter.tail = .ok (name, rest) →
      (name ∈ s.groupNames ↔ p.IsGroupName pattern name)

theorem namedRight_iff (hp : p.Library) (pattern : List Char) (s : State) :
    p.NamedRight pattern s ↔ p.NameOpened pattern s := by
  refine forall₂_congr fun iter hiter => ?_
  have hread := parseAtomEscape_k (p := p) hiter
  constructor
  · intro h
    have hnames : s.groupNames ≠ [] := by
      intro hnil
      have hidentity : p.parseAtomEscape 0 s.skip = .ok (s.at iter) := by
        rw [hread, parseNamedBackreference, State.at_names, if_pos hnil]
      obtain ⟨n, name, rest, hhead, hname, -, heq⟩ := (h (s.at iter)).mp ⟨0, hidentity⟩
      have hkeeps : Keeps p.unicode false iter.tail rest := keeps_parseIdent hp hname
      have hlength := hkeeps.length_le
      obtain ⟨tail, rfl⟩ := List.head?_eq_some_iff.mp hhead
      obtain rfl : '<' :: tail = rest := congrArg State.iter heq
      simp at hlength
    refine ⟨hnames, fun n name rest hhead hname => ?_⟩
    constructor
    · intro hmem
      have hok : p.parseAtomEscape n s.skip = .ok (s.at rest) := by
        rw [hread]
        exact (parseNamedBackreference_ok_iff hnames).mpr ⟨name, rest, hhead, hname, hmem, rfl⟩
      obtain ⟨m, name', rest', -, hname', hgroup, -⟩ := (h (s.at rest)).mp ⟨n, hok⟩
      rwa [(Prod.mk.inj (parseIdent_unique hname hname')).1]
    · intro hgroup
      obtain ⟨m, hok⟩ := (h (s.at rest)).mpr ⟨n, name, rest, hhead, hname, hgroup, rfl⟩
      rw [hread] at hok
      obtain ⟨name', rest', -, hname', hmem, -⟩ := (parseNamedBackreference_ok_iff hnames).mp hok
      rwa [(Prod.mk.inj (parseIdent_unique hname hname')).1]
  · rintro ⟨hnames, hsame⟩ s'
    constructor
    · rintro ⟨n, hok⟩
      rw [hread] at hok
      obtain ⟨name, rest, hhead, hname, hmem, rfl⟩ := (parseNamedBackreference_ok_iff hnames).mp hok
      exact ⟨n, name, rest, hhead, hname, (hsame n name rest hhead hname).mp hmem, rfl⟩
    · rintro ⟨n, name, rest, hhead, hname, hgroup, rfl⟩
      refine ⟨n, ?_⟩
      rw [hread]
      exact (parseNamedBackreference_ok_iff hnames).mpr
        ⟨name, rest, hhead, hname, (hsame n name rest hhead hname).mpr hgroup, rfl⟩

/-- The references are judged right just if at each that the parser comes to a group counts as opened
where it is one of the pattern. -/
theorem references_right_iff (hp : p.Library) (pattern : List Char) :
    p.ReferencesRight pattern ↔ ∀ c, p.Reaches pattern c →
      (p.unicode = true → NumberOpened pattern c.state) ∧
      (p.unicode = true ∨ (∃ text ∈ capturingGroups false pattern, namesGroup text = true) →
        p.NameOpened pattern c.state) := by
  refine forall₂_congr fun c _ => and_congr ?_ ?_
  · exact forall_congr' fun hunicode => decimalRight_iff hunicode pattern c.state
  · exact forall_congr' fun _ => namedRight_iff hp pattern c.state

/-- The pattern `()\1`. -/
def backwardReference : List Char := ['(', ')', '\\', '1']

theorem references_right_backward : (asciiParser true).ReferencesRight backwardReference ↔
    ∀ c, (asciiParser true).Reaches backwardReference c →
      ((asciiParser true).unicode = true → NumberOpened backwardReference c.state) ∧
      ((asciiParser true).unicode = true ∨
        (∃ text ∈ capturingGroups false backwardReference, namesGroup text = true) →
        (asciiParser true).NameOpened backwardReference c.state) :=
  references_right_iff (asciiParser_library true) backwardReference

/-- `/\1()/u` has the group, but behind the reference. -/
theorem forward_reference_rejected :
    (capturingGroups false ['\\', '1', '(', ')']).length = 1 ∧
      (asciiParser true).parsePattern 9 ['\\', '1', '(', ')'] = .error "Invalid decimal escape" := by
  decide +kernel

end ArkTs2abc.Es2panda.RegExpParser
