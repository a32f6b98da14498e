import ArkTs2abc.Es2panda.Lexer.TokenLines
import ArkTs2abc.RunLength

/-!
# Source locations

A `LineIndex` has an entry for each line, with the runs of characters of one width on it. A column is
looked up in the runs of its line. `GetLocation` compares a number of bytes with the number of characters of
a run, so it is wrong inside of a run of wider characters, where it goes on below zero.

## Main definitions

* `lineIndex`, `getLocation` — as in the source.
* `behindLines` — where a line starts.
* `LocationRight` — the line and the column are those of the place.

## Main results

* `locationRight_iff` — the places where they are.
-/

namespace ArkTs2abc.Es2panda.Lexer

open RunLength (push expand Canonical)

/-! ## The index -/

/-- `Range`: characters of `byteSize` bytes, `cnt` of them in a row. -/
abbrev Range := RunLength.Run ℕ

structure OffsetEntry where
  ranges : List Range
  lineStart : ℕ
  offset : ℕ
  deriving DecidableEq, Repr

def OffsetEntry.new (l : ℕ) : OffsetEntry := ⟨[], l, l⟩

/-- `AddCol`: the offsets of a line grow. -/
def OffsetEntry.addCol (entry : OffsetEntry) (offset : ℕ) : OffsetEntry :=
  { entry with ranges := push (offset - entry.offset) entry.ranges, offset := offset }

/-- The loop of the constructor of `LineIndex`, with the entry of the line so far and the index of what is
left: the entry and those behind it. -/
def lineIndexLoop (entry : OffsetEntry) (index : ℕ) : List Char → List OffsetEntry
  | [] => [entry]
  | c :: cs =>
    -- the line feed is next, and ends the line
    if c = '\r' ∧ cs.head? = some '\n' then lineIndexLoop entry (index + c.utf8Size) cs
    else if isLineTerminator c then
      entry :: lineIndexLoop (.new (index + c.utf8Size)) (index + c.utf8Size) cs
    else lineIndexLoop (entry.addCol (index + c.utf8Size)) (index + c.utf8Size) cs

def lineIndex (source : List Char) : List OffsetEntry := lineIndexLoop (.new 0) 0 source

/-! ## The location -/

structure SourceLocation where
  line : ℕ
  col : ℕ
  deriving DecidableEq, Repr

/-- A difference in a `size_t`. -/
def sizeSub (a b : ℕ) : ℕ := (a + (2 ^ 64 - b % 2 ^ 64)) % 2 ^ 64

/-- The loop of `GetLocation` over the ranges of a line. -/
def columnLoop (diff col : ℕ) : List Range → ℕ
  | [] => col
  | range :: ranges =>
    if diff < range.count then col + diff
    else columnLoop (sizeSub diff (range.count * range.value)) (col + range.count) ranges

/-- `GetLocation`; there is none where the line has no entry. -/
def getLocation (entrys : List OffsetEntry) (index line : ℕ) : Option SourceLocation :=
  entrys[line]?.map fun entry =>
    ⟨line + 1, columnLoop (sizeSub index entry.lineStart) 0 entry.ranges + 1⟩

/-! ## Lines and columns -/

/-- What is left of a text from the start of a line on. -/
def behindLines : ℕ → List Char → Option (List Char)
  | 0, cs => some cs
  | _ + 1, [] => none
  | n + 1, c :: cs => if endsLine c cs.head? then behindLines n cs else behindLines (n + 1) cs

/-- The bytes of a text. -/
def byteLength (cs : List Char) : ℕ := (cs.map Char.utf8Size).sum

/-- Before `rest`, on a line that starts before it: the line has an entry, and the location has its number and
one plus the number of code points in between. -/
def LocationRight (source rest : List Char) (line : ℕ) : Prop :=
  ∃ text before, behindLines line source = some text ∧ text = before ++ rest ∧
    getLocation (lineIndex source) (byteLength source - byteLength rest) line =
      some ⟨line + 1, before.length + 1⟩

/-- A place is before a character of the same width, of more than a byte, as the one before it. -/
def InsideRange (before rest : List Char) : Prop :=
  ∃ c ∈ before.getLast?, ∃ d ∈ rest.head?, ¬isLineTerminator d ∧ c.utf8Size = d.utf8Size ∧ 1 < c.utf8Size

/-- The place is on the line, before its end. -/
def OnLine (source before rest : List Char) (line : ℕ) : Prop :=
  behindLines line source = some (before ++ rest) ∧ ∀ c ∈ before, ¬isLineTerminator c

/-! ## The entries -/

/-- The characters on the first line of a text. -/
def lineChars (cs : List Char) : List Char := cs.takeWhile fun c => !isLineTerminator c

/-- The ranges of a line, with some before it. -/
def rangesOf (ranges : List Range) (cs : List Char) : List Range :=
  cs.foldl (fun ranges c => push c.utf8Size ranges) ranges

theorem isLineTerminator_of_endsLine {c : Char} {next : Option Char} (h : endsLine c next = true) :
    isLineTerminator c = true := by
  rw [endsLine, Bool.and_eq_true] at h
  exact h.1

theorem lineChars_cons {c : Char} (hc : isLineTerminator c = true) (cs : List Char) : lineChars (c :: cs) = [] := by
  simp [lineChars, hc]

theorem lineChars_cons_plain {c : Char} (hc : ¬isLineTerminator c) (cs : List Char) :
    lineChars (c :: cs) = c :: lineChars cs := by
  simp [lineChars, hc]

@[simp] theorem byteLength_cons (c : Char) (cs : List Char) :
    byteLength (c :: cs) = c.utf8Size + byteLength cs := by
  simp [byteLength]

@[simp] theorem byteLength_append (cs ds : List Char) :
    byteLength (cs ++ ds) = byteLength cs + byteLength ds := by
  simp [byteLength]

theorem behindLines_suffix {n : ℕ} {cs text : List Char} (h : behindLines n cs = some text) : text <:+ cs := by
  induction cs generalizing n with
  | nil =>
    cases n with
    | zero => exact Option.some.inj h ▸ List.suffix_refl _
    | succ n => cases h
  | cons c cs ih =>
    cases n with
    | zero => exact Option.some.inj h ▸ List.suffix_refl _
    | succ n =>
      rw [behindLines] at h
      split at h
      · exact (ih h).trans (List.suffix_cons c cs)
      · exact (ih h).trans (List.suffix_cons c cs)

/-- The index stands behind the last character of the entry, or before the line feed of a sequence. -/
def InStep (entry : OffsetEntry) (index : ℕ) (cs : List Char) : Prop :=
  entry.offset = index ∨ cs.head? = some '\n'

section

variable {entry : OffsetEntry} {index : ℕ} {cs : List Char} (h : InStep entry index cs)
include h

theorem lineIndexLoop_zero :
    ∃ e ∈ (lineIndexLoop entry index cs)[0]?, e.lineStart = entry.lineStart ∧
      e.ranges = rangesOf entry.ranges (lineChars cs) := by
  induction cs generalizing entry index with
  | nil => exact ⟨entry, rfl, rfl, rfl⟩
  | cons c cs ih =>
    rw [lineIndexLoop]
    split_ifs with hreturn hline
    · obtain ⟨rfl, hlf⟩ := hreturn
      obtain ⟨e, he, hstart, hranges⟩ := @ih entry (index + '\r'.utf8Size) (.inr hlf)
      obtain ⟨cs, rfl⟩ := List.head?_eq_some_iff.mp hlf
      exact ⟨e, he, hstart, hranges⟩
    · exact ⟨entry, rfl, rfl, by rw [lineChars_cons hline]; rfl⟩
    · have hoffset : entry.offset = index := by
        refine h.resolve_right fun hlf => ?_
        rw [List.head?_cons] at hlf
        rw [Option.some.inj hlf] at hline
        exact hline rfl
      obtain ⟨e, he, hstart, hranges⟩ := @ih (entry.addCol (index + c.utf8Size)) (index + c.utf8Size) (.inl rfl)
      refine ⟨e, he, hstart, ?_⟩
      rw [hranges, lineChars_cons_plain hline, OffsetEntry.addCol, hoffset, Nat.add_sub_cancel_left]
      rfl

theorem lineIndexLoop_succ (n : ℕ) :
    ((lineIndexLoop entry index cs)[n + 1]?).map (fun e => (e.lineStart, e.ranges)) =
      (behindLines (n + 1) cs).map fun text =>
        (index + byteLength cs - byteLength text, rangesOf [] (lineChars text)) := by
  induction cs generalizing entry index n with
  | nil => rfl
  | cons c cs ih =>
    have hindex : index + byteLength (c :: cs) = index + c.utf8Size + byteLength cs := by
      rw [byteLength_cons, Nat.add_assoc]
    rw [lineIndexLoop, behindLines, hindex]
    split_ifs with hreturn hends hline hends hends
    · exact absurd hends (by simp [endsLine, hreturn])
    · exact ih (.inr hreturn.2) n
    · cases n with
      | zero =>
        obtain ⟨e, he, hstart, hranges⟩ := @lineIndexLoop_zero (.new (index + c.utf8Size)) (index + c.utf8Size) cs
          (.inl rfl)
        rw [List.getElem?_cons_succ, Option.mem_def.mp he]
        simp only [Option.map_some, behindLines, hstart, hranges, Nat.add_sub_cancel, OffsetEntry.new]
      | succ n =>
        rw [List.getElem?_cons_succ]
        exact ih (.inl rfl) n
    · exact absurd hends (by simp [endsLine, hline, hreturn])
    · exact absurd (isLineTerminator_of_endsLine hends) hline
    · exact ih (.inl rfl) n

end

theorem lineIndex_getElem (source : List Char) (n : ℕ) :
    ((lineIndex source)[n]?).map (fun e => (e.lineStart, e.ranges)) =
      (behindLines n source).map fun text =>
        (byteLength source - byteLength text, rangesOf [] (lineChars text)) := by
  cases n with
  | zero =>
    obtain ⟨e, he, hstart, hranges⟩ := @lineIndexLoop_zero (.new 0) 0 source (.inl rfl)
    rw [lineIndex, Option.mem_def.mp he]
    simp only [Option.map_some, behindLines, hstart, hranges, Nat.sub_self, OffsetEntry.new]
  | succ n =>
    have hstep : InStep (.new 0) 0 source := .inl rfl
    have hloop := lineIndexLoop_succ hstep n
    rwa [Nat.zero_add] at hloop

/-! ## The ranges -/

theorem rangesOf_canonical {ranges : List Range} (h : Canonical ranges) (cs : List Char) :
    Canonical (rangesOf ranges cs) := by
  induction cs generalizing ranges with
  | nil => exact h
  | cons c cs ih => exact ih (h.push c.utf8Size)

theorem expand_rangesOf (ranges : List Range) (cs : List Char) :
    expand (rangesOf ranges cs) = expand ranges ++ cs.map Char.utf8Size := by
  induction cs generalizing ranges with
  | nil => simp [rangesOf]
  | cons c cs ih =>
    have hstep : rangesOf ranges (c :: cs) = rangesOf (push c.utf8Size ranges) cs := rfl
    rw [hstep, ih, RunLength.expand_push, List.append_assoc]
    rfl

/-! ## The column -/

theorem sizeSub_of_le {a b : ℕ} (hle : b ≤ a) (ha : a < 2 ^ 64) : sizeSub a b = a - b := by
  rw [sizeSub]
  omega

theorem sizeSub_of_lt {a b : ℕ} (hlt : a < b) (hb : b < 2 ^ 64) : sizeSub a b = 2 ^ 64 - (b - a) := by
  rw [sizeSub]
  omega

section

variable {ranges : List Range} (hpos : ∀ b ∈ expand ranges, 0 < b)

include hpos

theorem columnLoop_of_le {diff : ℕ} (col : ℕ) (hcanonical : Canonical ranges) (hle : (expand ranges).sum ≤ diff)
    (hdiff : diff < 2 ^ 64) : columnLoop diff col ranges = col + (expand ranges).length := by
  induction ranges generalizing diff col with
  | nil => rfl
  | cons r ranges ih =>
    have hcount := hcanonical.head_pos
    have hsum : (expand (r :: ranges)).sum = r.count * r.value + (expand ranges).sum := by simp
    have hlength : (expand (r :: ranges)).length = r.count + (expand ranges).length := by simp
    have hvalue : 0 < r.value := hpos r.value (by simp [Nat.ne_of_gt hcount])
    have hge : r.count ≤ r.count * r.value := Nat.le_mul_of_pos_right _ hvalue
    rw [columnLoop, if_neg (by omega), sizeSub_of_le (by omega) hdiff, hlength, ← Nat.add_assoc]
    exact ih (fun b hb => hpos b (by simp [hb])) _ hcanonical.tail (by omega) (by omega)

/-- The place is inside of a run of wider characters. -/
def InsideRun (xs ys : List ℕ) : Prop := ∃ b ∈ xs.getLast?, ys.head? = some b ∧ 1 < b

/-- The column comes out right just outside of the runs of wider characters. -/
theorem columnLoop_eq_iff (col : ℕ) {xs ys : List ℕ} (hcanonical : Canonical ranges)
    (hsplit : expand ranges = xs ++ ys) (hbytes : (expand ranges).sum < 2 ^ 64) :
    columnLoop xs.sum col ranges = col + xs.length ↔ ¬ InsideRun xs ys := by
  induction ranges generalizing col xs with
  | nil =>
    obtain ⟨rfl, rfl⟩ := List.append_eq_nil_iff.mp hsplit.symm
    simp [columnLoop, InsideRun]
  | cons r ranges ih =>
    have hcount := hcanonical.head_pos
    have hsum : (expand (r :: ranges)).sum = r.count * r.value + (expand ranges).sum := by simp
    have hvalue : 0 < r.value := hpos r.value (by simp [Nat.ne_of_gt hcount])
    have htail (b : ℕ) (hb : b ∈ expand ranges) : 0 < b := hpos b (by simp [hb])
    have hge : r.count ≤ r.count * r.value := Nat.le_mul_of_pos_right _ hvalue
    -- the place is behind the first run
    have hbehind {xs' : List ℕ} (hxs : xs = List.replicate r.count r.value ++ xs') (hys : expand ranges = xs' ++ ys) :
        columnLoop xs.sum col (r :: ranges) = col + xs.length ↔ ¬ InsideRun xs ys := by
      have hxsum : xs.sum = r.count * r.value + xs'.sum := by simp [hxs]
      have hxlength : xs.length = r.count + xs'.length := by simp [hxs]
      have hysum : (expand ranges).sum = xs'.sum + ys.sum := by simp [hys]
      have hinside : InsideRun xs ys ↔ InsideRun xs' ys := by
        rcases List.eq_nil_or_concat xs' with rfl | ⟨zs, z, rfl⟩
        · have hne := hcanonical.head_expand_ne
          obtain ⟨n, hn⟩ := Nat.exists_eq_succ_of_ne_zero (Nat.ne_of_gt hcount)
          rw [hys, List.nil_append] at hne
          rw [hxs, List.append_nil, hn, InsideRun, InsideRun, List.replicate_succ', List.getLast?_concat]
          simp [hne]
        · rw [hxs, InsideRun, InsideRun, List.concat_eq_append, ← List.append_assoc, List.getLast?_concat,
            List.getLast?_concat]
      rw [columnLoop, if_neg (by omega), sizeSub_of_le (by omega) (by omega), hinside,
        show xs.sum - r.count * r.value = xs'.sum by omega, hxlength, ← Nat.add_assoc]
      exact ih htail _ hcanonical.tail hys (by omega)
    rw [RunLength.expand_cons] at hsplit
    rcases List.append_eq_append_iff.mp hsplit with ⟨xs', hxs, hys⟩ | ⟨zs, hrun, hys⟩
    · exact hbehind hxs hys
    · obtain ⟨hlengths, hxs, hzs⟩ := List.append_eq_replicate_iff.mp hrun.symm
      cases zs with
      | nil =>
        rw [List.append_nil] at hrun
        exact @hbehind [] (by rw [List.append_nil, hrun]) hys.symm
      | cons z zs =>
        have hz : z = r.value := List.eq_of_mem_replicate (hzs ▸ List.mem_cons_self)
        have hlt : xs.length < r.count := by
          rw [← hlengths, List.length_cons]
          omega
        have hxsum : xs.sum = xs.length * r.value := by
          rw [hxs, List.sum_replicate_nat, List.length_replicate]
        cases hm : xs.length with
        | zero =>
          rw [hm, Nat.zero_mul] at hxsum
          obtain rfl := List.length_eq_zero_iff.mp hm
          rw [columnLoop, hxsum, if_pos (by omega)]
          simp [InsideRun]
        | succ m =>
          have hlast : xs.getLast? = some r.value := by
            rw [hxs, hm, List.replicate_succ', List.getLast?_concat]
          have hinside : InsideRun xs ys ↔ 1 < r.value := by
            rw [InsideRun, hlast, hys, List.cons_append, List.head?_cons, hz]
            simp
          rw [hm] at hlt
          rw [hinside, hxsum, hm, columnLoop]
          rcases Nat.lt_or_ge 1 r.value with hwide | hnarrow
          · refine iff_of_false ?_ (not_not.mpr hwide)
            have hmore : m + 1 < (m + 1) * r.value := (Nat.lt_mul_iff_one_lt_right (Nat.succ_pos m)).mpr hwide
            have hless : (m + 1) * r.value < r.count * r.value := Nat.mul_lt_mul_of_pos_right hlt hvalue
            split_ifs with hlow
            · omega
            · rw [sizeSub_of_lt hless (by omega),
                columnLoop_of_le htail _ hcanonical.tail (by omega) (by omega)]
              omega
          · obtain hone : r.value = 1 := Nat.le_antisymm hnarrow hvalue
            rw [hone, Nat.mul_one, if_pos hlt]
            simp

end

/-! ## Where the location is right -/

theorem sum_map_utf8Size (cs : List Char) : (cs.map Char.utf8Size).sum = byteLength cs := rfl

theorem lineChars_append {before : List Char} (h : ∀ c ∈ before, ¬isLineTerminator c) (rest : List Char) :
    lineChars (before ++ rest) = before ++ lineChars rest :=
  List.takeWhile_append_of_pos (by simpa using h)

theorem lineChars_of_terminator {before : List Char} (h : ¬ ∀ c ∈ before, ¬isLineTerminator c) (rest : List Char) :
    ∃ line end', before = line ++ end' ∧ end' ≠ [] ∧ lineChars (before ++ rest) = line := by
  induction before with
  | nil => exact absurd (by simp) h
  | cons c before ih =>
    by_cases hc : isLineTerminator c = true
    · exact ⟨[], c :: before, rfl, List.cons_ne_nil _ _, lineChars_cons hc _⟩
    · obtain ⟨line, end', rfl, hne, hchars⟩ := ih fun hplain => h (List.forall_mem_cons.mpr ⟨hc, hplain⟩)
      refine ⟨c :: line, end', rfl, hne, ?_⟩
      rw [List.cons_append, lineChars_cons_plain hc, hchars]

theorem byteLength_pos {cs : List Char} (h : cs ≠ []) : 0 < byteLength cs := by
  obtain ⟨c, cs, rfl⟩ := List.exists_cons_of_ne_nil h
  have hc := c.utf8Size_pos
  rw [byteLength_cons]
  omega

theorem head_lineChars (rest : List Char) : (lineChars rest).head? = rest.head?.filter fun c => !isLineTerminator c := by
  cases rest with
  | nil => rfl
  | cons c rest =>
    by_cases hc : isLineTerminator c = true
    · simp [lineChars_cons hc, Option.filter, hc]
    · simp [lineChars_cons_plain hc, Option.filter, hc]

theorem insideRun_iff (before rest : List Char) :
    InsideRun (before.map Char.utf8Size) ((lineChars rest).map Char.utf8Size) ↔ InsideRange before rest := by
  rw [InsideRun, InsideRange, List.getLast?_map, List.head?_map, head_lineChars]
  cases before.getLast? with
  | none => simp
  | some c =>
    cases rest.head? with
    | none => simp
    | some d =>
      by_cases hd : isLineTerminator d = true
      · simp [hd]
      · simp [hd]
        grind

/-- The column of a place on a line. -/
theorem columnLoop_lineChars {before rest : List Char} (hfits : byteLength (before ++ rest) < 2 ^ 64) :
    columnLoop (byteLength before) 0 (rangesOf [] (lineChars (before ++ rest))) = before.length ↔
      (∀ c ∈ before, ¬isLineTerminator c) ∧ ¬ InsideRange before rest := by
  have hexpand (cs : List Char) : expand (rangesOf [] cs) = cs.map Char.utf8Size := by
    rw [expand_rangesOf]
    rfl
  have hpos (cs : List Char) : ∀ b ∈ expand (rangesOf [] cs), 0 < b := by
    rw [hexpand]
    simp [Char.utf8Size_pos]
  have hcanonical (cs : List Char) : Canonical (rangesOf [] cs) := rangesOf_canonical .nil cs
  by_cases hplain : ∀ c ∈ before, ¬isLineTerminator c
  · rw [lineChars_append hplain, and_iff_right hplain, ← insideRun_iff]
    have hle : byteLength (lineChars rest) ≤ byteLength rest := by
      have hsplit : lineChars rest ++ rest.dropWhile (fun c => !isLineTerminator c) = rest :=
        List.takeWhile_append_dropWhile
      have hlength := congrArg byteLength hsplit
      rw [byteLength_append] at hlength
      omega
    have hcolumn := columnLoop_eq_iff (hpos (before ++ lineChars rest)) 0 (hcanonical _)
      (by rw [hexpand, List.map_append]) (by
        rw [hexpand, sum_map_utf8Size, byteLength_append]
        rw [byteLength_append] at hfits
        omega)
    rwa [sum_map_utf8Size, Nat.zero_add, List.length_map] at hcolumn
  · obtain ⟨line, end', rfl, hne, hchars⟩ := lineChars_of_terminator hplain rest
    refine iff_of_false ?_ fun h => hplain h.1
    have hmore := byteLength_pos hne
    have hlength : 0 < end'.length := List.length_pos_iff.mpr hne
    rw [byteLength_append, byteLength_append] at hfits
    rw [hchars, byteLength_append, columnLoop_of_le (hpos line) 0 (hcanonical line), hexpand, List.length_map,
      List.length_append]
    · omega
    · rw [hexpand, sum_map_utf8Size]
      omega
    · omega

/-- `GetLocation` is right just at the places on the line that are not inside of a range. -/
theorem locationRight_iff {source : List Char} (hfits : byteLength source < 2 ^ 64) (rest : List Char) (line : ℕ) :
    LocationRight source rest line ↔ ∃ before, OnLine source before rest line ∧ ¬ InsideRange before rest := by
  have hlocation {before : List Char} (h : behindLines line source = some (before ++ rest)) :
      getLocation (lineIndex source) (byteLength source - byteLength rest) line = some ⟨line + 1, before.length + 1⟩ ↔
        (∀ c ∈ before, ¬isLineTerminator c) ∧ ¬ InsideRange before rest := by
    obtain ⟨front, hsource⟩ := behindLines_suffix h
    have hbytes : byteLength source = byteLength front + byteLength before + byteLength rest := by
      rw [← hsource, byteLength_append, byteLength_append, Nat.add_assoc]
    have hentry := lineIndex_getElem source line
    rw [h, Option.map_some] at hentry
    obtain ⟨entry, hget, hentry⟩ := Option.map_eq_some_iff.mp hentry
    obtain ⟨hstart, hranges⟩ := Prod.mk.inj hentry
    have hdiff : sizeSub (byteLength source - byteLength rest) entry.lineStart = byteLength before := by
      rw [hstart, byteLength_append, sizeSub_of_le (by omega) (by omega)]
      omega
    rw [getLocation, hget, Option.map_some, hdiff, hranges, ← columnLoop_lineChars (by
      rw [byteLength_append]
      omega)]
    simp
  constructor
  · rintro ⟨text, before, htext, rfl, hright⟩
    obtain ⟨hplain, hinside⟩ := (hlocation htext).mp hright
    exact ⟨before, ⟨htext, hplain⟩, hinside⟩
  · rintro ⟨before, ⟨htext, hplain⟩, hinside⟩
    exact ⟨before ++ rest, before, htext, rfl, (hlocation htext).mpr ⟨hplain, hinside⟩⟩

theorem locationRight_iff_names : LocationRight ['a', '\n', 'b'] ['b'] 1 ↔
    ∃ before, OnLine ['a', '\n', 'b'] before ['b'] 1 ∧ ¬ InsideRange before ['b'] :=
  locationRight_iff (by decide) ['b'] 1

/-- Behind a byte order mark the name of the source is inside of a range: it is in the third column, not in
the second one. -/
theorem ideograph_column :
    (∃ saved events, Run ['\uFEFF', '中'] (fun _ _ => True) saved events ∧
      ∃ previous, Event.token previous ['中'] 1 false ∈ events) ∧
    getLocation (lineIndex ['\uFEFF', '中']) 3 0 = some ⟨1, 3⟩ ∧ ¬ LocationRight ['\uFEFF', '中'] ['中'] 0 := by
  have hstart : Run ['\uFEFF', '中'] (fun _ _ => True) _ _ := .start rfl
  have hname := hstart.name ['中'] [] ⟨by simp, by decide, by decide⟩ rfl trivial rfl
  refine ⟨⟨_, _, hname, _, List.mem_cons_self⟩, by decide +kernel, fun h => ?_⟩
  obtain ⟨before, ⟨hbefore, -⟩, hinside⟩ := (locationRight_iff (by decide) ['中'] 0).mp h
  obtain rfl : before = ['\uFEFF'] := by
    have hsplit : ['\uFEFF'] ++ ['中'] = before ++ ['中'] := Option.some.inj hbefore
    exact (List.append_cancel_right hsplit).symm
  exact hinside ⟨'\uFEFF', by decide, '中', by decide, by decide⟩

end ArkTs2abc.Es2panda.Lexer
