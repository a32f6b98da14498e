import ArkTs2abc.Es2panda.RegExp.Termination

/-!
# Unicode property escapes

A property escape ends behind the first closing brace. The parser looks for an opening brace
instead, from behind the one of the escape on.

## Main definitions

* `RegExpParser.propertyEscapeEnd` — what is left behind an escape.
* `RegExpParser.PropertyEscapeRight` — the parser leaves the same, outside and inside of a class.

## Main results

* `RegExpParser.propertyEscapeRight_iff` — where it does.
-/

namespace ArkTs2abc.Es2panda.RegExpParser

/-- What is left behind the first `d`. -/
@[grind] def behindFirst (d : Char) : List Char → Option (List Char)
  | [] => none
  | c :: iter => if c = d then some iter else behindFirst d iter

theorem behindFirst_eq_none_iff {d : Char} {iter : List Char} : behindFirst d iter = none ↔ d ∉ iter := by
  induction iter <;> grind

theorem append_of_behindFirst {d : Char} {iter rest : List Char} (h : behindFirst d iter = some rest) :
    ∃ text, iter = text ++ d :: rest := by
  induction iter with
  | nil => cases h
  | cons c iter ih =>
    rw [behindFirst] at h
    split_ifs at h with hc
    · cases h
      exact ⟨[], by rw [hc]; rfl⟩
    · obtain ⟨text, rfl⟩ := ih h
      exact ⟨c :: text, rfl⟩

theorem behindFirst_inj {d e : Char} {iter rest : List Char} (hd : behindFirst d iter = some rest)
    (he : behindFirst e iter = some rest) : d = e := by
  obtain ⟨text, htext⟩ := append_of_behindFirst hd
  obtain ⟨text', htext'⟩ := append_of_behindFirst he
  have happend : (text ++ [d]) ++ rest = (text' ++ [e]) ++ rest := by
    rw [List.append_assoc, List.append_assoc]
    exact htext.symm.trans htext'
  exact List.singleton_inj.mp (List.append_inj_right' (List.append_cancel_right happend) rfl)

theorem skipProperty_eq_ok_iff {iter rest : List Char} :
    skipProperty iter = .ok rest ↔ behindFirst '\x7b' iter = some rest := by
  induction iter with
  | nil => simp [skipProperty, behindFirst]
  | cons c iter ih =>
    rw [skipProperty, behindFirst]
    split <;> simp_all

/-- What is left of a text that starts behind `\p`, if there is an escape. -/
def propertyEscapeEnd : List Char → Option (List Char)
  | [] => none
  | c :: iter => if c = '\x7b' then behindFirst '\x7d' iter else none

variable {p : RegExpParser}

/-- The letters of the two escapes. -/
def propertyLetters : List Char := ['p', 'P']

variable (p) in
/-- The parser reads an escape, outside and inside of a class, just if there is one, and goes on behind it. -/
structure PropertyEscapeRight (iter : List Char) : Prop where
  atom : ∀ c ∈ propertyLetters, ∀ (n : ℕ) (s s' : State), p.parseAtomEscape n (s.at (c :: iter)) = .ok s' ↔
    ∃ rest, propertyEscapeEnd iter = some rest ∧ s' = s.at rest
  classAtom : ∀ c ∈ propertyLetters, ∀ count value rest,
    parseClassAtom p.unicode count ('\\' :: c :: iter) = .ok (value, rest) ↔
      propertyEscapeEnd iter = some rest ∧ value = classEscape

theorem parseUnicodePropertyEscape_eq_ok_iff {iter rest : List Char} :
    parseUnicodePropertyEscape true iter = .ok rest ↔
      iter.head? = some '\x7b' ∧ behindFirst '\x7b' iter.tail = some rest := by
  have hpeek := peek_eq_iff (d := '\x7b') (by decide) iter
  rw [parseUnicodePropertyEscape, if_neg (by decide)]
  by_cases hhead : iter.head? = some '\x7b'
  · obtain ⟨iter, rfl⟩ := List.head?_eq_some_iff.mp hhead
    rw [if_neg (not_not.mpr (hpeek.mpr hhead)), skip_cons, skipProperty_eq_ok_iff]
    simp
  · rw [if_pos (mt hpeek.mp hhead)]
    simp [hhead]

theorem parseAtomEscape_property {c : Char} (hc : c ∈ propertyLetters) (n : ℕ) (s : State)
    (iter : List Char) : p.parseAtomEscape n (s.at (c :: iter)) =
      (Outcome.ofExcept (parseUnicodePropertyEscape p.unicode iter)).bind fun rest => .ok (s.at rest) := by
  have hletters := hc
  simp only [propertyLetters, List.mem_cons, List.not_mem_nil, or_false] at hletters
  rcases hletters with rfl | rfl
  all_goals
    rw [parseAtomEscape, State.at_iter, peek_ascii (by decide)]
    rfl

theorem parseClassAtom_property {c : Char} (hc : c ∈ propertyLetters) (hunicode : p.unicode = true)
    (count : ℕ) (iter : List Char) : parseClassAtom p.unicode count ('\\' :: c :: iter) =
      (parseUnicodePropertyEscape true iter >>= fun rest => .ok (classEscape, rest)) := by
  have hletters := hc
  simp only [propertyLetters, List.mem_cons, List.not_mem_nil, or_false] at hletters
  rw [hunicode]
  rcases hletters with rfl | rfl
  all_goals
    rw [parseClassAtom, next_fst, skip_cons, peek_ascii (by decide), skip_cons]
    rfl

/-- The parser reads the escape right just where it is an error that an opening brace would not
have hidden: without a brace behind the letter, or without any further brace. -/
theorem propertyEscapeRight_iff (hunicode : p.unicode = true) (iter : List Char) :
    p.PropertyEscapeRight iter ↔ (iter.head? = some '\x7b' → '\x7b' ∉ iter.tail ∧ '\x7d' ∉ iter.tail) := by
  have hend (rest : List Char) : propertyEscapeEnd iter = some rest ↔
      iter.head? = some '\x7b' ∧ behindFirst '\x7d' iter.tail = some rest := by
    cases iter with
    | nil => simp [propertyEscapeEnd]
    | cons c iter =>
      rw [propertyEscapeEnd]
      split <;> simp_all
  constructor
  · intro h hhead
    have hsame (rest : List Char) : behindFirst '\x7b' iter.tail = some rest ↔
        behindFirst '\x7d' iter.tail = some rest := by
      have hclass := h.classAtom 'p' (by decide) 0 classEscape rest
      rw [parseClassAtom_property (by decide) hunicode, hend] at hclass
      have hread : parseUnicodePropertyEscape true iter = .ok rest ↔ _ := parseUnicodePropertyEscape_eq_ok_iff
      constructor
      · intro hopen
        have hok := hread.mpr ⟨hhead, hopen⟩
        rw [hok] at hclass
        exact (hclass.mp rfl).1.2
      · intro hclose
        obtain ⟨rest', hok, heq⟩ := of_bind_ok (hclass.mpr ⟨⟨hhead, hclose⟩, rfl⟩)
        obtain ⟨-, rfl⟩ := Prod.mk.inj (Except.ok.inj heq)
        exact (hread.mp hok).2
    have hnone (d : Char) (hd : ∀ rest, behindFirst d iter.tail ≠ some rest) : d ∉ iter.tail :=
      behindFirst_eq_none_iff.mp (Option.eq_none_iff_forall_ne_some.mpr hd)
    refine ⟨hnone _ fun rest hrest => ?_, hnone _ fun rest hrest => ?_⟩
    · exact absurd (behindFirst_inj hrest ((hsame rest).mp hrest)) (by decide)
    · exact absurd (behindFirst_inj hrest ((hsame rest).mpr hrest)) (by decide)
  · intro h
    have herror (rest : List Char) : parseUnicodePropertyEscape true iter ≠ .ok rest ∧
        propertyEscapeEnd iter ≠ some rest := by
      rw [Ne, parseUnicodePropertyEscape_eq_ok_iff, Ne, hend]
      refine ⟨fun hok => ?_, fun hok => ?_⟩
      · rw [behindFirst_eq_none_iff.mpr (h hok.1).1] at hok
        exact absurd hok.2 (by simp)
      · rw [behindFirst_eq_none_iff.mpr (h hok.1).2] at hok
        exact absurd hok.2 (by simp)
    refine ⟨fun c hc n s s' => ?_, fun c hc count value rest => ?_⟩
    · rw [parseAtomEscape_property hc, hunicode, Outcome.bind_eq_ok]
      refine iff_of_false ?_ ?_
      · rintro ⟨rest, hok, -⟩
        exact (herror rest).1 (Outcome.ofExcept_eq_ok.mp hok)
      · rintro ⟨rest, hok, -⟩
        exact (herror rest).2 hok
    · rw [parseClassAtom_property hc hunicode]
      refine iff_of_false (fun hok => ?_) fun hok => (herror rest).2 hok.1
      obtain ⟨rest', hok, -⟩ := of_bind_ok hok
      exact (herror rest').1 hok

theorem propertyEscapeRight_bare : (asciiParser true).PropertyEscapeRight ['L'] :=
  (propertyEscapeRight_iff rfl ['L']).mpr fun h => absurd h (by decide)

/-- On `/\p{L}/u` the parser finds no second opening brace. -/
theorem propertyEscape_unterminated :
    propertyEscapeEnd ['\x7b', 'L', '\x7d'] = some [] ∧
      (asciiParser true).parsePattern 9 ['\\', 'p', '\x7b', 'L', '\x7d'] =
        .error "Unterminated Unicode property escape" := by
  decide +kernel

end ArkTs2abc.Es2panda.RegExpParser
