import ArkTs2abc.Es2panda.RegExp.Runs

/-!
# Termination of the parser of regular expressions

The recursion and the loop over a name end, as each round takes a character or throws. The loop
over a class does not end where it comes to the end of the pattern. Without the Unicode flag
that does not happen to what the lexer takes for a body; with it a property escape skips to the
next opening brace, and so may leave the class behind.

## Main results

* `RegExpParser.parsePattern_terminates_iff` — the bodies on which the parser ends.
-/

namespace ArkTs2abc.Es2panda.RegExpParser

open Unicode Relation

variable {p : RegExpParser}

/-! ## Enough fuel -/

variable {n : ℕ} {s : State}

theorem identLoop_ne_outOfFuel (hp : p.Library) {ident : List UInt8} {iter : List Char}
    (hn : iter.length < n) : p.identLoop n ident iter ≠ .outOfFuel := by
  induction n generalizing ident iter with
  | zero => exact absurd hn (Nat.not_lt_zero _)
  | succ n ih =>
    rw [identLoop]
    split
    · simp
    · intro h
      rcases Outcome.bind_eq_outOfFuel.mp h with h | ⟨⟨cp, mid⟩, hcp, h⟩
      · exact Outcome.ofExcept_ne_outOfFuel _ h
      dsimp only at h
      split_ifs at h with hcont
      have hcp := Outcome.ofExcept_eq_ok.mp hcp
      have hne := hp.ne_bracket ((Bool.not_eq_false _).mp hcont)
      have htakes : Takes p.unicode false iter mid := takes_parseIdentCp hcp hne
      rcases eq_or_ne iter [] with rfl | hnil
      · obtain ⟨rfl, -⟩ := Prod.mk.inj (Except.ok.inj hcp)
        refine hcont ?_
        rw [isIdCont, decide_eq_false_iff_not]
        exact not_or.mpr ⟨(Bool.not_eq_true _).mpr hp.noncharacter, by decide⟩
      · exact ih (by have := htakes.length_lt hnil; omega) h

theorem parseIdent_ne_outOfFuel (hp : p.Library) {iter : List Char} (hn : iter.length < n) :
    p.parseIdent n iter ≠ .outOfFuel := by
  intro h
  rcases Outcome.bind_eq_outOfFuel.mp h with h | ⟨⟨cp, mid⟩, hcp, h⟩
  · exact Outcome.ofExcept_ne_outOfFuel _ h
  dsimp only at h
  split_ifs at h with hstart
  have hne : ∀ c ∈ ['[', ']'], cp ≠ c.toNat := by
    rintro c hc rfl
    exact hstart (hp.isIdStart c hc)
  have htakes : Takes p.unicode false iter mid := takes_parseIdentCp (Outcome.ofExcept_eq_ok.mp hcp) hne
  exact identLoop_ne_outOfFuel hp (Nat.lt_of_le_of_lt htakes.keeps.length_le hn) h

theorem quantified_ne_outOfFuel (s : State) : quantified s ≠ .outOfFuel := by
  intro h
  rcases Outcome.bind_eq_outOfFuel.mp h with h | ⟨iter, -, h⟩
  · exact Outcome.ofExcept_ne_outOfFuel _ h
  · cases h

theorem Frame.close_ne_outOfFuel (frame : Frame) (s : State) : frame.close s ≠ .outOfFuel := by
  intro h
  rcases Outcome.bind_eq_outOfFuel.mp h with h | ⟨t, -, h⟩
  · unfold closeGroup at h
    split_ifs at h
  · split_ifs at h
    exact quantified_ne_outOfFuel _ h

theorem bind_ne_outOfFuel {α β : Type} {a : Outcome α} {f : α → Outcome β} (ha : a ≠ .outOfFuel)
    (hf : ∀ x, f x ≠ .outOfFuel) : a.bind f ≠ .outOfFuel := by
  intro h
  rcases Outcome.bind_eq_outOfFuel.mp h with h | ⟨x, -, h⟩
  · exact ha h
  · exact hf x h

section

variable (hp : p.Library) (hn : s.iter.length < n)
include hp hn

theorem parseNamedBackreference_ne_outOfFuel :
    p.parseNamedBackreference n s ≠ .outOfFuel := by
  unfold parseNamedBackreference
  split
  · simp
  split
  · simp
  · have hlength := (Keeps.skip_suffix s.iter).length_le
    refine bind_ne_outOfFuel (parseIdent_ne_outOfFuel hp (by omega)) fun x => ?_
    dsimp only
    split <;> simp

theorem parseAtomEscape_ne_outOfFuel :
    p.parseAtomEscape n s ≠ .outOfFuel := by
  have hexcept {α : Type} (x : Except String α) {f : α → State} :
      (Outcome.ofExcept x).bind (fun a => .ok (f a)) ≠ .outOfFuel :=
    bind_ne_outOfFuel (Outcome.ofExcept_ne_outOfFuel x) fun a => by simp
  have hlength := (Keeps.skip_suffix s.iter).length_le
  have hname : p.parseNamedBackreference n s.skip ≠ .outOfFuel :=
    parseNamedBackreference_ne_outOfFuel hp (by rw [State.skip_iter]; omega)
  rw [parseAtomEscape]
  dsimp only
  by_cases hdigit : Lexer.isDecimalDigit (peek s.iter)
  · rw [if_pos hdigit]
    exact hexcept _
  rw [if_neg hdigit]
  by_cases hx : peek s.iter = 'x'.toNat
  · rw [if_pos hx]
    exact hexcept _
  rw [if_neg hx]
  by_cases hu : peek s.iter = 'u'.toNat
  · rw [if_pos hu]
    exact hexcept _
  rw [if_neg hu]
  by_cases hk : peek s.iter = 'k'.toNat
  · rwa [if_pos hk]
  rw [if_neg hk]
  by_cases hletter : peek s.iter ∈ atomLetters
  · rw [if_pos hletter]
    simp
  rw [if_neg hletter]
  by_cases hproperty : peek s.iter = 'p'.toNat ∨ peek s.iter = 'P'.toNat
  · rw [if_pos hproperty]
    exact hexcept _
  rw [if_neg hproperty]
  split_ifs <;> simp

theorem openGroup_ne_outOfFuel :
    p.openGroup n s ≠ .outOfFuel := by
  unfold openGroup
  dsimp only
  split_ifs
  all_goals try simp
  have hfirst := (Keeps.skip_suffix s.iter).length_le
  have hsecond := (Keeps.skip_suffix (skip s.iter)).length_le
  refine bind_ne_outOfFuel (parseIdent_ne_outOfFuel hp ?_) fun x => ?_
  · rw [State.skip_iter, State.skip_iter]
    omega
  · dsimp only
    split <;> simp

end

theorem classTerm_ne_outOfFuel (hn : s.iter.length < n)
    (h : ¬ p.RunsOff s.capturingGroupCount (skipCaret s.iter)) : p.classTerm n s ≠ .outOfFuel := by
  refine bind_ne_outOfFuel (fun hloop => h ?_) fun iter => quantified_ne_outOfFuel _
  rw [parseCharacterClass_eq] at hloop
  refine .of_outOfFuel (Nat.lt_of_le_of_lt ?_ hn) hloop
  unfold skipCaret
  split
  · exact (Keeps.skip_suffix _).length_le
  · exact Nat.le_refl _

theorem alternative_ne_outOfFuel (hp : p.Library) {stack : List Frame} (hn : s.iter.length < n)
    (h : ¬ p.RunsAway ⟨s, stack⟩) : p.alternative n s ≠ .outOfFuel := by
  have hterm {a : Outcome State} (ha : a ≠ .outOfFuel) : a.bind term ≠ .outOfFuel :=
    bind_ne_outOfFuel ha fun s => by simp [term]
  have hlength := (Keeps.skip_suffix s.iter).length_le
  have hskip : s.skip.iter.length < n := by
    rw [State.skip_iter]
    omega
  unfold alternative
  dsimp only
  split_ifs with hescape hassertion hparen hclass hdot
  · refine hterm ?_
    unfold escapeTerm
    split
    · simp
    · exact bind_ne_outOfFuel (parseAtomEscape_ne_outOfFuel hp hskip) fun t => quantified_ne_outOfFuel _
  · simp [term]
  · exact openGroup_ne_outOfFuel hp hskip
  · refine hterm (classTerm_ne_outOfFuel hskip fun hoff => h ⟨?_, hoff⟩)
    exact (peek_eq_iff (by decide) s.iter).mp hclass
  · exact hterm (quantified_ne_outOfFuel _)
  · refine hterm (bind_ne_outOfFuel (Outcome.ofExcept_ne_outOfFuel _) fun x => ?_)
    dsimp only
    split_ifs
    · simp
    · simp
    · exact quantified_ne_outOfFuel _

/-! ## The recursion -/

variable (p) in
/-- The machine comes to no class that does not end. -/
def Safe (c : Config) : Prop := ∀ d, ReflTransGen p.Step c d → ¬ p.RunsAway d

variable {c : Config}

theorem Safe.steps {d : Config} (h : p.Safe c) (hd : ReflTransGen p.Step c d) : p.Safe d :=
  fun e he => h e (hd.trans he)

theorem Safe.not_runsAway (h : p.Safe c) : ¬ p.RunsAway c := h c .refl

theorem Step.length_le (hp : p.Library) {d : Config} (h : p.Step c d) :
    d.state.iter.length ≤ c.state.iter.length := by
  cases h with
  | term _ h => exact (takes_alternative hp h).keeps.length_le
  | group _ h => exact (takes_alternative hp h).keeps.length_le
  | bar => exact (Keeps.skip_suffix _).length_le
  | @close s s' _ frame _ h =>
    obtain ⟨t, ht, h⟩ := Outcome.bind_eq_ok.mp h
    have hskip : t = s.skip := by
      unfold closeGroup at ht
      split_ifs at ht
      exact (Outcome.ok.inj ht).symm
    have hle := (Keeps.skip_suffix s.iter).length_le
    subst hskip
    split_ifs at h
    · have hkeeps : Keeps true false s.skip.iter s'.iter := keeps_quantified h
      exact Nat.le_trans hkeeps.length_le hle
    · cases h
      exact hle

theorem length_le_of_steps (hp : p.Library) {d : Config} (h : ReflTransGen p.Step c d) :
    d.state.iter.length ≤ c.state.iter.length := by
  induction h with
  | refl => exact Nat.le_refl _
  | tail _ hstep ih => exact Nat.le_trans (hstep.length_le hp) ih

theorem length_lt_of_parseAlternative (hp : p.Library) {s' : State}
    (hmore : endsAlternative (peek s.iter) = false) (h : p.parseAlternative n s = .ok s') :
    s'.iter.length < s.iter.length := by
  have hne : s.iter ≠ [] := by
    intro hnil
    rw [hnil] at hmore
    exact absurd hmore (by decide)
  cases n with
  | zero => cases h
  | succ n =>
    rw [parseAlternative_succ] at h
    obtain ⟨move, hmove, h⟩ := Outcome.bind_eq_ok.mp h
    have hlt := (takes_alternative hp hmove).length_lt hne
    refine Nat.lt_of_le_of_lt ?_ hlt
    cases move with
    | term t =>
      cases h
      exact Nat.le_refl _
    | group frame t =>
      obtain ⟨u, hu, hclose⟩ := Outcome.bind_eq_ok.mp h
      obtain ⟨hsteps, hends, hbar⟩ := (steps_of_parse t u [frame]).1 hu
      have hparen : peek u.iter = ')'.toNat := by
        obtain ⟨v, hv, -⟩ := Outcome.bind_eq_ok.mp hclose
        unfold closeGroup at hv
        split_ifs at hv with hparen
        exact not_not.mp hparen
      exact length_le_of_steps hp (hsteps.tail (.close hparen hclose))

/-- Three calls for each character are enough. -/
theorem parse_ne_outOfFuel (hp : p.Library) (s : State) (stack : List Frame) (h : p.Safe ⟨s, stack⟩) :
    (∀ n, 3 * s.iter.length + 3 ≤ n → p.parseDisjunction n s ≠ .outOfFuel) ∧
    (∀ n, 3 * s.iter.length + 2 ≤ n → p.parseAlternatives n s ≠ .outOfFuel) ∧
    (endsAlternative (peek s.iter) = false →
      ∀ n, 3 * s.iter.length + 1 ≤ n → p.parseAlternative n s ≠ .outOfFuel) := by
  induction hlength : s.iter.length using Nat.strong_induction_on generalizing s stack with
  | _ L ih =>
    subst hlength
    have hne (hmore : endsAlternative (peek s.iter) = false) : s.iter ≠ [] := by
      intro hnil
      rw [hnil] at hmore
      exact absurd hmore (by decide)
    have halternative (hmore : endsAlternative (peek s.iter) = false) (n : ℕ)
        (hn : 3 * s.iter.length + 1 ≤ n) : p.parseAlternative n s ≠ .outOfFuel := by
      obtain ⟨n, rfl⟩ : ∃ m, n = m + 1 := ⟨n - 1, by omega⟩
      have hpos := List.length_pos_iff.mpr (hne hmore)
      rw [parseAlternative_succ]
      intro hout
      rcases Outcome.bind_eq_outOfFuel.mp hout with hout | ⟨move, hmove, hout⟩
      · exact alternative_ne_outOfFuel hp (by omega) h.not_runsAway hout
      cases move with
      | term t => cases hout
      | group frame t =>
        have hlt : t.iter.length < s.iter.length := (takes_alternative hp hmove).length_lt (hne hmore)
        have hsafe := h.steps (.single (.group hmore hmove))
        rcases Outcome.bind_eq_outOfFuel.mp hout with hout | ⟨u, -, hout⟩
        · exact (ih _ hlt t (frame :: stack) hsafe rfl).1 n (by omega) hout
        · exact frame.close_ne_outOfFuel u hout
    have halternatives (n : ℕ) (hn : 3 * s.iter.length + 2 ≤ n) : p.parseAlternatives n s ≠ .outOfFuel := by
      obtain ⟨n, rfl⟩ : ∃ m, n = m + 1 := ⟨n - 1, by omega⟩
      rw [parseAlternatives]
      split
      · simp
      next hends =>
        have hmore := (Bool.not_eq_true _).mp hends
        intro hout
        rcases Outcome.bind_eq_outOfFuel.mp hout with hout | ⟨t, ht, hout⟩
        · exact halternative hmore n (by omega) hout
        have hlt := length_lt_of_parseAlternative hp hmore ht
        have hsafe := h.steps ((steps_of_parse s t stack).2.2 ht hmore)
        exact (ih _ hlt t stack hsafe rfl).2.1 n (by omega) hout
    refine ⟨fun n hn => ?_, halternatives, halternative⟩
    obtain ⟨n, rfl⟩ : ∃ m, n = m + 1 := ⟨n - 1, by omega⟩
    rw [parseDisjunction]
    intro hout
    rcases Outcome.bind_eq_outOfFuel.mp hout with hout | ⟨t, ht, hout⟩
    · exact halternatives n (by omega) hout
    split_ifs at hout with hbar
    have hsteps := (steps_of_parse s t stack).2.1 ht
    have hle := length_le_of_steps hp hsteps.1
    have hpos : 0 < t.iter.length := by
      refine List.length_pos_iff.mpr fun hnil => ?_
      rw [hnil] at hbar
      exact absurd hbar (by decide)
    have hskip : t.skip.iter.length + 1 = t.iter.length := by
      obtain ⟨c, iter, hiter⟩ := List.exists_cons_of_length_pos hpos
      rw [State.skip_iter, hiter]
      rfl
    have hsafe := h.steps (hsteps.1.tail (.bar (not_not.mp hbar)))
    exact (ih _ (by simp only at hle; omega) t.skip stack hsafe rfl).1 n (by simp only at hle; omega) hout

theorem exists_fuel_iff (hp : p.Library) (pattern : List Char) :
    (∃ n, p.parsePattern n pattern ≠ .outOfFuel) ↔ ∀ c, p.Reaches pattern c → ¬ p.RunsAway c := by
  constructor
  · rintro ⟨n, hn⟩ c hc
    exact (halts_of_parsePattern hn).not_runsAway hc
  · intro h
    refine ⟨3 * pattern.length + 3, ?_⟩
    refine bind_ne_outOfFuel ((parse_ne_outOfFuel hp (State.start pattern) [] h).1 _ (Nat.le_refl _)) fun s => ?_
    split <;> simp

/-! ## In step with the scanner -/

theorem Step.body (hp : p.Library) (hunicode : p.unicode = false) {d : Config} (h : p.Step c d)
    (hc : BodyFrom false c.state.iter) : BodyFrom false d.state.iter := by
  cases h with
  | term _ h => exact (takes_alternative hp h).keeps.body hunicode hc
  | group _ h => exact (takes_alternative hp h).keeps.body hunicode hc
  | bar h => exact (Keeps.skip_peek (by decide) h).body hunicode hc
  | @close s s' _ frame hparen h =>
    have hskip : Keeps p.unicode false s.iter (skip s.iter) := .skip_peek (by decide) hparen
    obtain ⟨t, ht, h⟩ := Outcome.bind_eq_ok.mp h
    rw [closeGroup, if_neg (not_not.mpr hparen)] at ht
    cases ht
    split_ifs at h
    · exact (hskip.trans (keeps_quantified h)).body hunicode hc
    · cases h
      exact hskip.body hunicode hc

theorem not_runsOff (hunicode : p.unicode = false) {count : ℕ} {iter : List Char}
    (h : BodyFrom true iter) : ¬ p.RunsOff count iter := by
  intro hoff
  induction hoff using ReflTransGen.head_induction_on with
  | refl => cases h
  | head hround _ ih => exact ih ((characterClassRound_spec hround).keeps.body hunicode h)

theorem not_runsAway_of_body (hunicode : p.unicode = false) (h : BodyFrom false c.state.iter) :
    ¬ p.RunsAway c := by
  rintro ⟨hhead, hoff⟩
  obtain ⟨iter, hiter⟩ := List.head?_eq_some_iff.mp hhead
  rw [hiter] at h hoff
  cases h with
  | char _ _ _ hbody =>
    refine not_runsOff hunicode ?_ hoff
    unfold skipCaret
    split
    next hcaret => exact (Keeps.skip_peek (by decide) hcaret).body hunicode hbody
    · exact hbody

/-- A body of the lexer is parsed to an end just if, with the flag, the parser comes to no class the
rounds of which come to the end of the body. -/
theorem parsePattern_terminates_iff (hp : p.Library) {body rest : List Char}
    (hbody : Lexer.scanRegExpPattern (utf8Text (body ++ '/' :: rest)) = some (utf8Text ('/' :: rest))) :
    (∃ n, p.parsePattern n body ≠ .outOfFuel) ↔
      (p.unicode = true → ∀ c, p.Reaches body c → ¬ p.RunsAway c) := by
  rw [exists_fuel_iff hp]
  refine ⟨fun h _ => h, fun h => ?_⟩
  cases hunicode : p.unicode with
  | true => exact h hunicode
  | false =>
    rw [Lexer.scanRegExpPattern_utf8Text, Option.map_eq_some_iff] at hbody
    obtain ⟨tail, htail, heq⟩ := hbody
    obtain rfl := utf8Text_injective heq
    obtain ⟨body', rest', hsplit, hrest, hfrom, -⟩ := scanBody_eq_some_iff.mp htail
    obtain rfl := (List.cons.inj hrest).2
    obtain rfl := List.append_cancel_right hsplit
    intro c hc
    refine not_runsAway_of_body hunicode ?_
    induction hc with
    | refl => exact hfrom
    | tail _ hstep ih => exact hstep.body hp hunicode ih

/-- A parser for names of ASCII letters and digits. -/
def asciiParser (unicode : Bool) : RegExpParser where
  unicode := unicode
  isIDStart := isControlLetter
  isIDPart cp := isControlLetter cp || Lexer.isDecimalDigit cp || cp = '_'.toNat

theorem asciiParser_library (unicode : Bool) : (asciiParser unicode).Library := by
  cases unicode
  all_goals exact ⟨by decide, by decide, by decide⟩

/-- The body of `/[\p{L}]{2}/`. -/
def propertyClass : List Char := ['[', '\\', 'p', '\x7b', 'L', '\x7d', ']', '\x7b', '2', '\x7d']

theorem scanRegExpPattern_propertyClass :
    Lexer.scanRegExpPattern (utf8Text (propertyClass ++ ['/'])) = some (utf8Text ['/']) := by
  rw [Lexer.scanRegExpPattern_utf8Text]
  rfl

theorem parsePattern_terminates_propertyClass :
    ∃ n, (asciiParser false).parsePattern n propertyClass ≠ .outOfFuel :=
  (parsePattern_terminates_iff (asciiParser_library false) scanRegExpPattern_propertyClass).mpr
    fun h => absurd h (by decide)

/-- With the flag the property escape takes the end of the class with it. -/
theorem propertyClass_runs_off :
    Lexer.scanRegExpPattern (utf8Text (propertyClass ++ ['/'])) = some (utf8Text ['/']) ∧
      ¬ ∃ n, (asciiParser true).parsePattern n propertyClass ≠ .outOfFuel := by
  have hproperty : (asciiParser true).characterClassRound 0 propertyClass.tail =
      .ok (false, ['2', '\x7d']) := by decide +kernel
  have hdigit : (asciiParser true).characterClassRound 0 ['2', '\x7d'] = .ok (false, ['\x7d']) := by
    decide +kernel
  have hbrace : (asciiParser true).characterClassRound 0 ['\x7d'] = .ok (false, []) := by decide +kernel
  have hoff : (asciiParser true).RunsOff 0 propertyClass.tail :=
    .head hproperty (.head hdigit (.head hbrace .refl))
  exact ⟨scanRegExpPattern_propertyClass, fun h =>
    (exists_fuel_iff (asciiParser_library true) _).mp h _ .refl ⟨rfl, hoff⟩⟩

end ArkTs2abc.Es2panda.RegExpParser
