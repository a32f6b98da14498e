import ArkTs2abc.Es2panda.RegExp.Consumption

/-!
# Runs of the parser of regular expressions

The parser as a machine on a state and a stack of open groups. The machine is deterministic, and it
passes what a call of the parser passes; so a property of all states that the parser
comes to is one of the states that the machine reaches.

## Main definitions

* `RegExpParser.Step`, `RegExpParser.Reaches` — the machine.
* `RegExpParser.Halts` — the machine gets stuck elsewhere than in a class that does not end.

## Main results

* `RegExpParser.steps_of_parse`, `RegExpParser.halts_of_parse` — a call of the parser on the machine.
-/

namespace ArkTs2abc.Es2panda.RegExpParser

open Unicode Relation
open Outcome (Below)

variable (p : RegExpParser)

structure Config where
  state : State
  stack : List Frame

inductive Step : Config → Config → Prop where
  | term {n : ℕ} {s s' : State} {stack : List Frame} (hmore : endsAlternative (peek s.iter) = false)
      (h : p.alternative n s = .ok (.term s')) : Step ⟨s, stack⟩ ⟨s', stack⟩
  | group {n : ℕ} {s s' : State} {stack : List Frame} {frame : Frame}
      (hmore : endsAlternative (peek s.iter) = false)
      (h : p.alternative n s = .ok (.group frame s')) : Step ⟨s, stack⟩ ⟨s', frame :: stack⟩
  | bar {s : State} {stack : List Frame} (h : peek s.iter = '|'.toNat) :
      Step ⟨s, stack⟩ ⟨s.skip, stack⟩
  | close {s s' : State} {stack : List Frame} {frame : Frame} (hparen : peek s.iter = ')'.toNat)
      (h : frame.close s = .ok s') : Step ⟨s, frame :: stack⟩ ⟨s', stack⟩

/-- What the parser comes to on a pattern. -/
def Reaches (pattern : List Char) : Config → Prop := ReflTransGen p.Step ⟨State.start pattern, []⟩

/-! ## Classes that do not end -/

/-- The rounds of the loop over a class come to the end of the pattern, where each further round
reads nothing and goes on. -/
def RunsOff (count : ℕ) (iter : List Char) : Prop :=
  ReflTransGen (fun iter rest => p.characterClassRound count iter = .ok (false, rest)) iter []

/-- The text of a class from behind its bracket and its circumflex on. -/
def skipCaret (iter : List Char) : List Char := if peek iter = '^'.toNat then skip iter else iter

/-- The parser stands before a class that does not end. -/
def RunsAway (c : Config) : Prop :=
  c.state.iter.head? = some '[' ∧
    p.RunsOff c.state.capturingGroupCount (skipCaret (skip c.state.iter))

variable {p}

theorem characterClassRound_nil (count : ℕ) : p.characterClassRound count [] = .ok (false, []) := by
  simp [characterClassRound, parseClassAtom, INVALID_CP]
  rfl

theorem RunsOff.outOfFuel {count : ℕ} {iter : List Char} (h : p.RunsOff count iter) (n : ℕ) :
    p.characterClassLoop count n iter = .outOfFuel := by
  induction h using ReflTransGen.head_induction_on generalizing n with
  | refl =>
    induction n with
    | zero => rfl
    | succ n ih => rwa [characterClassLoop, characterClassRound_nil]
  | head hround _ ih =>
    cases n with
    | zero => rfl
    | succ n =>
      rw [characterClassLoop, hround]
      exact ih n

theorem RunsOff.of_outOfFuel {count n : ℕ} {iter : List Char} (hn : iter.length < n)
    (h : p.characterClassLoop count n iter = .outOfFuel) : p.RunsOff count iter := by
  induction n generalizing iter with
  | zero => exact absurd hn (Nat.not_lt_zero _)
  | succ n ih =>
    by_cases hnil : iter = []
    · rw [hnil]
      exact .refl
    rw [characterClassLoop] at h
    rcases Outcome.bind_eq_outOfFuel.mp h with h | ⟨⟨closed, mid⟩, hround, h⟩
    · exact absurd h (Outcome.ofExcept_ne_outOfFuel _)
    have hround := Outcome.ofExcept_eq_ok.mp hround
    cases closed with
    | true => cases h
    | false =>
      have hlt := (characterClassRound_spec hround).length_lt hnil
      exact .head hround (ih (by omega) h)

theorem parseCharacterClass_eq (count n : ℕ) (iter : List Char) :
    p.parseCharacterClass count n iter = p.characterClassLoop count n (skipCaret iter) := by
  unfold parseCharacterClass skipCaret
  split <;> rfl

theorem RunsAway.alternative_eq {c : Config} (h : p.RunsAway c) (n : ℕ) :
    p.alternative n c.state = .outOfFuel := by
  obtain ⟨hhead, hoff⟩ := h
  have hpeek (d : Char) (hd : d.toNat < 0x80) (hne : d ≠ '[') : peek c.state.iter ≠ d.toNat := by
    intro heq
    rw [(peek_eq_iff hd _).mp heq] at hhead
    exact hne (Option.some.inj hhead)
  have hclass := (peek_eq_iff (d := '[') (by decide) _).mpr hhead
  unfold alternative
  dsimp only
  rw [if_neg (hpeek _ (by decide) (by decide)), if_neg, if_neg (hpeek _ (by decide) (by decide)),
    if_pos hclass, classTerm, parseCharacterClass_eq]
  · rw [State.skip_iter, State.skip_count, hoff.outOfFuel]
    rfl
  · exact not_or.mpr ⟨hpeek _ (by decide) (by decide), hpeek _ (by decide) (by decide)⟩

/-! ## Determinism -/

theorem alternative_unique {n m : ℕ} {s : State} {a b : Outcome Move} (hn : p.alternative n s = a)
    (hm : p.alternative m s = b) (ha : a ≠ .outOfFuel) (hb : b ≠ .outOfFuel) : a = b := by
  have hmono {n m : ℕ} (h : n ≤ m) : Below (p.alternative n s) (p.alternative m s) :=
    Below.of_succ (f := fun n => p.alternative n s) (fun _ => p.below_alternative s) h
  subst hn hm
  rcases Nat.le_total n m with h | h
  · exact ((hmono h).eq ha).symm
  · exact (hmono h).eq hb

theorem not_more_bar {cp : ℕ} (hmore : endsAlternative cp = false) : cp ≠ '|'.toNat := by
  rintro rfl
  exact absurd hmore (by decide)

theorem not_more_paren {cp : ℕ} (hmore : endsAlternative cp = false) : cp ≠ ')'.toNat := by
  rintro rfl
  exact absurd hmore (by decide)

theorem Step.unique {c d d' : Config} (h : p.Step c d) (h' : p.Step c d') : d = d' := by
  cases h with
  | term hmore h =>
    cases h' with
    | term _ h' =>
      cases alternative_unique h h' (by simp) (by simp)
      rfl
    | group _ h' => cases alternative_unique h h' (by simp) (by simp)
    | bar hbar => exact absurd hbar (not_more_bar hmore)
    | close hparen => exact absurd hparen (not_more_paren hmore)
  | group hmore h =>
    cases h' with
    | term _ h' => cases alternative_unique h h' (by simp) (by simp)
    | group _ h' =>
      cases alternative_unique h h' (by simp) (by simp)
      rfl
    | bar hbar => exact absurd hbar (not_more_bar hmore)
    | close hparen => exact absurd hparen (not_more_paren hmore)
  | bar hbar =>
    cases h' with
    | term hmore => exact absurd hbar (not_more_bar hmore)
    | group hmore => exact absurd hbar (not_more_bar hmore)
    | bar => rfl
    | close hparen => exact absurd (hbar.symm.trans hparen) (by decide)
  | close hparen h =>
    cases h' with
    | term hmore => exact absurd hparen (not_more_paren hmore)
    | group hmore => exact absurd hparen (not_more_paren hmore)
    | bar hbar => exact absurd (hbar.symm.trans hparen) (by decide)
    | close _ h' =>
      cases Outcome.ok.inj (h.symm.trans h')
      rfl

variable (p) in
/-- There is no further step. -/
def Stuck (c : Config) : Prop := ∀ d, ¬ p.Step c d

variable (p) in
/-- The machine gets stuck elsewhere than in a class that does not end. -/
def Halts (c : Config) : Prop := ∃ d, ReflTransGen p.Step c d ∧ p.Stuck d ∧ ¬ p.RunsAway d

theorem RunsAway.stuck {c : Config} (h : p.RunsAway c) : p.Stuck c := by
  intro d hstep
  have hends {s : State} (hhead : s.iter.head? = some '[') (e : Char) (he : e.toNat < 0x80)
      (hne : e ≠ '[') : peek s.iter ≠ e.toNat := by
    intro heq
    rw [(peek_eq_iff he _).mp heq] at hhead
    exact hne (Option.some.inj hhead)
  cases hstep with
  | @term n _ _ _ _ halternative => simp [h.alternative_eq n] at halternative
  | @group n _ _ _ _ _ halternative => simp [h.alternative_eq n] at halternative
  | bar hbar => exact hends h.1 _ (by decide) (by decide) hbar
  | close hparen => exact hends h.1 _ (by decide) (by decide) hparen

theorem Halts.not_runsAway {c d : Config} (h : p.Halts c) (hd : ReflTransGen p.Step c d) :
    ¬ p.RunsAway d := by
  intro haway
  obtain ⟨e, he, hstuck, hnot⟩ := h
  suffices d = e from hnot (this ▸ haway)
  induction hd using ReflTransGen.head_induction_on with
  | refl =>
    rcases ReflTransGen.cases_head he with rfl | ⟨d', hstep, -⟩
    · rfl
    · exact absurd hstep (haway.stuck d')
  | head hstep hrest ih =>
    rcases ReflTransGen.cases_head he with rfl | ⟨d', hstep', he⟩
    · exact absurd hstep (hstuck _)
    · rw [hstep'.unique hstep] at he
      exact ih he

theorem Halts.head {c d : Config} (h : ReflTransGen p.Step c d) (hd : p.Halts d) : p.Halts c := by
  obtain ⟨e, he, hrest⟩ := hd
  exact ⟨e, h.trans he, hrest⟩

/-! ## The parser on the machine -/

/-- A call that returns has taken the machine along, and returns where an alternative ends. -/
theorem steps_of_parse {n : ℕ} (s s' : State) (stack : List Frame) :
    (p.parseDisjunction n s = .ok s' → ReflTransGen p.Step ⟨s, stack⟩ ⟨s', stack⟩ ∧
      endsAlternative (peek s'.iter) = true ∧ peek s'.iter ≠ '|'.toNat) ∧
    (p.parseAlternatives n s = .ok s' → ReflTransGen p.Step ⟨s, stack⟩ ⟨s', stack⟩ ∧
      endsAlternative (peek s'.iter) = true) ∧
    (p.parseAlternative n s = .ok s' → endsAlternative (peek s.iter) = false →
      ReflTransGen p.Step ⟨s, stack⟩ ⟨s', stack⟩) := by
  induction n generalizing s s' stack with
  | zero => exact ⟨fun h => (by cases h), fun h => (by cases h), fun h => (by cases h)⟩
  | succ n ih =>
    refine ⟨fun h => ?_, fun h => ?_, fun h hmore => ?_⟩
    · rw [parseDisjunction] at h
      obtain ⟨t, ht, h⟩ := Outcome.bind_eq_ok.mp h
      obtain ⟨hsteps, hends⟩ := (ih s t stack).2.1 ht
      by_cases hbar : peek t.iter = '|'.toNat
      · rw [if_neg (not_not.mpr hbar)] at h
        obtain ⟨hrest, hs'⟩ := (ih t.skip s' stack).1 h
        exact ⟨hsteps.trans (.head (.bar hbar) hrest), hs'⟩
      · rw [if_pos hbar] at h
        cases h
        exact ⟨hsteps, hends, hbar⟩
    · rw [parseAlternatives] at h
      by_cases hends : endsAlternative (peek s.iter) = true
      · rw [if_pos hends] at h
        cases h
        exact ⟨.refl, hends⟩
      · rw [if_neg hends] at h
        obtain ⟨t, ht, h⟩ := Outcome.bind_eq_ok.mp h
        have hfirst := (ih s t stack).2.2 ht ((Bool.not_eq_true _).mp hends)
        obtain ⟨hrest, hs'⟩ := (ih t s' stack).2.1 h
        exact ⟨hfirst.trans hrest, hs'⟩
    · rw [parseAlternative_succ] at h
      obtain ⟨move, hmove, h⟩ := Outcome.bind_eq_ok.mp h
      cases move with
      | term t =>
        cases h
        exact .single (.term hmore hmove)
      | group frame t =>
        obtain ⟨u, hu, h⟩ := Outcome.bind_eq_ok.mp h
        obtain ⟨hinner, hends, hbar⟩ := (ih t u (frame :: stack)).1 hu
        have hparen : peek u.iter = ')'.toNat := by
          obtain ⟨v, hclose, -⟩ := Outcome.bind_eq_ok.mp h
          unfold closeGroup at hclose
          split_ifs at hclose with hne
          exact not_not.mp hne
        exact (ReflTransGen.head (.group hmore hmove) hinner).tail (.close hparen h)

theorem not_runsAway_of_ends {s : State} {stack : List Frame} (h : endsAlternative (peek s.iter) = true) :
    ¬ p.RunsAway ⟨s, stack⟩ := by
  rintro ⟨hhead, -⟩
  rw [(peek_eq_iff (d := '[') (by decide) s.iter).mpr hhead] at h
  exact absurd h (by decide)

theorem halts_of_alternative {n : ℕ} {s : State} {stack : List Frame} {message : String}
    (hmore : endsAlternative (peek s.iter) = false) (h : p.alternative n s = .error message) :
    p.Halts ⟨s, stack⟩ := by
  refine ⟨_, .refl, fun d hstep => ?_, fun haway => by simp [haway.alternative_eq n] at h⟩
  cases hstep with
  | term _ h' => cases alternative_unique h h' (by simp) (by simp)
  | group _ h' => cases alternative_unique h h' (by simp) (by simp)
  | bar hbar => exact absurd hbar (not_more_bar hmore)
  | close hparen => exact absurd hparen (not_more_paren hmore)

theorem halts_of_close {s : State} {stack : List Frame} {frame : Frame} {message : String}
    (hends : endsAlternative (peek s.iter) = true) (hbar : peek s.iter ≠ '|'.toNat)
    (h : frame.close s = .error message) : p.Halts ⟨s, frame :: stack⟩ := by
  refine ⟨_, .refl, fun d hstep => ?_, not_runsAway_of_ends hends⟩
  cases hstep with
  | term hmore => simp [hends] at hmore
  | group hmore => simp [hends] at hmore
  | bar hbar' => exact hbar hbar'
  | close _ h' => simp [h] at h'

/-- A call that throws has taken the machine to where it is stuck. -/
theorem halts_of_parse {n : ℕ} (s : State) (stack : List Frame) (message : String) :
    (p.parseDisjunction n s = .error message → p.Halts ⟨s, stack⟩) ∧
    (p.parseAlternatives n s = .error message → p.Halts ⟨s, stack⟩) ∧
    (p.parseAlternative n s = .error message → endsAlternative (peek s.iter) = false →
      p.Halts ⟨s, stack⟩) := by
  induction n generalizing s stack with
  | zero => exact ⟨fun h => (by cases h), fun h => (by cases h), fun h => (by cases h)⟩
  | succ n ih =>
    refine ⟨fun h => ?_, fun h => ?_, fun h hmore => ?_⟩
    · rw [parseDisjunction] at h
      rcases Outcome.bind_eq_error.mp h with h | ⟨t, ht, h⟩
      · exact (ih s stack).2.1 h
      · obtain ⟨hsteps, -⟩ := (steps_of_parse s t stack).2.1 ht
        split_ifs at h with hbar
        exact .head (hsteps.tail (.bar (not_not.mp hbar))) ((ih t.skip stack).1 h)
    · rw [parseAlternatives] at h
      split_ifs at h with hends
      have hmore := (Bool.not_eq_true _).mp hends
      rcases Outcome.bind_eq_error.mp h with h | ⟨t, ht, h⟩
      · exact (ih s stack).2.2 h hmore
      · exact .head ((steps_of_parse s t stack).2.2 ht hmore) ((ih t stack).2.1 h)
    · rw [parseAlternative_succ] at h
      rcases Outcome.bind_eq_error.mp h with h | ⟨move, hmove, h⟩
      · exact halts_of_alternative hmore h
      cases move with
      | term t => cases h
      | group frame t =>
        have hgroup : ReflTransGen p.Step ⟨s, stack⟩ ⟨t, frame :: stack⟩ := .single (.group hmore hmove)
        rcases Outcome.bind_eq_error.mp h with h | ⟨u, hu, h⟩
        · exact .head hgroup ((ih t (frame :: stack)).1 h)
        · obtain ⟨hinner, hends, hbar⟩ := (steps_of_parse t u (frame :: stack)).1 hu
          exact .head (hgroup.trans hinner) (halts_of_close hends hbar h)

theorem halts_of_parsePattern {n : ℕ} {pattern : List Char} (h : p.parsePattern n pattern ≠ .outOfFuel) :
    p.Halts ⟨State.start pattern, []⟩ := by
  rw [parsePattern] at h
  cases hparse : p.parseDisjunction n (State.start pattern) with
  | outOfFuel => simp [hparse] at h
  | error message => exact (halts_of_parse _ [] message).1 hparse
  | ok s =>
    obtain ⟨hsteps, hends, hbar⟩ := (steps_of_parse _ s []).1 hparse
    refine ⟨_, hsteps, fun d hstep => ?_, not_runsAway_of_ends hends⟩
    cases hstep with
    | term hmore => simp [hends] at hmore
    | group hmore => simp [hends] at hmore
    | bar hbar' => exact hbar hbar'

end ArkTs2abc.Es2panda.RegExpParser
