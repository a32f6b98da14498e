import ArkTs2abc.Es2panda.RegExp.Parser
import Mathlib.Logic.Relation

/-!
# The parser of regular expressions as a machine

The recursion of the parser turned into steps on a state and a stack of the groups that are
open. A run of the machine passes the states that a run of the parser passes.

## Main definitions

* `RegExpParser.alternative` — `ParseAlternative` up to its recursive call.
* `RegExpParser.Step`, `RegExpParser.Reaches` — the machine.

## Main results

* `RegExpParser.parseAlternative_succ` — `ParseAlternative` by its first part.
* `RegExpParser.Below.parseDisjunction` — more fuel does not change a result.
-/

namespace ArkTs2abc.Es2panda

/-! ## Fuel -/

namespace Outcome

variable {α β : Type}

/-- What there is of a result stays as it is. -/
def Below (a b : Outcome α) : Prop := a = outOfFuel ∨ a = b

theorem Below.refl (a : Outcome α) : Below a a := .inr rfl

theorem Below.outOfFuel (a : Outcome α) : Below .outOfFuel a := .inl rfl

theorem Below.trans {a b c : Outcome α} (h : Below a b) (h' : Below b c) : Below a c := by
  rcases h with rfl | rfl
  · exact .inl rfl
  · exact h'

theorem Below.bind {a b : Outcome α} {f g : α → Outcome β} (h : Below a b)
    (hfg : ∀ x, Below (f x) (g x)) : Below (a.bind f) (b.bind g) := by
  rcases h with rfl | rfl
  · exact .inl rfl
  · cases a with
    | ok x => exact hfg x
    | error message => exact .refl _
    | outOfFuel => exact .inl rfl

theorem Below.eq {a b : Outcome α} (h : Below a b) (ha : a ≠ .outOfFuel) : b = a :=
  (h.resolve_left ha).symm

theorem Below.of_succ {f : ℕ → Outcome α} (h : ∀ n, Below (f n) (f (n + 1))) {n m : ℕ} (hnm : n ≤ m) :
    Below (f n) (f m) := by
  induction hnm with
  | refl => exact .refl _
  | step _ ih => exact ih.trans (h _)

theorem bind_eq_ok {a : Outcome α} {f : α → Outcome β} {b : β} :
    a.bind f = ok b ↔ ∃ x, a = ok x ∧ f x = ok b := by
  cases a <;> simp [bind]

theorem bind_eq_error {a : Outcome α} {f : α → Outcome β} {message : String} :
    a.bind f = error message ↔ a = error message ∨ ∃ x, a = ok x ∧ f x = error message := by
  cases a <;> simp [bind]

theorem bind_eq_outOfFuel {a : Outcome α} {f : α → Outcome β} :
    a.bind f = outOfFuel ↔ a = outOfFuel ∨ ∃ x, a = ok x ∧ f x = outOfFuel := by
  cases a <;> simp [bind]

theorem bind_assoc {γ : Type} (a : Outcome α) (f : α → Outcome β) (g : β → Outcome γ) :
    (a.bind f).bind g = a.bind fun x => (f x).bind g := by
  cases a <;> rfl

theorem bind_ok (a : Outcome α) : (a.bind fun x => ok x) = a := by
  cases a <;> rfl

@[simp] theorem ofExcept_ok (a : α) : ofExcept (.ok a) = ok a := rfl

@[simp] theorem ofExcept_error (message : String) : ofExcept (.error message : Except String α) =
    error message := rfl

theorem ofExcept_ne_outOfFuel (x : Except String α) : ofExcept x ≠ outOfFuel := by
  cases x <;> nofun

theorem ofExcept_eq_ok {x : Except String α} {a : α} : ofExcept x = ok a ↔ x = .ok a := by
  cases x <;> simp

end Outcome

namespace RegExpParser

open Outcome (Below)
open Lexer (isDecimalDigit)

variable (p : RegExpParser)

/-! ## The first part of an alternative -/

/-- A group that is open: the error of a missing parenthesis, and whether its end takes a quantifier. -/
structure Frame where
  message : String
  quantifier : Bool
  deriving DecidableEq, Repr

/-- What `ParseAlternative` does before it calls `ParseDisjunction`, if it does. -/
inductive Move where
  | term (s : State)
  | group (frame : Frame) (s : State)
  deriving DecidableEq, Repr

def Move.state : Move → State
  | .term s => s
  | .group _ s => s

/-- A term with its quantifier, or an assertion. -/
def term (s : State) : Outcome Move := .ok (.term s)

local instance : LawfulBEq (List UInt8) := inferInstance

def namedGroup (n : ℕ) (s : State) : Outcome Move :=
  (p.parseIdent n s.iter).bind fun (name, iter) =>
    if name ∈ s.groupNames then .error "Duplicate group name"
    else .ok (.group ⟨"Invalid capturing group", true⟩
      { s.at iter with groupNames := name :: s.groupNames }.countGroup)

/-- From behind a backslash on. -/
def escapeTerm (n : ℕ) (s : State) : Outcome State :=
  if peek s.iter = 'b'.toNat ∨ peek s.iter = 'B'.toNat then .ok s.skip
  else (p.parseAtomEscape n s).bind quantified

/-- From behind a parenthesis on. -/
def openGroup (n : ℕ) (s : State) : Outcome Move :=
  if peek s.iter ≠ '?'.toNat then .ok (.group ⟨"Invalid capturing group", true⟩ s.countGroup)
  else
    let s := s.skip
    let cp := (next s.iter).1
    let s := s.skip
    if cp = ':'.toNat then .ok (.group ⟨"Invalid non-capturing group", true⟩ s)
    else if cp = '='.toNat ∨ cp = '!'.toNat then .ok (.group ⟨"Invalid assertion", !p.unicode⟩ s)
    else if cp ≠ '<'.toNat then .error "Invalid group"
    else if peek s.iter = '='.toNat ∨ peek s.iter = '!'.toNat then
      .ok (.group ⟨"Invalid assertion", false⟩ s.skip)
    else p.namedGroup n s

/-- From behind an opening bracket on. -/
def classTerm (n : ℕ) (s : State) : Outcome State :=
  (p.parseCharacterClass s.capturingGroupCount n s.iter).bind fun iter => quantified (s.at iter)

/-- The default case. -/
def characterTerm (s : State) : Outcome State :=
  (Outcome.ofExcept (parseBracedQuantifier s.iter)).bind fun (found, iter) =>
    if found then .error "Invalid quantifier, nothing to repeat"
    else
      let (found, iter) := p.parsePatternCharacter iter
      if found = false then .error "Invalid character" else quantified (s.at iter)

/-- `ParseAlternative` up to the call of `ParseDisjunction`. -/
def alternative (n : ℕ) (s : State) : Outcome Move :=
  let cp := peek s.iter
  if cp = '\\'.toNat then (p.escapeTerm n s.skip).bind term
  else if cp = '^'.toNat ∨ cp = '$'.toNat then term s.skip
  else if cp = '('.toNat then p.openGroup n s.skip
  else if cp = '['.toNat then (p.classTerm n s.skip).bind term
  else if cp = '.'.toNat then (quantified s.skip).bind term
  else (p.characterTerm s).bind term

/-- What happens behind the disjunction of a group. -/
def Frame.close (frame : Frame) (s : State) : Outcome State :=
  (closeGroup frame.message s).bind fun s => if frame.quantifier then quantified s else .ok s

/-- The rest of `ParseAlternative`. -/
def finish (parseDisjunction : State → Outcome State) : Move → Outcome State
  | .term s => .ok s
  | .group frame s => (parseDisjunction s).bind frame.close

theorem bind_term_finish (a : Outcome State) (parseDisjunction : State → Outcome State) :
    (a.bind term).bind (finish parseDisjunction) = a := by
  cases a <;> rfl

theorem Frame.close_false (message : String) (s : State) :
    Frame.close ⟨message, false⟩ s = closeGroup message s := Outcome.bind_ok _

theorem openGroup_finish (n : ℕ) (s : State) :
    (p.openGroup n s).bind (finish (p.parseDisjunction n)) =
      if peek s.iter ≠ '?'.toNat then
        (parseCapturingGroup (p.parseDisjunction n) s).bind quantified
      else
        let s := s.skip
        let cp := (next s.iter).1
        let s := s.skip
        if cp = ':'.toNat then (parseNonCapturingGroup (p.parseDisjunction n) s).bind quantified
        else if cp = '='.toNat ∨ cp = '!'.toNat then
          (parseAssertion (p.parseDisjunction n) s).bind fun s =>
            if p.unicode then .ok s else quantified s
        else if cp ≠ '<'.toNat then .error "Invalid group"
        else if peek s.iter = '='.toNat ∨ peek s.iter = '!'.toNat then
          parseAssertion (p.parseDisjunction n) s.skip
        else (p.parseNamedCapturingGroup (p.parseDisjunction n) n s).bind quantified := by
  have hgroup (message : String) (s : State) :
      (p.parseDisjunction n s).bind (Frame.close ⟨message, true⟩) =
        ((p.parseDisjunction n s).bind (closeGroup message)).bind quantified :=
    (Outcome.bind_assoc _ _ _).symm
  have hassert (message : String) (s : State) :
      (p.parseDisjunction n s).bind (Frame.close ⟨message, false⟩) =
        (p.parseDisjunction n s).bind (closeGroup message) :=
    congrArg _ (funext fun s => Frame.close_false message s)
  unfold openGroup
  dsimp only
  split
  · exact hgroup _ _
  split
  · exact hgroup _ _
  split
  · cases hunicode : p.unicode with
    | true => exact (hassert _ _).trans (Outcome.bind_ok _).symm
    | false => exact hgroup _ _
  split
  · rfl
  split
  · exact hassert _ _
  · rw [parseNamedCapturingGroup, namedGroup, Outcome.bind_assoc, Outcome.bind_assoc]
    refine congrArg (Outcome.bind _) (funext fun x => ?_)
    by_cases hname : x.1 ∈ s.skip.skip.groupNames
    · simp only [hname, if_true, Outcome.error_bind]
    · simp only [hname, if_false]
      exact hgroup _ _

theorem parseAlternative_succ (n : ℕ) (s : State) :
    p.parseAlternative (n + 1) s = (p.alternative n s).bind (finish (p.parseDisjunction n)) := by
  rw [parseAlternative, alternative]
  by_cases hescape : peek s.iter = '\\'.toNat
  · rw [if_pos hescape, if_pos hescape, bind_term_finish]
    rfl
  rw [if_neg hescape, if_neg hescape]
  by_cases hassertion : peek s.iter = '^'.toNat ∨ peek s.iter = '$'.toNat
  · rw [if_pos hassertion, if_pos hassertion]
    rfl
  rw [if_neg hassertion, if_neg hassertion]
  by_cases hparen : peek s.iter = '('.toNat
  · rw [if_pos hparen, if_pos hparen, openGroup_finish]
  rw [if_neg hparen, if_neg hparen]
  by_cases hclass : peek s.iter = '['.toNat
  · rw [if_pos hclass, if_pos hclass, bind_term_finish]
    rfl
  rw [if_neg hclass, if_neg hclass]
  by_cases hdot : peek s.iter = '.'.toNat
  · rw [if_pos hdot, if_pos hdot, bind_term_finish]
  rw [if_neg hdot, if_neg hdot, bind_term_finish]
  rfl

/-! ## More fuel -/

section

variable {n : ℕ}

theorem below_characterClassLoop (count : ℕ) (iter : List Char) :
    Below (p.characterClassLoop count n iter) (p.characterClassLoop count (n + 1) iter) := by
  induction n generalizing iter with
  | zero => exact .outOfFuel _
  | succ n ih =>
    refine (Below.refl _).bind ?_
    rintro ⟨closed, iter⟩
    cases closed with
    | true => exact .refl _
    | false => exact ih iter

theorem below_parseCharacterClass (count : ℕ) (iter : List Char) :
    Below (p.parseCharacterClass count n iter) (p.parseCharacterClass count (n + 1) iter) := by
  unfold parseCharacterClass
  split
  · exact p.below_characterClassLoop count _
  · exact p.below_characterClassLoop count _

theorem below_identLoop (ident : List UInt8) (iter : List Char) :
    Below (p.identLoop n ident iter) (p.identLoop (n + 1) ident iter) := by
  induction n generalizing ident iter with
  | zero => exact .outOfFuel _
  | succ n ih =>
    rw [identLoop, identLoop]
    split
    · exact .refl _
    · refine (Below.refl _).bind ?_
      rintro ⟨cp, iter⟩
      dsimp only
      split
      · exact .refl _
      · exact ih _ _

theorem below_parseIdent (iter : List Char) : Below (p.parseIdent n iter) (p.parseIdent (n + 1) iter) := by
  refine (Below.refl _).bind ?_
  rintro ⟨cp, iter⟩
  dsimp only
  split
  · exact .refl _
  · exact p.below_identLoop _ _

theorem below_parseNamedBackreference (s : State) :
    Below (p.parseNamedBackreference n s) (p.parseNamedBackreference (n + 1) s) := by
  unfold parseNamedBackreference
  split
  · exact .refl _
  split
  · exact .refl _
  · exact (p.below_parseIdent _).bind fun x => .refl _

theorem below_parseAtomEscape (s : State) :
    Below (p.parseAtomEscape n s) (p.parseAtomEscape (n + 1) s) := by
  rw [parseAtomEscape, parseAtomEscape]
  by_cases hdigit : isDecimalDigit (peek s.iter)
  · rw [if_pos hdigit, if_pos hdigit]
    exact .refl _
  rw [if_neg hdigit, if_neg hdigit]
  by_cases hx : peek s.iter = 'x'.toNat
  · rw [if_pos hx, if_pos hx]
    exact .refl _
  rw [if_neg hx, if_neg hx]
  by_cases hu : peek s.iter = 'u'.toNat
  · rw [if_pos hu, if_pos hu]
    exact .refl _
  rw [if_neg hu, if_neg hu]
  by_cases hk : peek s.iter = 'k'.toNat
  · rw [if_pos hk, if_pos hk]
    exact p.below_parseNamedBackreference _
  rw [if_neg hk, if_neg hk]
  exact .refl _

theorem below_openGroup (s : State) : Below (p.openGroup n s) (p.openGroup (n + 1) s) := by
  unfold openGroup
  dsimp only
  split
  · exact .refl _
  split
  · exact .refl _
  split
  · exact .refl _
  split
  · exact .refl _
  split
  · exact .refl _
  · exact (p.below_parseIdent _).bind fun _ => .refl _

theorem below_alternative (s : State) : Below (p.alternative n s) (p.alternative (n + 1) s) := by
  have hescape : Below (p.escapeTerm n s.skip) (p.escapeTerm (n + 1) s.skip) := by
    unfold escapeTerm
    split
    · exact .refl _
    · exact (p.below_parseAtomEscape _).bind fun _ => .refl _
  have hclass : Below (p.classTerm n s.skip) (p.classTerm (n + 1) s.skip) :=
    (p.below_parseCharacterClass _ _).bind fun _ => .refl _
  unfold alternative
  dsimp only
  split
  · exact hescape.bind fun _ => .refl _
  split
  · exact .refl _
  split
  · exact p.below_openGroup _
  split
  · exact hclass.bind fun _ => .refl _
  · exact .refl _

end

end RegExpParser

end ArkTs2abc.Es2panda
