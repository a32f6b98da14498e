import Mathlib.Data.List.Basic
import Mathlib.Tactic.Common

/-!
# Jumps and labels in the parser

The status of the parser's context says whether it is in an iteration or in a switch statement. A
labelled statement and a function get a context of their own, with these bits cleared. The loops
and switch statements set their bit when they are entered, and it stays set behind them.

## Main definitions

* `parseStatement` — what the parser does to its context in a statement, and what it reports.
* `Place`, `Statement.targets` — the jumps and labels of a statement, with what is around them.
* `passed` — when the parser passes a jump or a label at its place.

## Main results

* `parseStatement_eq` — the parser checks each jump and label at its place.
-/

namespace ArkTs2abc.Es2panda.JumpStatements

inductive ScriptExtension where
  | js | ts | as
  deriving DecidableEq, Repr

/-- The bits of the status that the loops and the switch statements set. -/
structure Status where
  inIteration : Bool
  inSwitch : Bool
  deriving DecidableEq, Repr

namespace Status

def none : Status := ⟨false, false⟩

def or (s t : Status) : Status := ⟨s.inIteration || t.inIteration, s.inSwitch || t.inSwitch⟩

@[simp] theorem none_or (s : Status) : none.or s = s := by
  simp [none, or]

theorem or_comm (s t : Status) : s.or t = t.or s := by
  simp [or, Bool.or_comm]

theorem or_assoc (s t u : Status) : (s.or t).or u = s.or (t.or u) := by
  simp [or, Bool.or_assoc]

end Status

structure ParserContext where
  status : Status
  isFunction : Bool
  label : Option String

/-- The context inside of another one: of the bits above, only the one for functions is kept. -/
def ParserContext.new (current : ParserContext) (isFunction : Bool) (label : Option String) :
    ParserContext :=
  ⟨Status.none, current.isFunction || isFunction, label⟩

inductive Target where
  | breakStatement (label : Option String)
  | continueStatement (label : Option String)
  | returnStatement
  /-- The label of a labelled statement. -/
  | label (name : String)
  deriving DecidableEq

/-- A statement as far as jumps go. The statements of a block, of an if or try statement and of the
cases of a switch statement are chains of `block`; a statement with functions in its expressions is
a chain of them. -/
inductive Statement where
  | empty
  | jump (target : Target)
  | iteration (body : Statement)
  | switch (cases : Statement)
  | block (first rest : Statement)
  | labelled (label : String) (body : Statement)
  | function (body : Statement)

/-! ## The parser -/

section Parser

variable (extension : ScriptExtension) (context : ParserContext) (prev : List ParserContext)

def findLabel (label : String) : List ParserContext → Option ParserContext
  | [] => none
  | context :: prev =>
    if context.label = none then none
    else if context.label = some label then some context
    else findLabel label prev

def parseBreakStatement (label : Option String) : Except String Unit :=
  let allowBreak := context.status.inIteration || context.status.inSwitch
  if extension = .ts ∧ context.isFunction ∧ !allowBreak then
    .error "Jump target cannot cross function boundary"
  else
    match label with
    | none =>
      if !allowBreak ∧ extension = .js then .error "Illegal break statement"
      else if !allowBreak ∧ extension = .ts then
        .error "A 'break' statement can only be used within an enclosing iteration or switch statement"
      else .ok ()
    | some label =>
      if !(findLabel label (context :: prev)).isSome then .error "Undefined label" else .ok ()

def parseContinueStatement (label : Option String) : Except String Unit :=
  if extension = .ts ∧ context.isFunction ∧ !(context.status.inIteration || context.status.inSwitch)
  then .error "Jump target cannot cross function boundary"
  else if !context.status.inIteration ∧ extension = .js then .error "Illegal continue statement"
  else if !context.status.inIteration ∧ extension = .ts then
    .error "A 'continue' statement can only be used within an enclosing iteration statement"
  else
    match label with
    | none => .ok ()
    | some label =>
      match findLabel label (context :: prev) with
      | some labelCtx => if labelCtx.status.inIteration then .ok () else .error "Undefined label"
      | none => .error "Undefined label"

def parseReturnStatement : Except String Unit :=
  if !context.isFunction then .error "return keyword should be used in function body" else .ok ()

def parseLabel (label : String) : Except String Unit :=
  if (findLabel label (context :: prev)).isSome then .error "Label already declared" else .ok ()

def parseTarget : Target → Except String Unit
  | .breakStatement label => parseBreakStatement extension context prev label
  | .continueStatement label => parseContinueStatement extension context prev label
  | .returnStatement => parseReturnStatement context
  | .label name => parseLabel context prev name

/-- The end of a scope object: when the bit was not set before, the saved status is 0, and it is
this 0 whose bits are cleared. -/
def restore (savedStatus bit : Bool) : Bool :=
  if savedStatus then bit else bit && !savedStatus

/-- The context at the end of the statement. -/
def parseStatement : Statement → ParserContext → List ParserContext → Except String ParserContext
  | .empty, context, _ => return context
  | .jump target, context, prev => do
    parseTarget extension context prev target
    return context
  | .iteration body, context, prev => do
    let after ← parseStatement body { context with status.inIteration := true } prev
    let bit := restore context.status.inIteration after.status.inIteration
    return { after with status.inIteration := bit }
  | .switch cases, context, prev => do
    let after ← parseStatement cases { context with status.inSwitch := true } prev
    return { after with status.inSwitch := restore context.status.inSwitch after.status.inSwitch }
  | .block first rest, context, prev => do
    parseStatement rest (← parseStatement first context prev) prev
  | .labelled label body, context, prev => do
    parseTarget extension context prev (.label label)
    let _ ← parseStatement body (context.new false (some label)) (context :: prev)
    return context
  | .function body, context, prev => do
    let _ ← parseStatement body (context.new true none) (context :: prev)
    return context

end Parser

/-! ## Jumps and labels at their places -/

/-- What a jump or a label is around or in. -/
inductive Step where
  | iteration
  | switch
  | labelled (label : String)
  | function
  /-- In a block, behind statements in which loops or switch statements begin. -/
  | block (begun : Status)
  deriving DecidableEq

/-- From the inside to the outside. -/
abbrev Place := List Step

/-- The loops and switch statements that begin in a statement, outside of labelled statements and
functions. -/
def Statement.begun : Statement → Status
  | iteration body => { body.begun with inIteration := true }
  | switch cases => { cases.begun with inSwitch := true }
  | block first rest => first.begun.or rest.begun
  | _ => Status.none

/-- In the order of the text. -/
def Statement.targets : Statement → Place → List (Target × Place)
  | empty, _ => []
  | jump target, place => [(target, place)]
  | iteration body, place => body.targets (.iteration :: place)
  | switch cases, place => cases.targets (.switch :: place)
  | block first rest, place =>
    first.targets (.block Status.none :: place) ++ rest.targets (.block first.begun :: place)
  | labelled label body, place => (.label label, place) :: body.targets (.labelled label :: place)
  | function body, place => body.targets (.function :: place)

namespace Place

/-- Up to the next function. -/
def inFunction (place : Place) : Place :=
  place.takeWhile (· ≠ .function)

/-- The label next to the place. -/
def label : Place → Option String
  | .labelled label :: _ => some label
  | .function :: _ | [] => none
  | _ :: place => label place

/-- The loops and switch statements that begin around the place or before it, up to the next label
or function. -/
def begun : Place → Status
  | .iteration :: place => { begun place with inIteration := true }
  | .switch :: place => { begun place with inSwitch := true }
  | .block status :: place => status.or (begun place)
  | _ => Status.none

/-- A loop begins in the statement with the label, around the place or before it, and outside of
labelled statements in that one. -/
def iterationIn (label : String) : Place → Bool
  | [] | .function :: _ => false
  | .labelled inner :: place => inner ≠ label && iterationIn label place
  | .iteration :: place => Place.label place = some label || iterationIn label place
  | .block status :: place =>
    (status.inIteration && Place.label place = some label) || iterationIn label place
  | .switch :: place => iterationIn label place

/-- The context of a place. -/
def context (place : Place) : ParserContext :=
  ⟨place.begun, .function ∈ place, place.label⟩

def prev : Place → List ParserContext
  | [] => []
  | .labelled _ :: place | .function :: place => context place :: prev place
  | _ :: place => prev place

attribute [local simp] context prev label begun inFunction iterationIn

theorem context_iteration (place : Place) :
    context (.iteration :: place) = { context place with status.inIteration := true } := by
  simp

theorem context_switch (place : Place) :
    context (.switch :: place) = { context place with status.inSwitch := true } := by
  simp

theorem context_block (status : Status) (place : Place) :
    context (.block status :: place) =
      { context place with status := status.or (context place).status } := by
  simp

theorem context_labelled (name : String) (place : Place) :
    context (.labelled name :: place) = (context place).new false (some name) := by
  simp [ParserContext.new]

theorem context_function (place : Place) :
    context (.function :: place) = (context place).new true none := by
  simp [ParserContext.new]

end Place

variable (extension : ScriptExtension)

/-- The parser passes the jump or the label. -/
def passed : Target × Place → Bool
  | (.breakStatement none, place) =>
    extension = .as || place.begun.inIteration || place.begun.inSwitch
  | (.breakStatement (some label), place) =>
    .labelled label ∈ place.inFunction ∧
      (extension = .ts → .function ∈ place → place.begun.inIteration || place.begun.inSwitch)
  | (.continueStatement none, place) => extension = .as || place.begun.inIteration
  | (.continueStatement (some label), place) =>
    (extension = .as || place.begun.inIteration) && place.iterationIn label
  | (.returnStatement, place) => .function ∈ place
  | (.label name, place) => .labelled name ∉ place.inFunction

/-- What the parser does at a jump or a label. -/
def check (target : Target × Place) : Except String Unit :=
  parseTarget extension target.2.context target.2.prev target.1

theorem findLabel_isSome (label : String) (place : Place) :
    (findLabel label (place.context :: place.prev)).isSome =
      decide (.labelled label ∈ place.inFunction) := by
  induction place with
  | nil => simp [findLabel, Place.context, Place.label, Place.inFunction]
  | cons step place ih =>
    simp only [findLabel, Place.context, Place.inFunction] at ih
    cases step <;>
      simp [findLabel, Place.context, Place.prev, Place.label, Place.inFunction] at ih ⊢ <;> grind

theorem findLabel_inIteration (label : String) (place : Place) :
    ((findLabel label (place.context :: place.prev)).any (·.status.inIteration)) =
      place.iterationIn label := by
  induction place with
  | nil => simp [findLabel, Place.context, Place.label, Place.iterationIn]
  | cons step place ih =>
    simp only [findLabel, Place.context] at ih
    cases step <;>
      simp [findLabel, Place.context, Place.prev, Place.label, Place.iterationIn, Place.begun,
        Status.or, Status.none] at ih ⊢ <;> grind

theorem isOk_check (target : Target) (place : Place) :
    (check extension (target, place)).isOk = passed extension (target, place) := by
  unfold check
  cases target with
  | breakStatement label =>
    cases label with
    | none =>
      simp only [parseTarget, parseBreakStatement, passed, Place.context]
      cases extension <;> grind [Except.toBool]
    | some label =>
      have h := findLabel_isSome label place
      simp only [parseTarget, parseBreakStatement, passed, Place.context] at h ⊢
      cases extension <;> grind [Except.toBool]
  | continueStatement label =>
    cases label with
    | none =>
      simp only [parseTarget, parseContinueStatement, passed, Place.context]
      cases extension <;> grind [Except.toBool]
    | some label =>
      have h := findLabel_inIteration label place
      simp only [parseTarget, parseContinueStatement, passed, Place.context] at h ⊢
      cases extension <;> grind [Except.toBool]
  | returnStatement =>
    simp only [parseTarget, parseReturnStatement, passed, Place.context]
    grind [Except.toBool]
  | label name =>
    simp only [parseTarget, parseLabel, findLabel_isSome, passed]
    grind [Except.toBool]

theorem restore_eq (savedStatus bit : Bool) : restore savedStatus bit = bit := by
  cases savedStatus <;> simp [restore]

open Place

/-- The parser checks the jumps and labels of a statement in the order of the text, each at its
place; and the bits of the loops and switch statements that began in it stay set behind it. -/
theorem parseStatement_eq (statement : Statement) (place : Place) :
    (parseStatement extension statement place.context place.prev = do
      (statement.targets place).forM (check extension)
      return Place.context (.block statement.begun :: place)) ∧
    ∀ target ∈ statement.targets place, (check extension target).isOk = passed extension target := by
  refine ⟨?_, fun target _ => isOk_check extension target.1 target.2⟩
  induction statement generalizing place with
  | empty => simp [parseStatement, Statement.begun, Statement.targets, context_block]
  | jump target =>
    simp [parseStatement, Statement.begun, Statement.targets, context_block, check]
  | iteration body ih =>
    have h := ih (.iteration :: place)
    rw [context_iteration] at h
    simp only [parseStatement, Statement.targets, Place.prev] at h ⊢
    rw [h]
    simp [context_block, context_iteration, restore_eq, Statement.begun, Status.or]
  | switch cases ih =>
    have h := ih (.switch :: place)
    rw [context_switch] at h
    simp only [parseStatement, Statement.targets, Place.prev] at h ⊢
    rw [h]
    simp [context_block, context_switch, restore_eq, Statement.begun, Status.or]
  | block first rest ihFirst ihRest =>
    have hfirst := ihFirst (.block Status.none :: place)
    have hrest := ihRest (.block first.begun :: place)
    simp only [context_block, Status.none_or, ← Status.or_assoc, Place.prev] at hfirst hrest ⊢
    rw [Status.or_comm rest.begun] at hrest
    simp only [parseStatement, Statement.targets, Statement.begun, hfirst, bind_assoc,
      pure_bind]
    simp [hrest]
  | labelled label body ih =>
    have h := ih (.labelled label :: place)
    rw [context_labelled] at h
    simp only [parseStatement, Statement.targets, Place.prev] at h ⊢
    rw [h]
    simp [context_block, Statement.begun, check]
  | function body ih =>
    have h := ih (.function :: place)
    rw [context_function] at h
    simp only [parseStatement, Statement.targets, Place.prev] at h ⊢
    rw [h]
    simp [context_block, Statement.begun]

/-- `for (;;) {} break;` is accepted: the bit of the loop is still set. -/
example : (parseStatement .js (.block (.iteration .empty) (.jump (.breakStatement none)))
    ⟨Status.none, false, none⟩ []).isOk = true := by decide

end ArkTs2abc.Es2panda.JumpStatements
