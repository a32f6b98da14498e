import ArkTs2abc.FlatCode.Fragment

/-!
# Jump targets and the nest they stand in

A `LabelTarget` is what a break or a continue statement has to know of the statement
it leaves: the labels, and how many environments the loops entered since have
pushed. The targets are kept on a stack; a labelled block or if statement has a
target that is not on the stack and that only its name leads to.

The nest of a point of the code is the list of what it is compiled in, innermost
first: targets, try blocks, and finalizers compiled in place where a jump leaves
them. It is not in the source; what the source keeps in counters is computed from it
here, to state what the counters ought to be.

## Main definitions

* `LabelTarget`, `pushTarget` — the targets and their counters.
* `Frame` — a level of the nest.
* `lexical` — the nest that the text of the program shows.
* `JumpBalanced`, `HandlerBalanced`, `ThrowBalanced` — where the counters are right.
-/

namespace ArkTs2abc.Ts2panda.Compiler

/-- A label is noted with the number of loop environments pushed where it is placed. -/
abbrev Label := FlatCode.Label ℕ

/-- A catch table, as the code refers to it: its identity, its depth and `catchBeginLabel`. -/
abbrev Range := FlatCode.Range ℕ

inductive ControlFlowChange where
  | continue | break
  deriving DecidableEq, Repr

/-- `ts.SyntaxKind`, of the statements that jumps lead to. -/
inductive SyntaxKind where
  | doStatement | whileStatement | forStatement | forInStatement | forOfStatement
  | switchStatement | labeledStatement
  deriving DecidableEq, Repr

def SyntaxKind.isLoop : SyntaxKind → Bool
  | .switchStatement | .labeledStatement => false
  | _ => true

structure LabelTarget where
  node : SyntaxKind
  breakTargetLabel : Label
  continueTargetLabel : Option Label
  hasLoopEnv : Bool
  loopEnvLevel : ℕ
  /-- `TryStatement.getCurrentTryStatement()` at the construction, by its catch table. -/
  tryStatement : Option Range
  deriving DecidableEq, Repr

namespace LabelTarget

/-- The target of a labelled block or if statement is never pushed. -/
def onStack (t : LabelTarget) : Bool := t.node ≠ .labeledStatement

/-- The environments a loop has of its own. -/
def envs (t : LabelTarget) : ℕ := t.hasLoopEnv.toNat

def increaseLoopEnvLevel (t : LabelTarget) : LabelTarget :=
  { t with loopEnvLevel := t.loopEnvLevel + 1 }

/-- `popLoopEnvWhenContinueOrBreak`: how many environments are popped. -/
def popTimes (t : LabelTarget) (isContinue : Bool) : ℕ :=
  match t.node with
  | .doStatement | .forStatement => t.loopEnvLevel - 1
  | .whileStatement | .forInStatement | .forOfStatement =>
    if isContinue then t.loopEnvLevel else t.loopEnvLevel - 1
  | _ => t.loopEnvLevel

/-- The label a jump goes to. -/
def label (t : LabelTarget) : ControlFlowChange → Option Label
  | .continue => t.continueTargetLabel
  | .break => some t.breakTargetLabel

/-- What a jump statement names: the closest target on the stack, or the one of a label. -/
def chosenBy (name : Option ℕ) (t : LabelTarget) : Bool :=
  match name with
  | none => t.onStack
  | some target => t.breakTargetLabel.id = target

end LabelTarget

/-- `pushLabelTarget`, as far as the targets go. -/
def pushTarget (t : LabelTarget) (targets : List LabelTarget) : List LabelTarget :=
  t :: if t.hasLoopEnv then
    targets.map fun lt => if lt.onStack then lt.increaseLoopEnvLevel else lt
  else targets

/-- A level of the nest. -/
inductive Frame where
  /-- The body of a statement that jumps lead to; with its environment, if it has one. -/
  | target (t : LabelTarget)
  /-- The block of the try statement with this table. -/
  | tryBlock (r : Range)
  /-- The finalizer of the try statement with this table, in place of a jump out of its block. -/
  | finalizer (r : Range)
  deriving DecidableEq, Repr

/-- The environments alive: those of the loops around. -/
def envCount : List Frame → ℕ
  | [] => 0
  | .target t :: nest => envCount nest + t.envs
  | .tryBlock _ :: nest | .finalizer _ :: nest => envCount nest

/-- The targets around, with their counters. -/
def targets : List Frame → List LabelTarget
  | [] => []
  | .target t :: nest => pushTarget t (targets nest)
  | .tryBlock _ :: nest | .finalizer _ :: nest => targets nest

/-- What stands inside of the block of the try statement. -/
def inside (r : Range) (nest : List Frame) : List Frame := nest.takeWhile (· ≠ .tryBlock r)

/-- What stands outside of the block of the try statement. -/
def outside (r : Range) (nest : List Frame) : List Frame :=
  (nest.dropWhile (· ≠ .tryBlock r)).tail

/-- The nest that the text of the program shows: a finalizer stands outside of its try block,
wherever it is compiled. -/
def lexical : List Frame → List Frame
  | [] => []
  | .target t :: nest => .target t :: lexical nest
  | .tryBlock r :: nest => .tryBlock r :: lexical nest
  | .finalizer r :: nest => outside r (lexical nest)

/-- The try statements whose block is around, by what `TryStatement.outer` leads through. -/
def openRanges (nest : List Frame) : List Range :=
  (lexical nest).filterMap fun
    | .tryBlock r => some r
    | _ => none

/-- The closest loop around. -/
def enclosingLoop : List Frame → Option LabelTarget
  | [] => none
  | .target t :: nest => if t.node.isLoop then some t else enclosingLoop nest
  | .tryBlock _ :: nest | .finalizer _ :: nest => enclosingLoop nest

/-- The target a jump statement names, the environments of the loops it leaves on the way there,
and what is around the target. -/
def leave (name : Option ℕ) : List Frame → Option (ℕ × LabelTarget × List Frame)
  | [] => none
  | .target t :: nest =>
    if t.chosenBy name then some (0, t, nest)
    else (leave name nest).map fun (crossed, found) => (crossed + t.envs, found)
  | .tryBlock _ :: nest | .finalizer _ :: nest => leave name nest

/-- Where the counters bring a jump to the depth of its label, when it leaves `crossed` environments
on the way to the target and `around` is what is around the target. -/
def LabelTarget.Balanced (t : LabelTarget) (change : ControlFlowChange) (crossed : ℕ)
    (around : List Frame) : Prop :=
  match change, t.node with
  | .continue, .whileStatement | .continue, .forInStatement | .continue, .forOfStatement => True
  -- the label is that of a loop further out, but the counter is that of the switch statement
  | .continue, .switchStatement => ∀ loop, enclosingLoop around = some loop →
      loop.hasLoopEnv = false ∨ loop.node = .doStatement ∨ loop.node = .forStatement
  | .break, .switchStatement => True
  | _, .labeledStatement => crossed = 0
  | _, _ => t.hasLoopEnv = true ∨ crossed = 0

/-- Where the counters bring a jump statement to the depth of its label. -/
def JumpBalanced (change : ControlFlowChange) (name : Option ℕ) (nest : List Frame) : Prop :=
  ∀ crossed t around, leave name nest = some (crossed, t, around) → t.Balanced change crossed around

/-- Where nothing is left of what the try block has pushed when its handler is entered without any
pops, or its finalizer compiled in place. -/
def HandlerBalanced (r : Range) (nest : List Frame) : Prop := envCount (inside r nest) = 0

/-- Where a throw statement pops what the try block has pushed: when every loop of the block that
is around it, is around it in the text of the program. -/
def ThrowBalanced (r : Range) (nest : List Frame) : Prop :=
  envCount (inside r (lexical nest)) = envCount (inside r nest)

end ArkTs2abc.Ts2panda.Compiler
