import ArkTs2abc.Ts2panda.PandaGen

/-!
# Try statements

A `TryStatement` is alive while its try block is compiled; those alive form a list,
innermost first. It knows how many environments loops have pushed while it was the
innermost one, and, if it has a finalizer, how to compile that in place of a jump.

A finalizer is compiled with the try statements that are around its own, whatever
is alive where the jump stands; everything else it finds as it is there. So the list
is baked into the finalizer, and the rest of the context is what it is applied to.

## Main definitions

* `TryStatement`, `Context` — what a statement is compiled in.
* `compileFinallyBeforeCFC` — finalizers in place of a jump.
* `constructTry` — the code of a try statement.
* `generateCatchTables`, `catchTableEntries` — the tables in the order of the output.
-/

namespace ArkTs2abc.Ts2panda.Compiler

open FlatCode (LabelPair)
open Gen

variable {E : Type}

/-- What a statement is compiled in, the try statements aside. -/
structure Surroundings where
  labelTargets : List LabelTarget
  currentTryStatementDepth : ℕ
  nest : List Frame

/-- `compileFinalizer` of a `TryBuilder`. -/
abbrev Finalizer (E : Type) :=
  ControlFlowChange → Option Label → Surroundings → Gen E Unit

structure TryStatement (E : Type) where
  catchTable : Range
  loopEnvLevel : ℕ
  finalizer : Option (Finalizer E)

/-- `LabelTarget`'s and `TryStatement`'s statics: the targets, and the current try statement with
those around it. -/
structure Context (E : Type) extends Surroundings where
  tryStatements : List (TryStatement E)

namespace Context

def ranges (c : Context E) : List Range := c.tryStatements.map TryStatement.catchTable

def envs (c : Context E) : ℕ := envCount c.nest

def add (c : Context E) (i : Insn E) : Gen E Unit := Gen.add c.ranges ⟨c.nest, .other⟩ i

def label (c : Context E) (l : Label) : Gen E Unit := Gen.label c.ranges ⟨c.nest, .other⟩ l

def newLabel (c : Context E) : Gen E Label := Gen.newLabel c.envs

/-- `popLoopEnv`. -/
def popLoopEnv (c : Context E) : ℕ → Gen E Unit
  | 0 => pure ()
  | times + 1 => do
    c.add .popLexicalEnv
    c.popLoopEnv times

/-- The pop of a loop's environment, if the loop has one. -/
def popLoopEnvIfNeeded (c : Context E) (needCreateLoopEnv : Bool) : Gen E Unit :=
  if needCreateLoopEnv then c.add .popLexicalEnv else pure ()

/-- `new LabelTarget`. -/
def newLabelTarget (c : Context E) (node : SyntaxKind) (breakTargetLabel : Label)
    (continueTargetLabel : Option Label) (hasLoopEnv : Bool) : LabelTarget where
  node := node
  breakTargetLabel := breakTargetLabel
  continueTargetLabel := continueTargetLabel
  hasLoopEnv := hasLoopEnv
  loopEnvLevel := hasLoopEnv.toNat
  tryStatement := c.tryStatements.head?.map TryStatement.catchTable

/-- `increaseLoopEnvLevel` of the current try statement. -/
def increaseLoopEnvLevel : List (TryStatement E) → List (TryStatement E)
  | [] => []
  | t :: outer => { t with loopEnvLevel := t.loopEnvLevel + 1 } :: outer

/-- `pushLabelTarget`; a labelled block or if statement only gets its target into reach. What the
target is popped from afterwards is the context it was pushed in. -/
def pushLabelTarget (c : Context E) (t : LabelTarget) : Context E :=
  { c with
    labelTargets := pushTarget t c.labelTargets
    tryStatements :=
      if t.hasLoopEnv then increaseLoopEnvLevel c.tryStatements else c.tryStatements }

/-- The context of a statement's body; `pushEnv`, if the target has an environment. -/
def enter (c : Context E) (t : LabelTarget) : Context E := { c with nest := .target t :: c.nest }

/-- `new TryStatement`. -/
def newTryStatement (c : Context E) (r : Range) (finalizer : Option (Finalizer E)) : Context E where
  labelTargets := c.labelTargets
  currentTryStatementDepth := c.currentTryStatementDepth + 1
  nest := .tryBlock r :: c.nest
  tryStatements := ⟨r, 0, finalizer⟩ :: c.tryStatements

/-- Where the finalizer of `startTry` is compiled in place of a jump. -/
def inlined (c : Context E) (startTry : TryStatement E) (outer : List (TryStatement E)) :
    Context E :=
  { c with nest := .finalizer startTry.catchTable :: c.nest, tryStatements := outer }

end Context

/-- The target on top of the stack. -/
def getCloseLabelTarget (c : Context E) : Option LabelTarget :=
  c.labelTargets.find? LabelTarget.onStack

def getCloseContinueTarget (c : Context E) : Option Label :=
  (getCloseLabelTarget c).bind LabelTarget.continueTargetLabel

/-- What a label leads to, if there is a label. -/
def targetName (name2LabelTarget : List (String × ℕ)) : Option String → Option (Option ℕ)
  | none => some none
  | some labelName => (name2LabelTarget.lookup labelName).map some

/-- The target of a jump statement, with what its label leads to. -/
def getLabelTarget (c : Context E) (label : Option String) : Gen E (Option ℕ × LabelTarget) :=
  fun pg => do
    let name ← targetName pg.name2LabelTarget label
    let t ← c.labelTargets.find? (LabelTarget.chosenBy name)
    some ((name, t), pg)

def updateCatchTables (inlinedPair : LabelPair ℕ) (targetTry : Range) :
    List (TryStatement E) → Gen E Unit
  | [] => failure
  | inlinedTry :: outer => do
    splitLabelPair inlinedPair inlinedTry.catchTable.id
    if inlinedTry.catchTable = targetTry then pure ()
    else updateCatchTables inlinedPair targetTry outer

/-- The body of the loop of `compileFinallyBeforeCFC`. -/
def inlineFinalizer (c : Context E) (cfc : ControlFlowChange) (continueTargetLabel : Option Label)
    (startTry : TryStatement E) (outer : List (TryStatement E)) :
    Option (Finalizer E) → Gen E Unit
  | none => pure ()
  | some compileFinalizer => do
    let inlineFinallyBegin ← c.newLabel
    let inlineFinallyEnd ← c.newLabel
    let copy := c.inlined startTry outer
    Gen.label copy.ranges ⟨copy.nest, .inlineFinallyBegin⟩ inlineFinallyBegin
    compileFinalizer cfc continueTargetLabel copy.toSurroundings
    c.label inlineFinallyEnd
    updateCatchTables ⟨inlineFinallyBegin, inlineFinallyEnd⟩ startTry.catchTable c.tryStatements

/-- The loop of `compileFinallyBeforeCFC`, from a try statement outwards. -/
def finallyBeforeCFC (c : Context E) (endTry : Option Range) (cfc : ControlFlowChange)
    (continueTargetLabel : Option Label) : List (TryStatement E) → Gen E Unit
  -- without an outer try statement the loop goes on for ever, unless this is where it was to end
  | [] => if endTry.isNone then pure () else failure
  | startTry :: outer =>
    if endTry = some startTry.catchTable then pure ()
    else do
      inlineFinalizer c cfc continueTargetLabel startTry outer startTry.finalizer
      finallyBeforeCFC c endTry cfc continueTargetLabel outer

def compileFinallyBeforeCFC (c : Context E) (endTry : Option Range) (cfc : ControlFlowChange)
    (continueTargetLabel : Option Label) : Gen E Unit :=
  finallyBeforeCFC c endTry cfc continueTargetLabel c.tryStatements

/-- `TryBuilderBase`: what `constructTry` is told about the statement. -/
structure TryBuilder (E : Type) where
  /-- The context behind the try block; a for-of loop has pushed its environment by then. -/
  after : Context E
  endLabel : Option Label
  finalizer : Option (Finalizer E)
  /-- Gets its catch table, and the context with its try statement in it. -/
  compileTryBlock : Range → Context E → Gen E Unit
  compileFinallyBlockIfExisted : Gen E Unit
  /-- Whether `constructTry` finds a for-of loop with an environment. -/
  needCreateLoopEnv : Bool
  compileExceptionHandler : Gen E Unit

/-- `endLabel ? endLabel : new Label()`. -/
def newCatchEndLabel (c : Context E) : Option Label → Gen E Label
  | some endLabel => pure endLabel
  | none => c.newLabel

/-- The end label, if it is one of the try statement's own. -/
def placeCatchEndLabel (c : Context E) (catchEndLabel : Label) : Option Label → Gen E Unit
  | some _ => pure ()
  | none => c.label catchEndLabel

def constructTry (c : Context E) (b : TryBuilder E) : Gen E Unit := do
  let tryBeginLabel ← c.newLabel
  let tryEndLabel ← b.after.newLabel
  let catchBeginLabel ← b.after.newLabel
  let catchEndLabel ← newCatchEndLabel c b.endLabel
  let catchTable : CatchTable :=
    ⟨catchBeginLabel, [⟨tryBeginLabel, tryEndLabel⟩], c.currentTryStatementDepth⟩
  newCatchTable catchTable
  let block := c.newTryStatement catchTable.range b.finalizer
  block.label tryBeginLabel
  b.compileTryBlock catchTable.range block
  b.after.label tryEndLabel
  b.compileFinallyBlockIfExisted
  b.after.popLoopEnvIfNeeded b.needCreateLoopEnv
  b.after.add (.branch catchEndLabel)
  b.after.label catchBeginLabel
  b.compileExceptionHandler
  placeCatchEndLabel c catchEndLabel b.endLabel

def generateCatchTables (catchMap : List CatchTable) : List CatchTable :=
  catchMap.mergeSort fun a b => b.depth ≤ a.depth

/-- The catch tables of the output: an entry for each pair, with the handler. -/
def catchTableEntries (catchMap : List CatchTable) : List (LabelPair ℕ × Label) :=
  (generateCatchTables catchMap).flatMap fun t =>
    t.labelPairs.map fun labelPair => (labelPair, t.catchBeginLabel)

end ArkTs2abc.Ts2panda.Compiler
