import ArkTs2abc.FlatCode.Segments
import ArkTs2abc.Ts2panda.Statement.LabelTarget

/-!
# The code a function body is compiled into

`PandaGen` collects the instructions, the labels and the catch tables of a function.
Expressions are opaque: what an expression compiles to is one instruction that may
throw. It neither pushes nor pops environments, and its jumps stay within it.

Each instruction and label remembers where it was compiled: the try statements that
`TryStatement.currentTryStatement` leads through, the nest, and the number of loop
environments alive there when the code before it is run straight through.

## Main definitions

* `Insn` — instructions.
* `CatchTable` — catch tables, with `splitLabelPair`.
* `PandaGen`, `Gen` — the state of the generator and its computations.
-/

namespace ArkTs2abc.Ts2panda.Compiler

open FlatCode (LabelPair Point)

/-- What statements do themselves; it may throw. -/
inductive Operation where
  | getIterator | getPropIterator | getNextPropName | call | throwIfNotObject
  | loadObjProperty (name : String)
  deriving DecidableEq, Repr

inductive Insn (E : Type) where
  /-- The code of an expression. -/
  | code (e : E)
  | operation (o : Operation)
  /-- Moves between registers, the accumulator and constants. -/
  | move
  | createLexEnv
  | popLexicalEnv
  | branch (l : Label)
  /-- A jump that depends on the accumulator. -/
  | condition (l : Label)
  | throw
  | return
  deriving DecidableEq, Repr

/-- What a point of the code was compiled for. -/
inductive Origin where
  | other
  /-- The jump of a break or continue statement, with the target that its label names. -/
  | jump (change : ControlFlowChange) (name : Option ℕ)
  | throwStatement
  /-- `inlineFinallyBegin`. -/
  | inlineFinallyBegin
  deriving DecidableEq, Repr

structure Tag where
  nest : List Frame
  origin : Origin
  deriving DecidableEq, Repr

/-- The environments alive behind an instruction. Nothing falls through a jump: what follows it is
reached at the depth of the nest, if at all. -/
def Insn.leaves {E : Type} (nest : List Frame) (live : ℕ) : Insn E → ℕ
  | .createLexEnv => live + 1
  | .popLexicalEnv => live - 1
  | .branch _ | .throw | .return => envCount nest
  | _ => live

structure CatchTable where
  catchBeginLabel : Label
  labelPairs : List (LabelPair ℕ)
  depth : ℕ
  deriving DecidableEq, Repr

namespace CatchTable

def range (t : CatchTable) : Range := ⟨t.catchBeginLabel.id, t.depth, t.catchBeginLabel⟩

/-- Splits the last pair. -/
def splitLabelPair (t : CatchTable) (inlined : LabelPair ℕ) : CatchTable :=
  match t.labelPairs.getLast? with
  | none => t
  | some last =>
    { t with labelPairs := t.labelPairs.dropLast ++
        [⟨last.beginLabel, inlined.beginLabel⟩, ⟨inlined.endLabel, last.endLabel⟩] }

end CatchTable

structure PandaGen (E : Type) where
  insns : List (Point (Insn E) ℕ Tag)
  nextLabel : ℕ
  catchMap : List CatchTable
  /-- `LabelTarget.name2LabelTarget`, to the break labels of the targets. -/
  name2LabelTarget : List (String × ℕ)
  /-- The environments alive at the end of the code. -/
  live : ℕ

namespace PandaGen

variable {E : Type}

def add (pg : PandaGen E) (ranges : List Range) (tag : Tag) (i : Insn E) : PandaGen E :=
  { pg with
    insns := pg.insns ++ [⟨.insn i, pg.live, ranges, tag⟩]
    live := i.leaves tag.nest pg.live }

def label (pg : PandaGen E) (ranges : List Range) (tag : Tag) (l : Label) : PandaGen E :=
  { pg with
    insns := pg.insns ++ [⟨.label l, l.note, ranges, tag⟩]
    live := l.note }

/-- `new CatchTable`. -/
def newCatchTable (pg : PandaGen E) (t : CatchTable) : PandaGen E :=
  { pg with catchMap := pg.catchMap ++ [t] }

/-- `splitLabelPair`, of the table of this number. -/
def splitLabelPair (pg : PandaGen E) (inlined : LabelPair ℕ) (table : ℕ) : PandaGen E :=
  { pg with catchMap := pg.catchMap.map fun t =>
      if t.catchBeginLabel.id = table then t.splitLabelPair inlined else t }

end PandaGen

/-- Computations of the compiler; `none` is an exception, or a loop that does not end. -/
abbrev Gen (E : Type) := StateT (PandaGen E) Option

namespace Gen

variable {E : Type}

/-- `new Label()`, to be placed where `note` loop environments are pushed. -/
def newLabel (note : ℕ) : Gen E Label := fun pg =>
  some (⟨pg.nextLabel, note⟩, { pg with nextLabel := pg.nextLabel + 1 })

def newLabels (note : ℕ) : ℕ → Gen E (List Label)
  | 0 => pure []
  | n + 1 => do
    let l ← newLabel note
    let ls ← newLabels note n
    pure (l :: ls)

def add (ranges : List Range) (tag : Tag) (i : Insn E) : Gen E Unit := fun pg =>
  some ((), pg.add ranges tag i)

def label (ranges : List Range) (tag : Tag) (l : Label) : Gen E Unit := fun pg =>
  some ((), pg.label ranges tag l)

def newCatchTable (t : CatchTable) : Gen E Unit := fun pg => some ((), pg.newCatchTable t)

def splitLabelPair (inlined : LabelPair ℕ) (table : ℕ) : Gen E Unit := fun pg =>
  some ((), pg.splitLabelPair inlined table)

/-- `updateName2LabelTarget`, for the labels that a statement stands under. -/
def updateName2LabelTarget (t : LabelTarget) : List String → Gen E Unit
  | [] => pure ()
  | name :: names => fun pg =>
    if (pg.name2LabelTarget.lookup name).isSome then none -- Duplicate_label_0
    else updateName2LabelTarget t names
      { pg with name2LabelTarget := (name, t.breakTargetLabel.id) :: pg.name2LabelTarget }

def deleteName2LabelTarget (name : String) : Gen E Unit := fun pg =>
  some ((), { pg with name2LabelTarget := pg.name2LabelTarget.filter fun entry => entry.1 ≠ name })

end Gen

end ArkTs2abc.Ts2panda.Compiler
