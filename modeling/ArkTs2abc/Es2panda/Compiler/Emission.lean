import ArkTs2abc.Es2panda.IR.Ast
import ArkTs2abc.FlatCode.Machine

/-!
# What the code generator emits, and the state it works in

`Insn` is the instruction set as far as control flow, lexical environments and
registers go; what only computes a value is an `Op`. `PandaGen` is the state of
the generator: the scope, the chain of dynamic contexts, the builder. The
generator's methods are computations in `Emit`, which hands out fresh numbers and
collects code and catch tables.

Beside what the source has, the state carries a `Note`: the environments, the
unfinished try statements and the results held back that the generator has
accounted for at this point. Labels and instructions are noted with it. A few
instructions without effect on the program mark the events that the claims of the
development are about: a try statement is entered, its finalizer starts, a return
releases a context.

## Main definitions

* `Note`, `Insn`, `Emit` — code and its notes.
* `DynamicContext`, `PandaGen` — the state of the generator.
* `protect` — code between `TryBegin` and `TryEnd` of a new catch table.
-/

namespace ArkTs2abc.Es2panda

/-- What the generator has accounted for at a point. -/
structure Note where
  /-- The environments created and not yet popped, innermost first. -/
  env : List ℕ := []
  /-- The try statements entered whose finalizer has not been started. -/
  fin : List ℕ := []
  /-- The returns under way, and what each has released. -/
  kept : List (ℕ × List ℕ) := []
  deriving DecidableEq, Repr

/-- What is accounted for once the environment of a scope, if it needs one, is there. -/
def Note.push (note : Note) (s : Scope) : Note :=
  if s.needLexEnv then { note with env := s.id :: note.env } else note

abbrev Label := FlatCode.Label Note

/-- A catch table: what its try labels enclose, its depth and where its handler begins. -/
abbrev CatchTable := FlatCode.Range Note

/-- Registers, by what they were allocated for. Those of `TryContext::finalizerRun_` and of the
value of a return statement have instructions of their own. -/
inductive Reg where
  | var (vreg : ℕ)
  | temp (n : ℕ)
  | lexEnv (n : ℕ)
  /-- Where the caller has put an argument. -/
  | argument (i : ℕ)
  deriving DecidableEq, Repr

inductive Constant where
  | undefined | hole | true | false
  | int (n : ℕ)
  | other
  deriving DecidableEq, Repr

/-- `ResumeMode`. -/
def Constant.resumeReturn : Constant := .int 0
def Constant.resumeThrow : Constant := .int 1
def Constant.resumeNext : Constant := .int 2

/-- A lexical variable: its level and slot, and the environments that the level was counted over. -/
structure Access where
  assumed : List ℕ
  level : ℕ
  slot : ℕ
  deriving DecidableEq, Repr

/-- Instructions that compute a value from the accumulator and registers. -/
inductive Op where
  | asyncFunctionAwait | asyncFunctionEnter | asyncFunctionReject | asyncFunctionResolve
  | asyncGeneratorReject | asyncGeneratorResolve | binary | callThis | closeIterator | compare
  | copyRestArgs | createAsyncGeneratorObj | createEmptyArray | createGeneratorObj
  | createIterResultObject | createObjectWithExcludedKeys | defineClass | generatorComplete
  | generatorYield | getAsyncIterator | getIterator | getMethod | getNextPropName
  | getPropIterator | getResumeMode | getUnmappedArgs | isCoercible | ldGlobal | ldModuleVariable
  | ldObjByName | ldObjByValue | operation | resumeGenerator | stGlobal | stObjByName
  | stObjByValue | strictCompare | suspendAsyncGenerator | suspendGenerator
  | throwIfNotObject | throwIfSuperNotCorrectCall | throwObjectNonCoercible | throwThrowNotExist
  | toBoolean | toNumber | unary
  deriving DecidableEq, Repr

/-- Whether an instruction may leave by an exception. -/
def Op.mayThrow : Op → Bool
  | .asyncFunctionEnter | .asyncFunctionReject | .asyncFunctionResolve | .asyncGeneratorReject
  | .asyncGeneratorResolve | .copyRestArgs | .createAsyncGeneratorObj | .createEmptyArray
  | .createGeneratorObj | .createIterResultObject | .generatorComplete | .generatorYield
  | .getResumeMode | .getUnmappedArgs | .isCoercible | .resumeGenerator | .strictCompare
  | .suspendAsyncGenerator | .suspendGenerator | .toBoolean => false
  | _ => true

inductive Insn where
  | lda (r : Reg)
  | sta (r : Reg)
  | mov (dst src : Reg)
  | ldConst (c : Constant)
  | isUndefined
  | op (o : Op)
  /-- A jump; without a label the assembler has nowhere to go. -/
  | jmp (l : Option Label)
  | jtrue (l : Label)
  | jfalse (l : Label)
  | throw
  | rethrow
  | return
  | newLexEnv (scope size : ℕ)
  | popLexEnv
  | copyLexEnv
  | ldLexEnv
  | ldLexVar (a : Access)
  | stLexVar (a : Access)
  | throwUndefinedIfHole (name : String)
  | throwConstAssignment (name : String)
  /-- Define the function of this index in the environment of a register. -/
  | defineFunction (index : ℕ) (lexEnv : Reg)
  /-- `InitFinalizer`, and the entry of the try statement. -/
  | enterTry (tryId : ℕ)
  /-- `sta finalizerRun`. -/
  | setRun (tryId : ℕ)
  /-- `lda finalizerRun; isundefined; jfalse l`. -/
  | branchIfRun (tryId : ℕ) (l : Label)
  /-- The finalizer starts, compiled for this note. -/
  | startFinalizer (tryId : ℕ) (outer : Note)
  /-- `sta` of the value of a return, which begins to release contexts. -/
  | holdResult (n : ℕ)
  /-- `lda` of that value. -/
  | ldResult (n : ℕ)
  /-- The return releases a context. -/
  | release (n id : ℕ)
  /-- The return is about to leave the function; what it is to release, and the nest of contexts. -/
  | returns (held : Option ℕ) (enclosing : List ℕ) (nest : List (Option ℕ × Bool))
  /-- Not an instruction: finalizers are nested deeper than accounted for. -/
  | outOfFuel
  deriving DecidableEq, Repr

/-- Why code may run under another note than its context's: it unwinds contexts, or it is compiled
in a scope that is not the innermost one. -/
structure Tag where
  unwinding : Bool := false
  foreignScope : Bool := false
  deriving DecidableEq, Repr

abbrev Point := FlatCode.Point Insn Note Tag

/-- Names that contexts are searched by; the generator's own are `"#b"` and `"#c"`. -/
inductive LabelName where
  | break | continue
  | ident (name : String)
  deriving DecidableEq, Repr

structure LabelTarget where
  breakLabel : Option LabelName := none
  breakTarget : Option Label := none
  continueLabel : Option LabelName := none
  continueTarget : Option Label := none

inductive ControlFlowChange where
  | continue | break
  deriving DecidableEq, Repr

def LabelTarget.label (t : LabelTarget) : ControlFlowChange → Option LabelName
  | .continue => t.continueLabel
  | .break => t.breakLabel

def LabelTarget.target (t : LabelTarget) : ControlFlowChange → Option Label
  | .continue => t.continueTarget
  | .break => t.breakTarget

/-- `LabelTarget(pg)`, for a loop. -/
def LabelTarget.loop (breakTarget continueTarget : Label) : LabelTarget where
  breakLabel := some .break
  breakTarget := breakTarget
  continueLabel := some .continue
  continueTarget := continueTarget

/-- `LabelTarget(target, label)`: both names are the label. -/
def LabelTarget.named (target : Option Label) (label : LabelName) : LabelTarget where
  breakLabel := some label
  breakTarget := target
  continueLabel := some label

inductive IteratorType where
  | sync | async
  deriving DecidableEq, Repr

structure Iterator where
  method : Reg
  iterator : Reg
  nextResult : Reg
  type : IteratorType

structure TryContext where
  id : ℕ
  /-- `tryStmt_->FinallyBlock()`. -/
  finallyBlock : Option Stmt := none
  hasFinalizer : Bool := false
  inFinalizer : Bool := false
  /-- The scopes around the try statement, which are those of its finalizer. -/
  scope : List Scope := []
  /-- What is accounted for around the try statement. -/
  outer : Note := {}
  /-- The contexts that a return in the finalizer is to release. -/
  enclosing : List ℕ := []

/-- Whether `EmitFinalizer` does something. -/
def TryContext.pendingFinalizer (t : TryContext) : Option Stmt :=
  if t.hasFinalizer && !t.inFinalizer then t.finallyBlock else none

inductive DynamicContext where
  | label (target : LabelTarget)
  | lexEnv (hasEnv : Bool) (target : LabelTarget)
  | iterator (id : ℕ) (iter : Iterator) (target : LabelTarget)
  | try (t : TryContext)

namespace DynamicContext

def target : DynamicContext → LabelTarget
  | .label t | .lexEnv _ t | .iterator _ _ t => t
  | .try _ => {}

def hasTryCatch : DynamicContext → Bool
  | .label _ => false
  | .lexEnv hasEnv _ => hasEnv
  | .iterator .. | .try _ => true

def hasFinalizer : DynamicContext → Bool
  | .try t => t.hasFinalizer
  | c => c.hasTryCatch

/-- What `AbortContext` runs for a `break`, by the number of the context. -/
def release : DynamicContext → Option ℕ
  | .iterator id _ _ => some id
  | .try t => t.pendingFinalizer.map fun _ => t.id
  | _ => none

/-- `inFinalizer_ = true` for one try context. -/
def enterFinalizer (id : ℕ) : DynamicContext → DynamicContext
  | .try t => .try (if t.id = id then { t with inFinalizer := true } else t)
  | c => c

end DynamicContext

/-- The state of the code generator. -/
structure PandaGen where
  /-- `scope_` and its parents. -/
  scope : List Scope
  /-- `dynamicContext_` and what is before it, innermost first. -/
  dynamicContext : List DynamicContext := []
  /-- The register of `envScope_`. -/
  envScope : Reg := .lexEnv 0
  builder : BuilderType := .normal
  isConstructor : Bool := false
  handleReturn : Bool := false
  note : Note := {}
  /-- The catch tables whose try range is open, innermost first. -/
  ranges : List CatchTable := []
  tag : Tag := {}
  /-- The contexts that a return statement here is to release, innermost first. -/
  enclosing : List ℕ := []

def PandaGen.tryDepth (pg : PandaGen) : ℕ :=
  pg.dynamicContext.countP DynamicContext.hasTryCatch

def PandaGen.checkControlFlowChange (pg : PandaGen) : Bool :=
  pg.dynamicContext.any DynamicContext.hasFinalizer

/-- The nest of contexts: what an unwinding releases of each, and whether `break` stops there. -/
def PandaGen.nest (pg : PandaGen) : List (Option ℕ × Bool) :=
  pg.dynamicContext.map fun c => (c.release, c.target.breakLabel = some .break)

/-- Emitted code and catch tables. -/
structure Out where
  code : List Point := []
  tables : List CatchTable := []

/-- Computations of the generator: the next fresh number is passed on, the output is collected. -/
def Emit (α : Type) := ℕ → α × ℕ × Out

namespace Emit

variable {α β : Type}

def pure (x : α) : Emit α := fun n => (x, n, {})

def bind (m : Emit α) (f : α → Emit β) : Emit β := fun n =>
  let r := m n
  let r' := f r.1 r.2.1
  (r'.1, r'.2.1, ⟨r.2.2.code ++ r'.2.2.code, r.2.2.tables ++ r'.2.2.tables⟩)

instance : Monad Emit where
  pure := Emit.pure
  bind := Emit.bind

/-- A fresh number, as `AllocReg` and `AllocLabel` hand them out. -/
def fresh : Emit ℕ := fun n => (n, n + 1, {})

def allocReg : Emit Reg := fun n => (.temp n, n + 1, {})

def allocLabel (note : Note) : Emit Label := fun n => (⟨n, note⟩, n + 1, {})

def node (pg : PandaGen) (i : FlatCode.Node Insn Note) : Emit Unit := fun n =>
  ((), n, ⟨[⟨i, pg.note, pg.ranges, pg.tag⟩], []⟩)

/-- What is compiled only where the tree has something. -/
def forSome : Option β → (β → Emit Unit) → Emit Unit
  | some x, f => f x
  | none, _ => pure ()

def when (b : Bool) (m : Emit Unit) : Emit Unit := if b then m else pure ()

end Emit

namespace PandaGen

open Emit

def emit (pg : PandaGen) (i : Insn) : Emit Unit := node pg (.insn i)

/-- A sequence of instructions. -/
def emits (pg : PandaGen) : List Insn → Emit Unit
  | [] => Emit.pure ()
  | i :: is => do pg.emit i; pg.emits is

/-- `SetLabel`. What comes after is accounted for by the note of the label. -/
def setLabel (pg : PandaGen) (l : Label) : Emit Unit := node { pg with note := l.note } (.label l)

def branch (pg : PandaGen) (l : Label) : Emit Unit := pg.emit (.jmp (some l))

/-- Code from `SetLabel(TryBegin)` to `SetLabel(TryEnd)` of a new catch table, whose handler begins
with the note `handler`; the code ends with the note `final`. -/
def protect {α : Type} (pg : PandaGen) (handler final : Note) (body : PandaGen → Emit α) :
    Emit (CatchTable × α) := fun n =>
  let table : CatchTable := ⟨n, pg.tryDepth, ⟨n, handler⟩⟩
  let ranges := table :: pg.ranges
  let r := body { pg with ranges, tag := { pg.tag with unwinding := false } } (n + 1)
  ((table, r.1), r.2.1,
    ⟨⟨.tryBegin n, pg.note, ranges, pg.tag⟩ ::
      (r.2.2.code ++ [⟨.tryEnd n, final, pg.ranges, pg.tag⟩]), table :: r.2.2.tables⟩)

/-- Push a dynamic context. -/
def withContext (pg : PandaGen) (c : DynamicContext) : PandaGen :=
  { pg with dynamicContext := c :: pg.dynamicContext }

/-- Enter a scope. -/
def withScope (pg : PandaGen) (s : Scope) : PandaGen :=
  { pg with scope := s :: pg.scope }

def atScope (pg : PandaGen) (scope : List Scope) : PandaGen := { pg with scope }

def withNote (pg : PandaGen) (note : Note) : PandaGen := { pg with note }

/-- The state for code that is compiled in a scope of its own choice. -/
def inForeignScope (pg : PandaGen) : PandaGen :=
  { pg with tag := { pg.tag with foreignScope := true } }

end PandaGen

end ArkTs2abc.Es2panda
