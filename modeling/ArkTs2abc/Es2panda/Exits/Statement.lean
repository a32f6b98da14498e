import ArkTs2abc.Es2panda.Exits.Code

/-!
# Compiling the statements that are left, and what leaves them

Jumps, returns and return resumptions unwind the dynamic contexts around them: iterators are closed
and finalizers are compiled in place, inside of the try ranges that they leave. A finalizer that is
compiled in place stands below all contexts of the exit. A context says, beside what the source has,
whether the finalizer is compiled for an exit that has left its statement.

## Main definitions

* `Statement` — statements.
* `DynamicContext`, `PandaGen` — what a statement is compiled in.
* `controlFlowChange`, `improper` — the walk over the contexts, and for which iterators it goes
  wrong.
* `closeIterator`, `await`, `yield` — iterators and suspension points.
* `compileStatement`, `compileNested` — the code.
-/

namespace ArkTs2abc.Es2panda.Exits

open StructuredCode

/-- Statements; expressions have numbers. A `while` statement stands for the loops without an
iterator, and a clause of a switch is an `if` statement: its test says whether it is reached. -/
inductive Statement where
  | expression (e : ℕ)
  | await (e : ℕ)
  | yield (e : ℕ)
  | empty
  | block (first second : Statement)
  | ifElse (e : ℕ) (consequent alternate : Statement)
  | while (e : ℕ) (body : Statement)
  | forOf (type : IteratorType) (e : ℕ) (body : Statement)
  | switch (e : ℕ) (cases : Statement)
  | labelled (name : String) (body : Statement)
  | break (label : Option String)
  | continue (label : Option String)
  | return (e : ℕ)
  | throw (e : ℕ)
  | tryCatch (block handler : Statement)
  | tryFinally (block finalizer : Statement)
  | tryCatchFinally (block handler finalizer : Statement)
  deriving DecidableEq, Repr

def Statement.isBlock : Statement → Bool
  | .block .. => true
  | _ => false

/-! ## Contexts -/

structure LabelTarget where
  breakLabel : Option LabelName := none
  breakTarget : Option Label := none
  continueLabel : Option LabelName := none
  continueTarget : Option Label := none
  deriving DecidableEq, Repr

namespace LabelTarget

def label (t : LabelTarget) : ControlFlowChange → Option LabelName
  | .continue => t.continueLabel
  | .break => t.breakLabel

def target (t : LabelTarget) : ControlFlowChange → Option Label
  | .continue => t.continueTarget
  | .break => t.breakTarget

/-- `LabelTarget(pg)`, for a loop with so many contexts around. -/
def loop (depth : ℕ) : LabelTarget where
  breakLabel := some .break
  breakTarget := some (.breakTarget depth)
  continueLabel := some .continue
  continueTarget := some (.continueTarget depth)

/-- `LabelTarget(target, label)`: both names are the label. -/
def named (target : Option Label) (label : LabelName) : LabelTarget where
  breakLabel := some label
  breakTarget := target
  continueLabel := some label

end LabelTarget

inductive ContextKind where
  | label
  | iterator (r : ℕ) (type : IteratorType)
  | try (hasFinalizer : Bool) (finallyBlock : Option Statement) (inFinalizer : Bool)
  deriving DecidableEq, Repr

structure DynamicContext where
  kind : ContextKind
  target : LabelTarget := {}
  /-- Not in the source: the code is a finalizer, compiled for an exit that has left the context. -/
  isLeft : Bool := false
  deriving DecidableEq, Repr

namespace DynamicContext

/-- A finalizer that `EmitFinalizer` would compile. -/
def pendingFinalizer (c : DynamicContext) : Option Statement :=
  match c.kind with
  | .try true finallyBlock false => finallyBlock
  | _ => none

def iterator? (c : DynamicContext) : Option ℕ :=
  match c.kind with
  | .iterator r _ => some r
  | _ => none

def hasFinalizer (c : DynamicContext) : Bool :=
  match c.kind with
  | .label => false
  | .iterator .. => true
  | .try hasFinalizer _ _ => hasFinalizer

/-- `inFinalizer_ = true` -/
def setInFinalizer (c : DynamicContext) : DynamicContext :=
  match c.kind with
  | .try hasFinalizer finallyBlock _ => { c with kind := .try hasFinalizer finallyBlock true }
  | _ => c

end DynamicContext

/-- The contexts for the finalizer of the try statement that has so many contexts around. -/
def enterFinalizer (depth : ℕ) : List DynamicContext → List DynamicContext
  | [] => []
  | c :: cs =>
    if cs.length = depth then c.setInFinalizer :: cs
    else if depth < cs.length then { c with isLeft := true } :: enterFinalizer depth cs
    else c :: cs

/-- The state of the generator. Contexts are listed innermost first; registers are allocated in
order and free again behind the statement. -/
structure PandaGen where
  builder : BuilderType
  isConstructor : Bool := false
  dynamicContext : List DynamicContext := []
  usedRegs : ℕ := 0
  handleReturn : Bool := false

namespace PandaGen

def allocRegs (pg : PandaGen) (n : ℕ) : PandaGen := { pg with usedRegs := pg.usedRegs + n }

def withContext (pg : PandaGen) (c : DynamicContext) : PandaGen :=
  { pg with dynamicContext := c :: pg.dynamicContext }

@[simp] theorem usedRegs_allocRegs (pg : PandaGen) (n : ℕ) :
    (pg.allocRegs n).usedRegs = pg.usedRegs + n := rfl

@[simp] theorem dynamicContext_allocRegs (pg : PandaGen) (n : ℕ) :
    (pg.allocRegs n).dynamicContext = pg.dynamicContext := rfl

@[simp] theorem usedRegs_withContext (pg : PandaGen) (c : DynamicContext) :
    (pg.withContext c).usedRegs = pg.usedRegs := rfl

@[simp] theorem dynamicContext_withContext (pg : PandaGen) (c : DynamicContext) :
    (pg.withContext c).dynamicContext = c :: pg.dynamicContext := rfl

def depth (pg : PandaGen) : ℕ := pg.dynamicContext.length

def checkControlFlowChange (pg : PandaGen) : Bool :=
  pg.dynamicContext.any DynamicContext.hasFinalizer

/-- `EmitFinalizer` sets `inFinalizer_` of its try statement. -/
def inFinalizer (pg : PandaGen) (depth : ℕ) : PandaGen :=
  { pg with dynamicContext := enterFinalizer depth pg.dynamicContext }

/-- The iterators of the statements around. -/
def iterators (pg : PandaGen) : List ℕ :=
  (pg.dynamicContext.filter (!·.isLeft)).filterMap DynamicContext.iterator?

end PandaGen

/-! ## Code -/

/-- Instructions one after the other. -/
def ops (is : List Operation) : Code := is.foldr (fun i code => .seq (.op i) code) .skip

theorem result_of_run_ops {V : Type} {fuel : ℕ} {is : List Operation} {s s' : State V}
    {r : StructuredCode.Result (JsValue V) Label}
    (h : run (semantics V) fuel (ops is) s = some (r, s')) :
    r = .normal ∨ ∃ e, r = .thrown e 0 := by
  induction is generalizing s with
  | nil =>
    obtain ⟨rfl, -⟩ := Prod.mk.inj (Option.some.inj h)
    exact .inl rfl
  | cons i is ih =>
    have h : andThen (perform (exec i s)) (run (semantics V) fuel (ops is)) = some (r, s') := h
    rcases hexec : exec i s with _ | ⟨e | _, t⟩
    · simp [hexec, perform, andThen] at h
    · simp only [hexec, perform, andThen, Option.some.injEq, Prod.mk.injEq] at h
      exact .inr ⟨e, h.1.symm⟩
    · simp only [hexec, perform, andThen] at h
      exact ih h

/-- The finalizer of a try statement, compiled in place of an exit. -/
abbrev Inline := PandaGen → Statement → Code

/-- `Iterator::Close` of the iterator whose registers begin with `r`. -/
abbrev Close := PandaGen → ℕ → IteratorType → Code

/-! ### Control flow changes -/

section ControlFlowChange

variable (inl : Inline) (close : Close)

/-- `EmitFinalizer` -/
def emitFinalizer (pg : PandaGen) (depth : ℕ) (block : Statement) : Code :=
  .seq (.op (.startFinalizer depth)) (inl (pg.inFinalizer depth) block)

/-- `AbortContext` of a context that has so many contexts around. -/
def abortContext (cfc : ControlFlowChange) (labelName : LabelName) (pg : PandaGen) (depth : ℕ)
    (c : DynamicContext) : Code :=
  match c.kind, c.pendingFinalizer with
  | .iterator r type, _ =>
    if cfc = .continue ∧ c.target.continueLabel = some labelName then .skip else close pg r type
  | _, some block => emitFinalizer inl pg depth block
  | _, none => .skip

/-- The loop of `ControlFlowChangeBreak` and `ControlFlowChangeContinue`. -/
def unwind (cfc : ControlFlowChange) (labelName : LabelName) (pg : PandaGen) :
    List DynamicContext → Code
  | [] => .skip
  | c :: prev =>
    .seq (abortContext inl close cfc labelName pg prev.length c)
      (if c.target.label cfc = some labelName then .skip else unwind cfc labelName pg prev)

end ControlFlowChange

/-- The target that such a walk finds. -/
def findTarget (cfc : ControlFlowChange) (labelName : LabelName) :
    List DynamicContext → Option Label → Option Label
  | [], target => target
  | c :: prev, target =>
    let target := (c.target.target cfc).or target
    if c.target.label cfc = some labelName then target
    else findTarget cfc labelName prev target

/-- The iterators that such a walk closes. -/
def closedBy (cfc : ControlFlowChange) (labelName : LabelName) : List DynamicContext → List ℕ
  | [] => []
  | c :: prev =>
    (if cfc = .continue ∧ c.target.continueLabel = some labelName then []
      else c.iterator?.toList) ++
      if c.target.label cfc = some labelName then [] else closedBy cfc labelName prev

/-- The name that contexts are searched by. -/
def labelName (cfc : ControlFlowChange) : Option String → LabelName
  | some name => .ident name
  | none => match cfc with
    | .continue => .continue
    | .break => .break

namespace Label

/-- A jump to the label leaves a loop with so many contexts around. -/
def leaves (depth : ℕ) : Label → Bool
  | breakTarget t => t ≤ depth
  | continueTarget t => t < depth
  | missing => true

/-- The label belongs to a statement that is still around. -/
def isAround (cs : List DynamicContext) : Label → Bool
  | breakTarget t | continueTarget t => (cs.reverse[t]?.map (!·.isLeft)).getD false
  | missing => false

end Label

/-- Where an exit leads. -/
inductive Destination where
  | label (l : Label)
  | caller
  deriving DecidableEq, Repr

namespace Destination

def leaves (depth : ℕ) : Destination → Bool
  | label l => l.leaves depth
  | caller => true

def isAround (cs : List DynamicContext) : Destination → Bool
  | label l => l.isAround cs
  | caller => true

end Destination

/-- An exit that closes these iterators does not do as it should for that of a context: it does not
close it though it leaves its loop, or it closes it though it does not leave it, or the iterator is
closed already, and the exit closes it again or leads back to where it was open. -/
def isImproper (cs : List DynamicContext) (closed : List ℕ) (destination : Destination) (r depth : ℕ)
    (c : DynamicContext) : Bool :=
  if c.isLeft then closed.contains r || !destination.isAround cs
  else closed.contains r != destination.leaves depth

/-- The iterators among those of these contexts for which an exit does not do as it should; `cs` are
all contexts around it. -/
def improper (cs : List DynamicContext) (closed : List ℕ) (destination : Destination) :
    List DynamicContext → List ℕ
  | [] => []
  | c :: outer =>
    (c.iterator?.toList.filter fun r => isImproper cs closed destination r outer.length c) ++
      improper cs closed destination outer

/-- The mark of an exit. -/
def exits (pg : PandaGen) (closed : List ℕ) (destination : Destination) : Code :=
  .op (.exits (improper pg.dynamicContext closed destination pg.dynamicContext))

/-! ### Suspension -/

/-- `DirectReturn` of the builders. -/
def directReturn : Code := .seq (.op .resolve) .return

/-- `resumeGenerator` -/
def resumeGenerator (completionType completionValue : ℕ) : Code :=
  ops [.resumeGenerator, .sta completionValue, .getResumeMode, .sta completionType]

/-- `.throw(value)`, and the value of `.next(value)`. -/
def throwOrNext (completionType completionValue : ℕ) : Code :=
  .seq (.test (.mode .throw completionType) (ops [.lda completionValue, .throw]) .skip)
    (.op (.lda completionValue))

/-- `HandleCompletion`; `walk` is the control flow change. -/
def handleCompletion (walk : Code) (completionType completionValue : ℕ) : Code :=
  .seq
    (.test (.mode .return completionType)
      (.seq walk (.seq (.op (.lda completionValue)) directReturn)) .skip)
    (throwOrNext completionType completionValue)

/-- What is behind a suspension; the two registers are the next ones. -/
def resume (walk : Code) (pg : PandaGen) : Code :=
  .seq (resumeGenerator pg.usedRegs (pg.usedRegs + 1))
    (handleCompletion walk pg.usedRegs (pg.usedRegs + 1))

/-- `FunctionBuilder::Await`; `walk` is the control flow change of `HandleCompletion`. -/
def awaitWith (walk : PandaGen → Code) (pg : PandaGen) : Code :=
  .seq (.op .await) (resume (walk (pg.allocRegs 2)) pg)

/-! ### Iterators -/

/-- A try context without a statement of its own. -/
def plainTry : DynamicContext := ⟨.try false none false, {}, false⟩

/-- What `Iterator::Close` of an asynchronous iterator does when there is no method `return`. -/
def noMethod (completion : ℕ) (abruptCompletion : Bool) : Code :=
  .seq (.op (.lda completion)) (if abruptCompletion then .op .throw else directReturn)

/-- The inner try statement of `Iterator::Close`: call the method, and await its result. -/
def callReturn (await : PandaGen → Code) (pg : PandaGen) (r innerResult innerResultType : ℕ) :
    Code :=
  .tryRange
    (.seq (.op (.callThis r)) (.seq (await pg) (.op (.sta innerResult))))
    (ops [.sta innerResult, .sta innerResultType])

/-- `Iterator::Close` of an asynchronous iterator. -/
def closeAsync (await : PandaGen → Code) (abruptCompletion : Bool) (pg : PandaGen) (r : ℕ) : Code :=
  let completion := pg.usedRegs
  let innerResult := pg.usedRegs + 1
  let innerResultType := pg.usedRegs + 2
  .seq (ops [.sta completion, .ldHole, .sta innerResultType]) <|
    .seq
      (.tryRange
        (.seq (ops [.getMethod r, .sta r])
          (.seq (.test .isUndefined (noMethod completion abruptCompletion) .skip)
            (callReturn await (((pg.allocRegs 3).withContext plainTry).withContext plainTry) r
              innerResult innerResultType)))
        (ops [.sta innerResult, .sta innerResultType]))
      (.seq
        (if abruptCompletion then ops [.lda completion, .throw]
          else ops [.lda innerResultType, .rethrow])
        (ops [.lda innerResult, .throwIfNotObject]))

/-- `Iterator::Close` -/
def closeWith (await : PandaGen → Code) (abruptCompletion : Bool) : Close := fun pg r type =>
  match type with
  | .sync =>
    if abruptCompletion then .op (.closeIterator r) else ops [.ldHole, .closeIterator r]
  | .async => closeAsync await abruptCompletion pg r

/-! ### What a return resumption does -/

/-- The iterators that `ControlFlowChangeBreak()` of `HandleCompletion` closes. -/
def closedByCompletion (pg : PandaGen) : List ℕ :=
  if pg.handleReturn then [] else closedBy .break .break pg.dynamicContext

/-- `ControlFlowChangeBreak()` of `HandleCompletion`, unless one is under way. -/
def completionWalk (inl : Inline) (pg : PandaGen) : Code :=
  .seq (exits pg (closedByCompletion pg) .caller) <|
    if pg.handleReturn then .skip else
      let pg := { pg with handleReturn := true }
      unwind inl (closeWith (awaitWith fun pg => exits pg [] .caller) false) .break .break pg
        pg.dynamicContext

def await (inl : Inline) : PandaGen → Code := awaitWith (completionWalk inl)

/-- `ControlFlowChangeBreak` and `ControlFlowChangeContinue`. -/
def controlFlowChange (inl : Inline) (cfc : ControlFlowChange) (name : LabelName)
    (destination : Destination) (pg : PandaGen) : Code :=
  .seq (exits pg (closedBy cfc name pg.dynamicContext) destination)
    (unwind inl (closeWith (await inl) false) cfc name pg pg.dynamicContext)

/-- The walk of `AsyncGeneratorFunctionBuilder::Yield`, and the return behind it. -/
def returnAwaited (inl : Inline) (pg : PandaGen) : Code :=
  .seq (controlFlowChange inl .break .break .caller (pg.allocRegs 2))
    (.seq (.op (.lda (pg.usedRegs + 1))) directReturn)

/-- `AsyncGeneratorFunctionBuilder::Yield` behind the suspension: the value of a return is awaited
before the walk. -/
def resumeAsyncGenerator (inl : Inline) (pg : PandaGen) : Code :=
  let completionType := pg.usedRegs
  let completionValue := pg.usedRegs + 1
  .seq (resumeGenerator completionType completionValue) <|
    .seq
      (.test (.mode .return completionType)
        (.seq (ops [.lda completionValue, .await]) <|
          .seq (resumeGenerator completionType completionValue) <|
            .seq (.test (.mode .throw completionType) (ops [.lda completionValue, .throw]) .skip)
              (returnAwaited inl pg))
        .skip)
      (throwOrNext completionType completionValue)

/-- `GeneratorFunctionBuilder::Yield` and `AsyncGeneratorFunctionBuilder::Yield`. -/
def yield (inl : Inline) (pg : PandaGen) : Code :=
  if pg.builder = .asyncGenerator then
    .seq (await inl pg) (.seq (.op .yield) (resumeAsyncGenerator inl pg))
  else .seq (.op .yield) (resume (completionWalk inl (pg.allocRegs 2)) pg)

/-! ### Statements -/

/-- `ReturnStatement::Compile` behind its argument. -/
def compileReturn (inl : Inline) (pg : PandaGen) : Code :=
  .seq
    (if pg.checkControlFlowChange then
      .seq (.op (.sta pg.usedRegs)) <|
        .seq (controlFlowChange inl .break .break .caller (pg.allocRegs 1))
          (.op (.lda pg.usedRegs))
      else .skip)
    (.seq (if pg.isConstructor then .op .validateClassDirectReturn else .skip) directReturn)

/-- `BreakStatement::Compile` and `ContinueStatement::Compile`. -/
def compileJump (inl : Inline) (cfc : ControlFlowChange) (label : Option String) (pg : PandaGen) :
    Code :=
  let target := (findTarget cfc (labelName cfc label) pg.dynamicContext none).getD .missing
  .seq (controlFlowChange inl cfc (labelName cfc label) (.label target) pg) (.branch target)

/-- `Iterator(pg, node, type)` -/
def newIterator (pg : PandaGen) (type : IteratorType) : Code :=
  ops [.getIterator type, .sta (pg.usedRegs + 1), .ldNext, .sta pg.usedRegs, .throwIfNotObject]

/-- `Iterator::Next` -/
def iteratorNext (inl : Inline) (pg : PandaGen) (r : ℕ) (type : IteratorType) : Code :=
  .seq (.op (.callThis r)) <|
    .seq (if type = .async then await inl pg else .skip) (ops [.throwIfNotObject, .sta (r + 2)])

/-- The context of a for-of loop. -/
def iteratorContext (pg : PandaGen) (type : IteratorType) : DynamicContext :=
  ⟨.iterator pg.usedRegs type, .loop pg.depth, false⟩

/-- `ForOfStatement::Compile` from the call of `next` to the reference of the left side. -/
def forOfHead (inl : Inline) (type : IteratorType) (e : ℕ) (pg : PandaGen) : Code :=
  let r := pg.usedRegs
  .seq (iteratorNext inl (pg.allocRegs 3) r type) <|
    .test .done (.branch (.breakTarget pg.depth)) (ops [.ldValue, .sta (r + 3), .expression e])

/-- The try range of a for-of loop, and its handler; `body` is the code of the body. -/
def forOfRange (inl : Inline) (type : IteratorType) (e : ℕ) (pg : PandaGen)
    (body : PandaGen → Code) : Code :=
  let r := pg.usedRegs
  let inner := (pg.allocRegs 4).withContext (iteratorContext pg type)
  .tryRange
    (.seq (ops [.lda (r + 3), .setValue e]) (body inner))
    (.seq (.op (.caught inner.iterators)) (closeWith (await inl) true inner r type))

/-- `ForOfStatement::Compile` -/
def compileForOf (inl : Inline) (type : IteratorType) (e : ℕ) (pg : PandaGen)
    (body : PandaGen → Code) : Code :=
  .seq (.op (.expression e)) <| .seq (newIterator pg type) <|
    .label
      (.loop (.seq (forOfHead inl type e pg)
        (.label (forOfRange inl type e pg body) (.continueTarget pg.depth))))
      (.breakTarget pg.depth)

/-- The handler of a try statement with a catch clause. -/
def catchClause (pg : PandaGen) (code : Code) : Code := .seq (.op (.caught pg.iterators)) code

/-- The context of a try statement with a finalizer. -/
def finallyContext (finalizer : Statement) : DynamicContext :=
  ⟨.try true (some finalizer) false, {}, false⟩

/-- `CompileFinally` behind the try range; the statement has so many contexts around. -/
def compileFinally (depth run exception : ℕ) (finallyCode : Code) : Code :=
  .seq (.op (.lda run)) <|
    .seq (.test .isUndefined (.seq (ops [.sta run, .startFinalizer depth]) finallyCode) .skip)
      (ops [.lda exception, .rethrow])

/-- `CompileTryFinally` and `CompileTryCatchFinally`, with the code of the parts. -/
def compileTryFinally (pg : PandaGen) (finalizer : Statement)
    (blockCode catchCode finallyCode : PandaGen → Code) : Code :=
  let run := pg.usedRegs
  let exception := pg.usedRegs + 1
  let outer := (pg.allocRegs 1).withContext (finallyContext finalizer)
  let inner := outer.withContext ⟨.try false (some finalizer) false, {}, false⟩
  .seq (ops [.ldUndefined, .sta run]) <|
    .seq
      (.tryRange
        (.seq (.tryRange (blockCode inner) (catchCode inner)) (ops [.ldHole, .sta exception]))
        (ops [.caught outer.iterators, .sta exception]))
      (compileFinally pg.depth run exception
        (finallyCode ((outer.allocRegs 1).inFinalizer pg.depth)))

def compileStatement (inl : Inline) : Statement → PandaGen → Code
  | .expression e, _ => .op (.expression e)
  | .await e, pg => .seq (.op (.expression e)) (await inl pg)
  | .yield e, pg => .seq (.op (.expression e)) (yield inl pg)
  | .empty, _ => .skip
  | .block first second, pg => .seq (compileStatement inl first pg) (compileStatement inl second pg)
  | .ifElse e consequent alternate, pg =>
    .test (.expression e) (compileStatement inl consequent pg) (compileStatement inl alternate pg)
  | .while e body, pg =>
    .label
      (.loop (.test (.expression e)
        (.label (compileStatement inl body (pg.withContext ⟨.label, .loop pg.depth, false⟩))
          (.continueTarget pg.depth))
        (.branch (.breakTarget pg.depth))))
      (.breakTarget pg.depth)
  | .forOf type e body, pg => compileForOf inl type e pg (compileStatement inl body)
  | .switch e cases, pg =>
    .seq (.op (.expression e)) <|
      .label
        (compileStatement inl cases
          (pg.withContext ⟨.label, .named (some (.breakTarget pg.depth)) .break, false⟩))
        (.breakTarget pg.depth)
  | .labelled name body, pg =>
    let target : Option Label := if body.isBlock then some (.breakTarget pg.depth) else none
    .label
      (compileStatement inl body (pg.withContext ⟨.label, .named target (.ident name), false⟩))
      (.breakTarget pg.depth)
  | .break label, pg => compileJump inl .break label pg
  | .continue label, pg => compileJump inl .continue label pg
  | .return e, pg => .seq (.op (.expression e)) (compileReturn inl pg)
  | .throw e, _ => ops [.expression e, .throw]
  | .tryCatch block handler, pg =>
    let inner := pg.withContext ⟨.try true none false, {}, false⟩
    .tryRange (compileStatement inl block inner)
      (catchClause inner (compileStatement inl handler inner))
  | .tryFinally block finalizer, pg =>
    compileTryFinally pg finalizer (compileStatement inl block) (fun _ => .op .throw)
      (compileStatement inl finalizer)
  | .tryCatchFinally block handler finalizer, pg =>
    compileTryFinally pg finalizer (compileStatement inl block)
      (fun inner => catchClause inner (compileStatement inl handler inner))
      (compileStatement inl finalizer)

/-- The compiler of finalizers that are nested at most so deep; what is nested deeper does not come
to an end. -/
def compileNested : ℕ → Inline
  | 0 => fun _ _ => .loop .skip
  | n + 1 => fun pg statement => compileStatement (compileNested n) statement pg

/-- The state of the generator at the beginning of a function. -/
def PandaGen.function (builder : BuilderType) (isConstructor : Bool) : PandaGen where
  builder := builder
  isConstructor := isConstructor
  dynamicContext := if builder = .normal then [] else [plainTry]

end ArkTs2abc.Es2panda.Exits
