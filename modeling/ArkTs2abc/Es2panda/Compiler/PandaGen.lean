import ArkTs2abc.Es2panda.Compiler.Emission

/-!
# The code generator: variables, control flow changes, iterators, builders

What the classes around `PandaGen` emit when they are called by the statements and
expressions. `AbortContext` compiles the finalizer of a try statement where it is
called; the compiler of statements is a parameter `inl` here.

## Main definitions

* `loadVar`, `storeVar`, `hoist` — access to variables.
* `controlFlowChange` — the walk over the dynamic contexts.
* `Iterator.close`, `await`, `yield`, `yieldStar` — iterators and builders.
-/

namespace ArkTs2abc.Es2panda

open Emit

namespace PandaGen

/-- `StoreConst`. -/
def storeConst (r : Reg) (c : Constant) : List Insn := [.ldConst c, .sta r]

/-- The pair that `Scope::Find` leads to, with the scopes that it was counted over. -/
def access (pg : PandaGen) (level slot : ℕ) : Access := ⟨Scope.envs pg.scope, level, slot⟩

/-- `LoadVar`. -/
def loadVar (pg : PandaGen) (name : String) (isTdz : Bool) : List Insn :=
  match Scope.find name pg.scope with
  | none => [.op .ldGlobal]
  | some (level, v) =>
    match v.kind, v.lexIdx with
    | .global, _ => [.op .ldGlobal]
    | .module, _ => [.op .ldModuleVariable]
    | .local, some slot => [.ldLexVar (pg.access level slot), .throwUndefinedIfHole name]
    | .local, none =>
      if isTdz then [.ldConst .hole, .throwUndefinedIfHole name] else [.lda (.var v.vreg)]

/-- `ExpandStoreLexVar` and `ExpandStoreNormalVar`. -/
def storeAccToLexEnv (pg : PandaGen) (level : ℕ) (v : Variable) (isTdz isDecl : Bool) :
    Emit (List Insn) :=
  match v.lexIdx with
  | some slot => do
    let a := pg.access level slot
    if v.declType.isLetOrConst && !isDecl then
      let value ← allocReg
      Emit.pure <| [.sta value, .ldLexVar a, .throwUndefinedIfHole v.name] ++
        (if v.declType = .constDecl then [.throwConstAssignment v.name] else []) ++
        [.lda value, .stLexVar a]
    else Emit.pure [.stLexVar a]
  | none => Emit.pure <|
    (if isDecl then [] else
      (if isTdz then [.ldConst .hole, .throwUndefinedIfHole v.name] else []) ++
      (if v.declType = .constDecl then [.throwConstAssignment v.name] else [])) ++
    [.sta (.var v.vreg)]

/-- `StoreVar`. -/
def storeVar (pg : PandaGen) (name : String) (isTdz isDecl : Bool) : Emit (List Insn) :=
  match Scope.find name pg.scope with
  | none => Emit.pure [.op .stGlobal]
  | some (level, v) =>
    match v.kind with
    | .global => Emit.pure [.op .stGlobal]
    | .module => Emit.pure [.throwConstAssignment name]
    | .local => pg.storeAccToLexEnv level v isTdz isDecl

/-- The level that `Hoisting::Hoist` stores at is always 0. -/
def hoistVariable (pg : PandaGen) (isGlobal : Bool) (v : Variable) : List Insn :=
  let store : List Insn :=
    if isGlobal then [.op .stGlobal] else
    match v.lexIdx with
    | some slot => [.stLexVar (pg.access 0 slot)]
    | none => [.sta (.var v.vreg)]
  match v.hoist with
  | .none => []
  | .var => .ldConst .undefined :: store
  | .function f => .defineFunction f pg.envScope :: store

/-- `Hoisting::Hoist`. -/
def hoist (pg : PandaGen) (s : Scope) : List Insn :=
  s.bindings.flatMap (pg.hoistVariable (s.type = .global))

/-- `LocalRegScope(pg, scope)`, around what is compiled in it. -/
def localRegScope {α : Type} (pg : PandaGen) (s : Scope) (body : PandaGen → Emit α) : Emit α := do
  let pg := pg.withScope s
  pg.emits (pg.hoist s)
  body pg

/-! ### Returns -/

def getThis (pg : PandaGen) : List Insn := pg.loadVar "this" false

/-- `DirectReturn` of the four builders. -/
def directReturn (pg : PandaGen) : List Insn :=
  match pg.builder with
  | .normal => [.return]
  | .generator => [.op .generatorComplete, .op .createIterResultObject, .return]
  | .async => [.op .asyncFunctionResolve, .return]
  | .asyncGenerator => [.op .asyncGeneratorResolve, .return]

/-- `ImplicitReturn` of the four builders. -/
def implicitReturn (pg : PandaGen) : List Insn :=
  match pg.builder with
  | .normal =>
    if pg.isConstructor then pg.getThis ++ [.op .throwIfSuperNotCorrectCall, .return]
    else [.ldConst .undefined, .return]
  | _ => .ldConst .undefined :: pg.directReturn

/-- `ValidateClassDirectReturn`. -/
def validateClassDirectReturn (pg : PandaGen) : Emit Unit := do
  if pg.isConstructor then
    let value ← allocReg
    pg.emit (.sta value)
    let notUndefined ← allocLabel pg.note
    let condEnd ← allocLabel pg.note
    pg.emit .isUndefined
    pg.emit (.jfalse notUndefined)
    pg.emits (pg.getThis ++ [.op .throwIfSuperNotCorrectCall])
    pg.branch condEnd
    pg.setLabel notUndefined
    pg.emit (.lda value)
    pg.setLabel condEnd

/-! ### Control flow changes -/

/-- Compile a statement where a finalizer is emitted. -/
abbrev Inline := PandaGen → Stmt → Emit Unit

/-- A return takes note of a context that is released. -/
def released (pg : PandaGen) (held : Option ℕ) (id : ℕ) : Emit PandaGen :=
  match held, pg.note.kept with
  | some n, (m, ids) :: kept => do
    pg.emit (.release n id)
    Emit.pure { pg with note := { pg.note with kept := (m, ids ++ [id]) :: kept } }
  | _, _ => Emit.pure pg

/-- The state that a finalizer is compiled in: the contexts are those of the place, the scope is the
finalizer's. -/
def inFinalizer (pg : PandaGen) (t : TryContext) : PandaGen :=
  { pg with
    dynamicContext := pg.dynamicContext.map (DynamicContext.enterFinalizer t.id)
    scope := t.scope
    note := { t.outer with kept := pg.note.kept }
    tag := { pg.tag with foreignScope := false }
    enclosing := t.enclosing }

/-- `TryContext::EmitFinalizer`. -/
def emitFinalizer (inl : Inline) (pg : PandaGen) (t : TryContext) (block : Stmt) : Emit Unit := do
  pg.emit (.startFinalizer t.id { t.outer with kept := pg.note.kept })
  inl (pg.inFinalizer t) block

/-- `AbortContext` of the four kinds of contexts. -/
def abortContext (close : PandaGen → Iterator → Emit Unit) (inl : Inline)
    (cfc : ControlFlowChange) (targetLabel : LabelName) (held : Option ℕ) (pg : PandaGen) :
    DynamicContext → Emit PandaGen
  | .label _ => Emit.pure pg
  | .lexEnv hasEnv _ => do
    if cfc = .continue || !hasEnv then Emit.pure pg else
    pg.emit .popLexEnv
    Emit.pure { pg with note := { pg.note with env := pg.note.env.tail } }
  | .iterator id iter target => do
    if cfc = .continue && target.continueLabel = some targetLabel then Emit.pure pg else
    let pg ← pg.released held id
    close pg iter
    Emit.pure pg
  | .try t => do
    match t.pendingFinalizer with
    | none => Emit.pure pg
    | some block =>
      let pg ← pg.released held t.id
      pg.emitFinalizer inl t block
      Emit.pure { pg with note := { t.outer with kept := pg.note.kept } }

/-- The loop of `ControlFlowChangeBreak` and `ControlFlowChangeContinue`. -/
def unwind (close : PandaGen → Iterator → Emit Unit) (inl : Inline) (cfc : ControlFlowChange)
    (labelName : LabelName) (held : Option ℕ) :
    List DynamicContext → PandaGen → Option Label → Emit (PandaGen × Option Label)
  | [], pg, target => Emit.pure (pg, target)
  | iter :: prev, pg, target => do
    let pg ← abortContext close inl cfc labelName held pg iter
    let target := (iter.target.target cfc).or target
    if iter.target.label cfc = some labelName then Emit.pure (pg, target)
    else unwind close inl cfc labelName held prev pg target

def startUnwinding (pg : PandaGen) : PandaGen :=
  { pg with tag := { pg.tag with unwinding := true } }

def controlFlowChangeWith (close : PandaGen → Iterator → Emit Unit) (inl : Inline)
    (cfc : ControlFlowChange) (labelName : LabelName) (held : Option ℕ) (pg : PandaGen) :
    Emit (PandaGen × Option Label) :=
  unwind close inl cfc labelName held pg.dynamicContext pg.startUnwinding none

/-! ### Generators and `await` -/

/-- `resumeGenerator`. -/
def resumeGenerator (completionType completionValue : Reg) : List Insn :=
  [.op .resumeGenerator, .sta completionValue, .op .getResumeMode, .sta completionType]

/-- `SuspendResumeExecution`. -/
def suspendResumeExecution (completionType completionValue : Reg) : List Insn :=
  .op .suspendGenerator :: resumeGenerator completionType completionValue

/-- `AsyncYield`. -/
def asyncYield (completionType completionValue : Reg) : List Insn :=
  [.op .generatorYield, .op .suspendAsyncGenerator] ++
    resumeGenerator completionType completionValue

/-- `Condition` on a resume mode in a register. -/
def branchIfNotMode (pg : PandaGen) (mode : Constant) (l : Label) : Emit Unit := do
  pg.emits [.ldConst mode, .op .compare]
  pg.emit (.jfalse l)

/-- The walk of `HandleCompletion`, unless `handleReturn_` says that one is under way. -/
def walkIf (walk : Option (PandaGen → Emit PandaGen)) (pg : PandaGen) : Emit PandaGen :=
  match walk with
  | some walk => walk pg
  | none => Emit.pure pg

/-- `HandleCompletion`; `walk` is the control flow change, unless one is under way. -/
def handleCompletion (walk : Option (PandaGen → Emit PandaGen)) (pg : PandaGen)
    (completionValue : Reg) : Emit Unit := do
  let notRetLabel ← allocLabel pg.note
  pg.branchIfNotMode .resumeReturn notRetLabel
  let pg' ← walkIf walk pg
  pg'.emits (.lda completionValue :: pg'.directReturn)
  pg.setLabel notRetLabel
  let notThrowLabel ← allocLabel pg.note
  pg.branchIfNotMode .resumeThrow notThrowLabel
  pg.emits [.lda completionValue, .throw]
  pg.setLabel notThrowLabel
  pg.emit (.lda completionValue)

def awaitWith (walk : Option (PandaGen → Emit PandaGen)) (pg : PandaGen) : Emit Unit := do
  let completionType ← allocReg
  let completionValue ← allocReg
  pg.emits (.op .asyncFunctionAwait :: suspendResumeExecution completionType completionValue)
  pg.handleCompletion walk completionValue

/-! ### Iterators -/

/-- `Iterator(pg, node, type)`. -/
def newIterator (pg : PandaGen) (type : IteratorType) : Emit Iterator := do
  let method ← allocReg
  let iterator ← allocReg
  let nextResult ← allocReg
  pg.emits [.op (if type = .async then .getAsyncIterator else .getIterator), .sta iterator,
    .op .ldObjByName, .sta method, .op .throwIfNotObject]
  Emit.pure ⟨method, iterator, nextResult, type⟩

/-- `GetMethod(name)`. -/
def getMethod (iter : Iterator) : List Insn := [.op .getMethod, .sta iter.method]

/-- `Iterator::Next`. -/
def iteratorNext (await : PandaGen → Emit Unit) (pg : PandaGen) (iter : Iterator) : Emit Unit := do
  pg.emit (.op .callThis)
  if iter.type = .async then await pg
  pg.emits [.op .throwIfNotObject, .sta iter.nextResult]

/-- `Iterator::Complete`. -/
def iteratorComplete : List Insn := [.op .ldObjByName, .op .toBoolean]

/-- `Iterator::Value`. -/
def iteratorValue : List Insn := [.op .ldObjByName]

/-- A try context without a statement of its own. -/
def plainTry (pg : PandaGen) : Emit PandaGen := do
  let id ← fresh
  Emit.pure (pg.withContext (.try { id }))

/-- `Iterator::Close`. -/
def closeWith (await : PandaGen → Emit Unit) (abruptCompletion : Bool) (pg : PandaGen)
    (iter : Iterator) : Emit Unit := do
  if iter.type = .sync then
    if !abruptCompletion then pg.emit (.ldConst .hole)
    pg.emit (.op .closeIterator)
  else
    let completion ← allocReg
    let innerResult ← allocReg
    let innerResultType ← allocReg
    pg.emits (.sta completion :: storeConst innerResultType .hole)
    let ctx ← pg.plainTry
    let returnExits ← allocLabel pg.note
    let catchEnd ← allocLabel pg.note
    let (table, _) ← ctx.protect pg.note pg.note fun pg' => do
      pg'.emits (getMethod iter)
      pg'.emit .isUndefined
      pg'.emit (.jfalse returnExits)
      pg'.emit (.lda completion)
      pg'.emits (if abruptCompletion then [.throw] else pg'.directReturn)
      pg'.setLabel returnExits
      let inner ← pg'.plainTry
      let innerCatchEnd ← allocLabel pg.note
      let (innerTable, _) ← inner.protect pg.note pg.note fun pg'' => do
        pg''.emit (.op .callThis)
        await pg''
        pg''.emit (.sta innerResult)
      pg'.branch innerCatchEnd
      pg'.setLabel innerTable.handler
      pg'.emits [.sta innerResult, .sta innerResultType]
      pg'.setLabel innerCatchEnd
    pg.branch catchEnd
    pg.setLabel table.handler
    pg.emits [.sta innerResult, .sta innerResultType]
    pg.setLabel catchEnd
    if abruptCompletion then pg.emits [.lda completion, .throw]
    else pg.emits [.lda innerResultType, .rethrow]
    pg.emits [.lda innerResult, .op .throwIfNotObject]

/-! ### The walk, with what it calls -/

/-- `ControlFlowChangeBreak()` of `HandleCompletion`: an `await` on the way does not walk again. -/
def completionWalk (inl : Inline) (pg : PandaGen) : Emit PandaGen := do
  let pg := { pg with handleReturn := true }
  let r ← controlFlowChangeWith (closeWith (awaitWith none) false) inl .break .break none pg
  Emit.pure { r.1 with handleReturn := false }

/-- `FunctionBuilder::Await`. -/
def await (inl : Inline) (pg : PandaGen) : Emit Unit :=
  awaitWith (if pg.handleReturn then none else some (completionWalk inl)) pg

def closeIterator (inl : Inline) (abruptCompletion : Bool) (pg : PandaGen) (iter : Iterator) :
    Emit Unit :=
  closeWith (await inl) abruptCompletion pg iter

/-- `ControlFlowChangeBreak(label)` and `ControlFlowChangeContinue(label)`. -/
def controlFlowChange (inl : Inline) (cfc : ControlFlowChange) (label : Option String)
    (held : Option ℕ) (pg : PandaGen) : Emit (PandaGen × Option Label) :=
  controlFlowChangeWith (closeIterator inl false) inl cfc
    (match label, cfc with
      | some name, _ => .ident name
      | none, .break => .break
      | none, .continue => .continue)
    held pg

/-- `DirectReturn` after `ControlFlowChangeBreak()` and the load of a register. -/
def breakAndReturn (inl : Inline) (pg : PandaGen) (value : Reg) : Emit Unit := do
  let (pg', _) ← pg.controlFlowChange inl .break none none
  pg'.emits (.lda value :: pg'.directReturn)

/-- `GeneratorFunctionBuilder::Yield` and `AsyncGeneratorFunctionBuilder::Yield`. -/
def yield (inl : Inline) (pg : PandaGen) : Emit Unit := do
  if pg.builder = .asyncGenerator then
    await inl pg
    let completionType ← allocReg
    let completionValue ← allocReg
    pg.emits (asyncYield completionType completionValue)
    let notReturnCompletion ← allocLabel pg.note
    let normalCompletion ← allocLabel pg.note
    let notThrowCompletion ← allocLabel pg.note
    pg.branchIfNotMode .resumeReturn notReturnCompletion
    pg.emits ([.lda completionValue, .op .asyncFunctionAwait] ++
      suspendResumeExecution completionType completionValue)
    pg.branchIfNotMode .resumeThrow normalCompletion
    pg.emits [.lda completionValue, .throw]
    pg.setLabel normalCompletion
    pg.breakAndReturn inl completionValue
    pg.setLabel notReturnCompletion
    pg.branchIfNotMode .resumeThrow notThrowCompletion
    pg.emits [.lda completionValue, .throw]
    pg.setLabel notThrowCompletion
    pg.emit (.lda completionValue)
  else
    let completionType ← allocReg
    let completionValue ← allocReg
    pg.emits ([.op .createIterResultObject, .op .generatorYield] ++
      suspendResumeExecution completionType completionValue)
    pg.handleCompletion (if pg.handleReturn then none else some (completionWalk inl))
      completionValue

/-- `Await` in an async generator. -/
def awaitIf (inl : Inline) (isAsync : Bool) (pg : PandaGen) : Emit Unit :=
  if isAsync then await inl pg else Emit.pure ()

/-- `YieldStar`, when the iterator has no method `return`. -/
def yieldStarReturn (inl : Inline) (pg : PandaGen) (isAsync : Bool) (receivedValue : Reg) :
    Emit Unit := do
  let (pg', _) ← pg.controlFlowChange inl .break none none
  pg'.emit (.lda receivedValue)
  awaitIf inl isAsync pg'
  pg'.emits pg'.directReturn

/-- `YieldStar`, when the iterator is not done: what it gives is yielded. -/
def yieldStarResume (inl : Inline) (pg : PandaGen) (isAsync : Bool)
    (receivedType receivedValue : Reg) (loopStart returnCompletion : Label) : Emit Unit := do
  if isAsync then
    pg.emits iteratorValue
    await inl pg
    pg.emits (asyncYield receivedType receivedValue)
    pg.branchIfNotMode .resumeReturn loopStart
    pg.emits ([.lda receivedValue, .op .asyncFunctionAwait] ++
      suspendResumeExecution receivedType receivedValue)
    pg.branchIfNotMode .resumeThrow returnCompletion
  else
    pg.emits (.op .generatorYield :: suspendResumeExecution receivedType receivedValue)

/-- `YieldStar`, when the iterator is done after a return was received. -/
def yieldStarExit (inl : Inline) (pg : PandaGen) (receivedValue : Reg) : Emit Unit := do
  pg.emits iteratorValue
  if pg.checkControlFlowChange then
    pg.emit (.sta receivedValue)
    pg.breakAndReturn inl receivedValue
  else
    pg.emits pg.directReturn

/-- `FunctionBuilder::YieldStar`. -/
def yieldStar (inl : Inline) (pg : PandaGen) : Emit Unit := do
  let isAsync : Bool := pg.builder = .asyncGenerator
  let loopStart ← allocLabel pg.note
  let returnCompletion ← allocLabel pg.note
  let throwCompletion ← allocLabel pg.note
  let callMethod ← allocLabel pg.note
  let normalOrThrowCompletion ← allocLabel pg.note
  let iteratorCompleted ← allocLabel pg.note
  let iterator ← pg.newIterator (if isAsync then .async else .sync)
  let receivedValue := iterator.nextResult
  let receivedType ← allocReg
  let nextMethod ← allocReg
  let exitReturn ← allocReg
  pg.emits (storeConst receivedValue .undefined ++
    [.ldConst .resumeNext, .sta receivedType, .mov nextMethod iterator.method])
  pg.setLabel loopStart
  pg.emits (storeConst exitReturn .false)
  pg.emits [.ldConst .resumeNext, .op .strictCompare]
  pg.emit (.jfalse throwCompletion)
  pg.emit (.mov iterator.method nextMethod)
  pg.branch callMethod
  pg.setLabel throwCompletion
  pg.emits [.ldConst .resumeThrow, .op .strictCompare]
  pg.emit (.jfalse returnCompletion)
  pg.emits (getMethod iterator)
  pg.emit .isUndefined
  pg.emit (.jfalse callMethod)
  closeIterator inl false pg iterator
  pg.emit (.op .throwThrowNotExist)
  pg.setLabel returnCompletion
  pg.emits (storeConst exitReturn .true)
  pg.emits (getMethod iterator)
  pg.emit .isUndefined
  pg.emit (.jfalse callMethod)
  yieldStarReturn inl pg isAsync receivedValue
  pg.setLabel callMethod
  pg.emit (.op .callThis)
  awaitIf inl isAsync pg
  pg.emits ([.sta receivedValue, .op .throwIfNotObject] ++ iteratorComplete)
  pg.emit (.jtrue iteratorCompleted)
  pg.emit (.lda receivedValue)
  yieldStarResume inl pg isAsync receivedType receivedValue loopStart returnCompletion
  pg.branch loopStart
  pg.setLabel iteratorCompleted
  pg.emit (.lda exitReturn)
  pg.emit (.jfalse normalOrThrowCompletion)
  yieldStarExit inl pg receivedValue
  pg.setLabel normalOrThrowCompletion
  pg.emits iteratorValue

end PandaGen

end ArkTs2abc.Es2panda
