import ArkTs2abc.Es2panda.Compiler.PandaGen

/-!
# Expressions, statements and functions

`Compile` of the nodes of the tree. An abrupt exit compiles the finalizers that it
passes in place, so the compiler of statements calls itself at statements that are
not below the one at hand. `compileStmt` gets the compiler to use there as its
argument, and `compileNested` ties the knot for a given nesting of finalizers; a
try statement whose finalizer is being emitted does not emit it again, so the
number of finalizers in the body is enough.

## Main definitions

* `compileExpr`, `compileStmt` — expressions and statements.
* `loopEnvScope` — `LoopEnvScope` around what is compiled in it.
* `compileFunction` — a whole function.
-/

namespace ArkTs2abc.Es2panda

open Emit

namespace PandaGen

/-- `LReference`: what its creation has evaluated. -/
inductive LReference where
  | variable
  | member (obj prop : Reg)
  | destructuring

/-- `DestructuringIterator`. -/
structure DestructuringIterator where
  iter : Iterator
  done : Reg
  result : Reg

def newDestructuringIterator (pg : PandaGen) : Emit DestructuringIterator := do
  let iter ← pg.newIterator .sync
  let done ← allocReg
  let result ← allocReg
  pg.emits (storeConst done .false ++ storeConst result .undefined)
  Emit.pure ⟨iter, done, result⟩

/-- `OnIterDone`. -/
def onIterDone (pg : PandaGen) : Option Label → Emit Unit
  | some done => pg.branch done
  | none => pg.emit (.ldConst .undefined)

/-- `DestructuringIterator::Step`; with a target it is that of `DestructuringRestIterator`. -/
def step (inl : Inline) (pg : PandaGen) (it : DestructuringIterator) (doneTarget : Option Label) :
    Emit Unit := do
  let ctx ← pg.plainTry
  let normalClose ← allocLabel pg.note
  let noClose ← allocLabel pg.note
  let catchEnd ← allocLabel pg.note
  let (table, _) ← ctx.protect pg.note pg.note fun pg => do
    iteratorNext (await inl) pg it.iter
    pg.emits iteratorComplete
    pg.emit (.sta it.done)
    pg.emit (.jfalse normalClose)
    pg.emits (storeConst it.done .true)
    pg.emit (.ldConst .undefined)
    pg.onIterDone doneTarget
    pg.branch noClose
    pg.setLabel normalClose
    pg.emits iteratorValue
    pg.emit (.sta it.result)
    pg.setLabel noClose
  pg.branch catchEnd
  pg.setLabel table.handler
  pg.emits ([.sta it.result] ++ storeConst it.done .true ++ [.lda it.result])
  pg.emit .throw
  pg.setLabel catchEnd

/-- The initialiser of a pattern's element, when the value is undefined. -/
def defaultInit (pg : PandaGen) (value : Reg) (init : Emit Unit) : Emit Unit := do
  let assignValue ← allocLabel pg.note
  let getDefault ← allocLabel pg.note
  pg.emit .isUndefined
  pg.emit (.jtrue getDefault)
  pg.emit (.lda value)
  pg.branch assignValue
  pg.setLabel getDefault
  init
  pg.setLabel assignValue

/-- The end of `GenArray`. -/
def closeArray (inl : Inline) (pg : PandaGen) (it : DestructuringIterator) (table : CatchTable)
    (catchEnd : Label) : Emit Unit := do
  pg.emit (.lda it.done)
  pg.emit (.jtrue catchEnd)
  closeIterator inl false pg it.iter
  pg.branch catchEnd
  let last ← allocLabel pg.note
  pg.setLabel table.handler
  pg.emits [.sta it.result, .lda it.done]
  pg.emit (.jtrue last)
  pg.emit (.lda it.result)
  closeIterator inl true pg it.iter
  pg.setLabel last
  pg.emit (.lda it.result)
  pg.emit .throw
  pg.setLabel catchEnd

/-- `GenArray`, around the code for the elements. -/
def genArray (inl : Inline) (pg : PandaGen) (it : DestructuringIterator) (isEmpty : Bool)
    (elements : PandaGen → Emit Unit) : Emit Unit := do
  if isEmpty then closeIterator inl false pg it.iter else
  let ctx ← pg.plainTry
  let catchEnd ← allocLabel pg.note
  let (table, _) ← ctx.protect pg.note pg.note elements
  ctx.closeArray inl it table catchEnd

/-- The check at the start of `GenObject`. -/
def throwIfNullish (pg : PandaGen) (rhs : Reg) : Emit Unit := do
  let notNullish ← allocLabel pg.note
  pg.emits [.lda rhs, .op .isCoercible]
  pg.emit (.jtrue notNullish)
  pg.emit (.op .throwObjectNonCoercible)
  pg.setLabel notNullish

/-- `StoreVar` of a declaration. -/
def initializeBinding (pg : PandaGen) (name : String) : Emit Unit := do
  let is ← pg.storeVar name false true
  pg.emits is

/-- `LReference::GetValue`. -/
def getValue (pg : PandaGen) : Pattern → List Insn
  | .ident name isTdz => pg.loadVar name isTdz
  | _ => [.op .ldObjByValue]

mutual

def compileExpr (inl : Inline) (pg : PandaGen) : Expr → Emit Unit
  | .literal => pg.emit (.ldConst .other)
  | .ident name isTdz => pg.emits (pg.loadVar name isTdz)
  | .operation operands => do
    compileExprs inl pg operands
    pg.emit (.op .operation)
  | .unary argument => do
    let operand ← allocReg
    compileExpr inl pg argument
    pg.emits [.sta operand, .op .unary]
  | .binary left right => do
    let lhs ← allocReg
    compileExpr inl pg left
    pg.emit (.sta lhs)
    compileExpr inl pg right
    pg.emit (.op .binary)
  | .logical isAnd left right => do
    let lhs ← allocReg
    let skipRight ← allocLabel pg.note
    let endLabel ← allocLabel pg.note
    compileExpr inl pg left
    pg.emits [.sta lhs, .op .toBoolean]
    pg.emit (if isAnd then .jfalse skipRight else .jtrue skipRight)
    compileExpr inl pg right
    pg.branch endLabel
    pg.setLabel skipRight
    pg.emit (.lda lhs)
    pg.setLabel endLabel
  | .conditional test consequent alternate => do
    let falseLabel ← allocLabel pg.note
    let endLabel ← allocLabel pg.note
    condition inl pg falseLabel test
    compileExpr inl pg consequent
    pg.branch endLabel
    pg.setLabel falseLabel
    compileExpr inl pg alternate
    pg.setLabel endLabel
  | .assign left right => do
    let lref ← createLRef inl pg left
    compileExpr inl pg right
    setValue inl pg false left lref
  | .compoundAssign left right => do
    let lref ← createLRef inl pg left
    let lhsReg ← allocReg
    pg.emits (getValue pg left)
    pg.emit (.sta lhsReg)
    compileExpr inl pg right
    pg.emit (.op .binary)
    setValue inl pg false left lref
  | .update argument isPrefixForm => do
    let operandReg ← allocReg
    let lref ← createLRef inl pg argument
    pg.emits (getValue pg argument)
    pg.emits [.sta operandReg, .op .unary]
    setValue inl pg false argument lref
    when (!isPrefixForm) (pg.emit (.op .toNumber))
  | .function index => pg.emit (.defineFunction index pg.envScope)
  | .await argument => do
    compileExpr inl pg argument
    await inl pg
  | .yield argument => do
    compileExpr inl pg argument
    yield inl pg
  | .yieldStar argument => do
    compileExpr inl pg argument
    yieldStar inl pg
  | .classDefinition scope ident superClass members => do
    let classReg ← allocReg
    pg.localRegScope scope.toScope fun pg => do
      let baseReg ← allocReg
      compileExpr inl pg superClass
      pg.emits [.sta baseReg, .op .defineClass, .sta classReg]
      forSome ident pg.initializeBinding
      compileExprs inl pg members
      pg.emits [.op .stObjByValue, .lda classReg]

/-- Operands, from left to right, each into a register. -/
def compileExprs (inl : Inline) (pg : PandaGen) : Exprs → Emit Unit
  | .nil => Emit.pure ()
  | .cons e es => do
    let r ← allocReg
    compileExpr inl pg e
    pg.emit (.sta r)
    compileExprs inl pg es

/-- `Condition::Compile`. -/
def condition (inl : Inline) (pg : PandaGen) (falseLabel : Label) : Test → Emit Unit
  | .comparison left right => do
    let lhs ← allocReg
    compileExpr inl pg left
    pg.emit (.sta lhs)
    compileExpr inl pg right
    pg.emit (.op .compare)
    pg.emit (.jfalse falseLabel)
  | .and left right => do
    compileExpr inl pg left
    pg.emit (.op .toBoolean)
    pg.emit (.jfalse falseLabel)
    compileExpr inl pg right
    pg.emit (.op .toBoolean)
    pg.emit (.jfalse falseLabel)
  | .or left right => do
    let endLabel ← allocLabel pg.note
    compileExpr inl pg left
    pg.emit (.op .toBoolean)
    pg.emit (.jtrue endLabel)
    compileExpr inl pg right
    pg.emit (.op .toBoolean)
    pg.emit (.jfalse falseLabel)
    pg.setLabel endLabel
  | .not argument => do
    compileExpr inl pg argument
    pg.emit (.op .unary)
    pg.emit (.jfalse falseLabel)
  | .other e => do
    compileExpr inl pg e
    pg.emit (.op .toBoolean)
    pg.emit (.jfalse falseLabel)

/-- `LReference::CreateLRef`. -/
def createLRef (inl : Inline) (pg : PandaGen) : Pattern → Emit LReference
  | .ident .. => Emit.pure .variable
  | .member object key => do
    let obj ← allocReg
    compileExpr inl pg object
    pg.emit (.sta obj)
    let prop ← allocReg
    compileExpr inl pg key
    pg.emit (.sta prop)
    Emit.pure (.member obj prop)
  | .array _ | .object _ => Emit.pure .destructuring

/-- `LReference::SetValue`, and `Destructuring::Compile`. -/
def setValue (inl : Inline) (pg : PandaGen) (isDecl : Bool) :
    Pattern → LReference → Emit Unit
  | .ident name isTdz, _ => do
    let is ← pg.storeVar name isTdz isDecl
    pg.emits is
  | .member .., _ => pg.emit (.op .stObjByValue)
  | .array elements, _ => do
    let rhs ← allocReg
    pg.emit (.sta rhs)
    let it ← pg.newDestructuringIterator
    pg.genArray inl it elements.isEmpty fun pg => genElements inl pg isDecl it elements
    pg.emit (.lda rhs)
  | .object properties, _ => do
    let rhs ← allocReg
    pg.emit (.sta rhs)
    when properties.emptyOrRest (pg.throwIfNullish rhs)
    genProperties inl pg isDecl properties
    pg.emit (.lda rhs)

/-- The elements of `GenArray`, and `GenRestElement`. -/
def genElements (inl : Inline) (pg : PandaGen) (isDecl : Bool) (it : DestructuringIterator) :
    Elements → Emit Unit
  | .nil => Emit.pure ()
  | .omitted tail => do
    step inl pg it none
    genElements inl pg isDecl it tail
  | .element target tail => do
    let lref ← createLRef inl pg target
    step inl pg it none
    setValue inl pg isDecl target lref
    genElements inl pg isDecl it tail
  | .elementInit target init tail => do
    let lref ← createLRef inl pg target
    step inl pg it none
    pg.defaultInit it.result (compileExpr inl pg init)
    setValue inl pg isDecl target lref
    genElements inl pg isDecl it tail
  | .rest target => do
    let array ← allocReg
    let index ← allocReg
    let next ← allocLabel pg.note
    let done ← allocLabel pg.note
    let lref ← createLRef inl pg target
    pg.emits ([.op .createEmptyArray, .sta array] ++ storeConst index (.int 0))
    pg.setLabel next
    step inl pg it (some done)
    pg.emits [.op .stObjByValue, .ldConst (.int 1), .op .binary, .sta index]
    pg.branch next
    pg.setLabel done
    pg.emit (.lda array)
    setValue inl pg true target lref

/-- `GenObjectProperty` for each property, and the rest of `GenObjectWithRest`. -/
def genProperties (inl : Inline) (pg : PandaGen) (isDecl : Bool) : Properties → Emit Unit
  | .nil => Emit.pure ()
  | .property key target tail => do
    let propReg ← allocReg
    let loadedValue ← allocReg
    compileExpr inl pg key
    pg.emit (.sta propReg)
    let lref ← createLRef inl pg target
    pg.emits [.op .ldObjByValue, .sta loadedValue]
    setValue inl pg isDecl target lref
    genProperties inl pg isDecl tail
  | .propertyInit key target init tail => do
    let propReg ← allocReg
    let loadedValue ← allocReg
    compileExpr inl pg key
    pg.emit (.sta propReg)
    let lref ← createLRef inl pg target
    pg.emits [.op .ldObjByValue, .sta loadedValue]
    pg.defaultInit loadedValue (compileExpr inl pg init)
    setValue inl pg isDecl target lref
    genProperties inl pg isDecl tail
  | .rest target => do
    let lref ← createLRef inl pg target
    pg.emit (.op .createObjectWithExcludedKeys)
    setValue inl pg true target lref

end

/-! ### Statements -/

/-- The bindings of a loop's scope that `CopyBindings` takes over from the environment around. -/
def copyBindings (pg : PandaGen) (s : Scope) (flag : Variable → Bool) : List Insn :=
  (s.bindings.filter flag).flatMap fun v =>
    match v.lexIdx with
    | some slot => [.ldLexVar ⟨pg.note.env, 1, slot⟩, .stLexVar ⟨pg.note.env, 0, slot⟩]
    | none => []

/-- `LoopEnvScope` with its `LexEnvContext`, around what is compiled in it. -/
def loopEnvScope (pg : PandaGen) (s : Scope) (target : LabelTarget) (flag : Variable → Bool)
    (body : PandaGen → Emit Unit) : Emit Unit := do
  let ctx := pg.withContext (.lexEnv s.needLexEnv target)
  if s.needLexEnv then
    let inner := pg.note.push s
    let (table, _) ← ctx.protect inner inner fun ctx => do
      let lexEnv ← fresh
      ctx.emit (.newLexEnv s.id s.slotIndex)
      let ctx := { ctx with note := inner, envScope := .lexEnv lexEnv }
      ctx.emit (.sta (.lexEnv lexEnv))
      ctx.emits (ctx.copyBindings s flag)
      body ctx
    let catchEnd ← allocLabel inner
    let ctx := { ctx with note := inner }
    ctx.branch catchEnd
    ctx.setLabel table.handler
    ctx.emit .popLexEnv
    pg.emit .throw
    ctx.setLabel catchEnd
    ctx.emit .popLexEnv
  else
    body ctx

/-- `LoopEnvScope(pg, scope, target)`, which enters the scope as well. -/
def loopBody (pg : PandaGen) (s : Scope) (target : LabelTarget) (body : PandaGen → Emit Unit) :
    Emit Unit := do
  let pg := pg.withScope s
  pg.inForeignScope.emits (pg.hoist s)
  pg.loopEnvScope s target (·.perIteration) body

/-- `CopyPetIterationCtx`. -/
def copyPerIterationCtx (pg : PandaGen) (s : Scope) : List Insn :=
  if s.needLexEnv then [.copyLexEnv, .sta pg.envScope] else []

/-- The state in a `for-of` loop. -/
def forOfContext (pg : PandaGen) (id : ℕ) (iterator : Iterator) (breakTarget continueTarget : Label) :
    PandaGen :=
  { pg.withContext (.iterator id iterator (.loop breakTarget continueTarget)) with
    enclosing := id :: pg.enclosing }

/-- Code of the head of a `for-in` loop: the environment of its declarations is still there when the
loop goes back to its start, and not yet there when it ends. -/
def forInHead (pg : PandaGen) (s : Scope) : PandaGen :=
  { pg with tag := { pg.tag with unwinding := pg.tag.unwinding || s.needLexEnv } }

/-- `VariableDeclarator::Compile`. -/
def compileDeclarator (inl : Inline) (pg : PandaGen) (d : Declarator) : Emit Unit := do
  let lref ← createLRef inl pg d.id
  match d.init with
  | some init =>
    compileExpr inl pg init
    setValue inl pg true d.id lref
  | none =>
    if d.kind = .varDecl then Emit.pure () else
    when (d.kind = .letDecl) (pg.emit (.ldConst .undefined))
    setValue inl pg true d.id lref

/-- The declarators of a `VariableDeclaration`. -/
def compileDeclarators (inl : Inline) (pg : PandaGen) : List Declarator → Emit Unit
  | [] => Emit.pure ()
  | d :: ds => do compileDeclarator inl pg d; compileDeclarators inl pg ds

/-- `CheckControlFlowChange` and the walk of a return, with the value held back. -/
def releaseContexts (inl : Inline) (pg : PandaGen) : Emit PandaGen := do
  if pg.checkControlFlowChange then
    let res ← fresh
    pg.emit (.holdResult res)
    let held := pg.withNote { pg.note with kept := (res, []) :: pg.note.kept }
    let (pg', _) ← held.controlFlowChange inl .break none (some res)
    pg'.emit (.ldResult res)
    pg'.emit (.returns (some res) pg.enclosing pg.nest)
    Emit.pure pg'.inForeignScope
  else
    pg.emit (.returns none pg.enclosing pg.nest)
    Emit.pure pg

/-- The value of a return statement or of a field. -/
def valueOrUndefined (inl : Inline) (pg : PandaGen) : Option Expr → Emit Unit
  | some e => compileExpr inl pg e
  | none => pg.emit (.ldConst .undefined)

/-- `ReturnStatement::Compile`. -/
def compileReturn (inl : Inline) (pg : PandaGen) (argument : Option Expr) : Emit Unit := do
  valueOrUndefined inl pg argument
  let pg' ← releaseContexts inl pg
  if argument.isSome then
    pg'.validateClassDirectReturn
    pg'.emits pg'.directReturn
  else
    pg'.emits pg'.implicitReturn

/-- `ControlFlowChangeBreak` or `ControlFlowChangeContinue` and the branch to what they find. -/
def compileJump (inl : Inline) (pg : PandaGen) (cfc : ControlFlowChange) (label : Option String) :
    Emit Unit := do
  let (pg', target) ← pg.controlFlowChange inl cfc label none
  pg'.emit (.jmp target)

/-- Declare a target with the value of the accumulator. -/
def declareValue (inl : Inline) (pg : PandaGen) (target : Pattern) : Emit Unit := do
  let lref ← createLRef inl pg target
  setValue inl pg true target lref

/-- `CatchClause::Compile`, up to its body. -/
def catchClause (inl : Inline) (pg : PandaGen) (head : CatchHead) (body : PandaGen → Emit Unit) :
    Emit Unit :=
  pg.localRegScope head.paramScope.toScope fun pg => do
    forSome head.param (declareValue inl pg)
    pg.localRegScope head.scope.toScope body

/-- The context of a try statement with a finalizer. -/
def finallyContext (pg : PandaGen) (id : ℕ) (finalizer : Stmt) : TryContext where
  id := id
  finallyBlock := some finalizer
  hasFinalizer := true
  scope := pg.scope
  outer := pg.note
  enclosing := pg.enclosing

/-- The state in a try statement with a finalizer. -/
def enterTry (pg : PandaGen) (ctx : TryContext) : PandaGen :=
  { pg.withContext (.try ctx) with
    enclosing := ctx.id :: pg.enclosing
    note := { pg.note with fin := ctx.id :: pg.note.fin } }

/-- `CompileTryCatch` of a try statement with a finalizer. -/
def compileTryCatch (pg : PandaGen) (ctx : TryContext) (block catchCode : PandaGen → Emit Unit) :
    Emit Unit := do
  let id ← fresh
  let inner := pg.withContext (.try { ctx with id := id, hasFinalizer := false })
  let catchEnd ← allocLabel pg.note
  let (table, _) ← inner.protect pg.note pg.note block
  inner.branch catchEnd
  inner.setLabel table.handler
  catchCode inner
  inner.setLabel catchEnd

/-- `CompileFinally`, for a note outside of the try statement. -/
def compileFinally (pg : PandaGen) (ctx : TryContext) (exception : Reg)
    (finallyCode : PandaGen → Emit Unit) : Emit Unit := do
  let label ← allocLabel ctx.outer
  pg.emit (.branchIfRun ctx.id label)
  pg.emit (.startFinalizer ctx.id ctx.outer)
  let pg := pg.inFinalizer ctx
  pg.emit (.setRun ctx.id)
  finallyCode pg
  pg.setLabel label
  pg.emits [.lda exception, .rethrow]

/-- The try statement around its block and its catch clause. -/
def compileTry (pg : PandaGen) (finalizer : Stmt) (block catchCode finallyCode : PandaGen → Emit Unit) :
    Emit Unit := do
  let id ← fresh
  let ctx := pg.finallyContext id finalizer
  let try_ := pg.enterTry ctx
  pg.emit (.enterTry id)
  let catchEnd ← allocLabel try_.note
  let (table, _) ← try_.protect try_.note try_.note fun pg => pg.compileTryCatch ctx block catchCode
  let exception ← allocReg
  try_.emits (storeConst exception .hole)
  try_.branch catchEnd
  try_.setLabel table.handler
  try_.emit (.sta exception)
  try_.setLabel catchEnd
  try_.compileFinally ctx exception finallyCode

def allocLabels (note : Note) : ℕ → Emit (List Label)
  | 0 => Emit.pure []
  | n + 1 => do
    let l ← allocLabel note
    let ls ← allocLabels note n
    Emit.pure (l :: ls)

/-- `JumpIfCase`. -/
def jumpIfCase (inl : Inline) (pg : PandaGen) (l : Label) (test : Expr) : Emit Unit := do
  compileExpr inl pg test
  pg.emit (.op .strictCompare)
  pg.emit (.jfalse l)

/-- `JumpIfCase` for the clauses that have a test. -/
def compileTests (inl : Inline) (pg : PandaGen) : List Label → Cases → Emit Unit
  | l :: ls, .cons test _ cs => do
    forSome test (jumpIfCase inl pg l)
    compileTests inl pg ls cs
  | _, _ => Emit.pure ()

/-- `JumpToDefault`, if the index found is not 0, and `Break` otherwise. -/
def jumpToDefault (pg : PandaGen) (defaultIndex : ℕ) (caseLabels : List Label) (last : Label) :
    Emit Unit :=
  match defaultIndex, caseLabels[defaultIndex]? with
  | _ + 1, some l => pg.branch l
  | _, _ => pg.branch last

mutual

def compileStmt (inl : Inline) (pg : PandaGen) : Stmt → Emit Unit
  | .empty => Emit.pure ()
  | .expression e => compileExpr inl pg e
  | .variableDeclaration declarators => compileDeclarators inl pg declarators
  | .classDeclaration ident definition => do
    compileExpr inl pg definition
    pg.initializeBinding ident
  | .block scope body => pg.localRegScope scope.toScope fun pg => compileStmts inl pg body
  | .ifThen test consequent => do
    let consequentEnd ← allocLabel pg.note
    condition inl pg consequentEnd test
    compileStmt inl pg consequent
    pg.setLabel consequentEnd
  | .ifElse test consequent alternate => do
    let consequentEnd ← allocLabel pg.note
    condition inl pg consequentEnd test
    compileStmt inl pg consequent
    let statementEnd ← allocLabel pg.note
    pg.branch statementEnd
    pg.setLabel consequentEnd
    compileStmt inl pg alternate
    pg.setLabel statementEnd
  | .forUpdate scopes init test update body =>
    pg.localRegScope scopes.init.toScope fun init_ => do
      compileStmt inl init_ init
      init_.loopEnvScope scopes.decl {} (·.loopDecl) fun decl => do
        let note := decl.note.push scopes.loop
        let startLabel ← allocLabel note
        let breakTarget ← allocLabel note
        let continueTarget ← allocLabel note
        decl.loopEnvScope scopes.loop (.loop breakTarget continueTarget) (·.perIteration)
          fun loop => do
            loop.setLabel startLabel
            let inner := loop.atScope (scopes.decl :: pg.scope)
            inner.localRegScope scopes.loop fun inner => do
              forSome test (condition inl inner breakTarget)
              compileStmt inl inner body
              inner.setLabel continueTarget
              inner.emits (inner.copyPerIterationCtx scopes.loop)
            forSome update (compileExpr inl loop.inForeignScope)
            loop.branch startLabel
            loop.setLabel breakTarget
  | .forIn scopes left isDecl right body => do
    let breakTarget ← allocLabel (pg.note.push scopes.decl)
    let continueTarget ← allocLabel pg.note
    let iter ← allocReg
    let propName ← allocReg
    compileExpr inl pg right
    pg.emits [.op .getPropIterator, .sta iter]
    pg.setLabel continueTarget
    pg.emits [.op .getNextPropName, .sta propName, .isUndefined]
    (pg.forInHead scopes.decl).emit (.jtrue breakTarget)
    pg.localRegScope scopes.init.toScope fun init => do
      let lref ← createLRef inl init left
      init.emit (.lda propName)
      setValue inl init isDecl left lref
      init.loopEnvScope scopes.decl {} (·.loopDecl) fun decl => do
        let decl := decl.atScope (scopes.decl :: pg.scope)
        decl.loopBody scopes.loop (.loop breakTarget continueTarget) fun loop =>
          compileStmt inl loop body
        (decl.forInHead scopes.decl).branch continueTarget
        decl.setLabel breakTarget
  | .forOf isAwait scopes left isDecl right body =>
    pg.localRegScope scopes.init.toScope fun init => do
      compileExpr inl init right
      let breakTarget ← allocLabel pg.note
      let continueTarget ← allocLabel pg.note
      let iterator ← init.newIterator (if isAwait then .async else .sync)
      init.setLabel continueTarget
      init.iteratorNext (await inl) iterator
      init.emits iteratorComplete
      init.emit (.jtrue breakTarget)
      let value ← allocReg
      init.emits (iteratorValue ++ [.sta value])
      let lref ← createLRef inl init left
      let id ← fresh
      let forOfCtx := init.forOfContext id iterator breakTarget continueTarget
      let catchEnd ← allocLabel pg.note
      let (table, _) ← forOfCtx.protect pg.note pg.note fun ctx => do
        ctx.emit (.lda value)
        setValue inl ctx isDecl left lref
        ctx.loopEnvScope scopes.decl {} (·.loopDecl) fun decl => do
          let decl := decl.atScope (scopes.decl :: pg.scope)
          decl.loopBody scopes.loop {} fun loop => compileStmt inl loop body
      forOfCtx.branch catchEnd
      forOfCtx.setLabel table.handler
      closeIterator inl true forOfCtx iterator
      forOfCtx.setLabel catchEnd
      init.branch continueTarget
      init.setLabel breakTarget
  | .while scope test body => do
    let breakTarget ← allocLabel pg.note
    let continueTarget ← allocLabel pg.note
    pg.setLabel continueTarget
    condition inl pg breakTarget test
    pg.localRegScope scope.toScope fun pg =>
      compileStmt inl (pg.withContext (.label (.loop breakTarget continueTarget))) body
    pg.branch continueTarget
    pg.setLabel breakTarget
  | .doWhile scope body test => do
    let startLabel ← allocLabel pg.note
    let breakTarget ← allocLabel pg.note
    let continueTarget ← allocLabel pg.note
    pg.setLabel startLabel
    pg.localRegScope scope.toScope fun pg =>
      compileStmt inl (pg.withContext (.label (.loop breakTarget continueTarget))) body
    pg.setLabel continueTarget
    condition inl pg breakTarget test
    pg.branch startLabel
    pg.setLabel breakTarget
  | .switch scope discriminant cases =>
    pg.localRegScope scope.toScope fun pg => do
      let last ← allocLabel pg.note
      let ctx := pg.withContext (.label (.named (some last) .break))
      let caseLabels ← allocLabels pg.note cases.length
      let tag ← allocReg
      compileExpr inl ctx discriminant
      ctx.emit (.sta tag)
      compileTests inl ctx caseLabels cases
      ctx.jumpToDefault cases.defaultIndex caseLabels last
      compileCases inl ctx caseLabels cases
      ctx.setLabel last
  | .labelled ident body => do
    if body.isBlock then
      let l ← allocLabel pg.note
      compileStmt inl (pg.withContext (.label (.named (some l) (.ident ident)))) body
      pg.setLabel l
    else
      compileStmt inl (pg.withContext (.label (.named none (.ident ident)))) body
  | .tryCatch block head body => do
    let id ← fresh
    let ctx := pg.withContext (.try { id, hasFinalizer := true })
    let catchEnd ← allocLabel pg.note
    let (table, _) ← ctx.protect pg.note pg.note fun pg => compileStmt inl pg block
    ctx.branch catchEnd
    ctx.setLabel table.handler
    ctx.catchClause inl head fun pg => compileStmts inl pg body
    ctx.setLabel catchEnd
  | .tryFinally block finalizer =>
    pg.compileTry finalizer (fun pg => compileStmt inl pg block) (fun pg => pg.emit .throw)
      fun pg => compileStmt inl pg finalizer
  | .tryCatchFinally block head body finalizer =>
    pg.compileTry finalizer (fun pg => compileStmt inl pg block)
      (fun pg => pg.catchClause inl head fun pg => compileStmts inl pg body)
      fun pg => compileStmt inl pg finalizer
  | .break label => pg.compileJump inl .break label
  | .continue label => pg.compileJump inl .continue label
  | .return argument => pg.compileReturn inl argument
  | .throw argument => do
    compileExpr inl pg argument
    pg.emit .throw

def compileStmts (inl : Inline) (pg : PandaGen) : Stmts → Emit Unit
  | .nil => Emit.pure ()
  | .cons s ss => do
    compileStmt inl pg s
    compileStmts inl pg ss

/-- `SetCaseTarget` and `CompileCaseStatements` for each clause. -/
def compileCases (inl : Inline) (pg : PandaGen) : List Label → Cases → Emit Unit
  | l :: ls, .cons _ consequent cs => do
    pg.setLabel l
    compileStmts inl pg consequent
    compileCases inl pg ls cs
  | _, _ => Emit.pure ()

end

/-- The compiler of statements for finalizers that are nested at most so deep. -/
def compileNested : ℕ → Inline
  | 0 => fun pg _ => pg.emit .outOfFuel
  | k + 1 => compileStmt (compileNested k)

/-! ### Functions -/

/-- `CompileSourceBlock`, or the expression of an arrow function. -/
def compileBody (inl : Inline) (pg : PandaGen) : Expr ⊕ Stmts → Emit Unit
  | .inl e => do
    compileExpr inl pg e
    pg.emits pg.directReturn
  | .inr body => do
    compileStmts inl pg body
    if body.hasReturn then Emit.pure () else pg.emits pg.implicitReturn

/-- One parameter of `CompileFunctionParameterDeclaration`. -/
def compileParam (inl : Inline) (pg : PandaGen) (paramReg : Reg) (param : FormalParam) :
    Emit Unit := do
  let ref ← createLRef inl pg param.target
  match param.init with
  | some init =>
    pg.emit (.lda paramReg)
    let nonDefaultLabel ← allocLabel pg.note
    if param.target.isDestructuring then
      let loadParamLabel ← allocLabel pg.note
      pg.emit .isUndefined
      pg.emit (.jfalse loadParamLabel)
      compileExpr inl pg init
      pg.branch nonDefaultLabel
      pg.setLabel loadParamLabel
      pg.emit (.lda paramReg)
      pg.setLabel nonDefaultLabel
      setValue inl pg true param.target ref
    else
      pg.emit .isUndefined
      pg.emit (.jfalse nonDefaultLabel)
      compileExpr inl pg init
      setValue inl pg true param.target ref
      pg.setLabel nonDefaultLabel
  | none =>
    if param.isRest then
      pg.emit (.op .copyRestArgs)
      setValue inl pg true param.target ref
    else if param.target.isDestructuring then
      pg.emit (.lda paramReg)
      setValue inl pg true param.target ref

/-- `CompileFunctionParameterDeclaration`, from a parameter's index on. -/
def compileParams (inl : Inline) (pg : PandaGen) : ℕ → List FormalParam → Emit Unit
  | _, [] => Emit.pure ()
  | index, p :: ps => do
    compileParam inl pg (.var (3 + index)) p
    compileParams inl pg (index + 1) ps

/-- `CompileInstanceFields`. -/
def compileInstanceFields (inl : Inline) (pg : PandaGen) : List (Option Expr) → Emit Unit
  | [] => Emit.pure ()
  | value :: fields => do
    valueOrUndefined inl pg value
    pg.emit (.op .stObjByName)
    compileInstanceFields inl pg fields

/-- What `Prepare` emits before `TryBegin`. -/
def prepare (pg : PandaGen) (funcObj : Reg) : List Insn :=
  match pg.builder with
  | .normal => []
  | .async => [.op .asyncFunctionEnter, .sta funcObj]
  | .generator => [.op .createGeneratorObj, .sta funcObj, .op .suspendGenerator]
  | .asyncGenerator => [.op .createAsyncGeneratorObj, .sta funcObj, .op .suspendGenerator]

/-- What `CleanUp` emits for the handler. -/
def cleanUp (pg : PandaGen) : List Insn :=
  match pg.builder with
  | .normal => []
  | .async => [.op .asyncFunctionReject, .return]
  | .generator => [.op .generatorComplete, .throw]
  | .asyncGenerator => [.op .asyncGeneratorReject, .return]

/-- What of `CompileFunction` comes before `FunctionEnter`. -/
def compileHead (inl : Inline) (pg : PandaGen) (f : ScriptFunction) : Emit Unit := do
  when f.isConstructor do
    let thisReg ← allocReg
    pg.emits (pg.getThis ++ [.sta thisReg])
    compileInstanceFields inl pg f.instanceFields
  let params := pg.inForeignScope.atScope (f.paramScope.toScope :: f.outer)
  forSome f.nameVar fun name => do
    pg.emits (pg.loadVar "=f" false)
    params.initializeBinding name
  compileParams inl params 0 f.params

/-- `CompileFunction` and `CompileFunctionOrProgram`. -/
def compileFunctionOrProgram (inl : Inline) (pg : PandaGen) (f : ScriptFunction) : Emit Unit := do
  when f.usesArguments do
    pg.emit (.op .getUnmappedArgs)
    pg.initializeBinding "arguments"
  pg.emits (pg.hoist f.scope)
  if f.isProgram then
    compileBody inl pg f.body
  else if f.kind = .normal then
    compileHead inl pg f
    compileBody inl pg f.body
  else
    let id ← fresh
    let ctx := pg.withContext (.try { id })
    let funcObj ← allocReg
    compileHead inl ctx f
    ctx.emits (ctx.prepare funcObj)
    let (table, _) ← ctx.protect pg.note pg.note fun pg => compileBody inl pg f.body
    ctx.setLabel table.handler
    ctx.emits ctx.cleanUp

/-- `CopyFunctionArguments`: the home of a parameter gets its argument. -/
def copyFunctionArguments (pg : PandaGen) : ℕ → List Variable → List Insn
  | _, [] => []
  | i, v :: vs =>
    (match v.lexIdx with
      | some slot => [.lda (.argument i), .stLexVar (pg.access 0 slot)]
      | none => [.mov (.var v.vreg) (.argument i)]) ++ pg.copyFunctionArguments (i + 1) vs

/-- The state that a function is compiled in. -/
def init (f : ScriptFunction) : PandaGen where
  scope := f.scope :: f.paramScope.toScope :: f.outer
  builder := f.kind
  isConstructor := f.isConstructor
  note := { env := Scope.envs f.outer }

/-- `Function::Compile`: what is emitted last, but put in front, comes first. -/
def compileFunction (f : ScriptFunction) : Emit Unit := do
  let pg := init f
  pg.emit (if f.scope.needLexEnv then .newLexEnv f.scope.id f.scope.slotIndex else .ldLexEnv)
  let pg := { pg with note := pg.note.push f.scope }
  pg.emit (.sta pg.envScope)
  pg.emits (pg.copyFunctionArguments 0 f.paramScope.bindings)
  compileFunctionOrProgram (compileNested f.weight) pg f

/-- The code and the catch tables of a function, before `SortCatchTables`. -/
def output (f : ScriptFunction) : Out := (compileFunction f 1).2.2

end PandaGen

end ArkTs2abc.Es2panda
