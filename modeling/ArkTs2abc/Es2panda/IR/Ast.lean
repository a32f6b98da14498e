import Mathlib.Data.List.Basic

/-!
# Bound syntax trees

The statements and expressions of a function body as the compiler gets them from
the binder: every scope carries its bindings, and a binding carries what the
binder decided about it. Functions are entries of a table and refer to each other
by index.

An expression that evaluates its operands from left to right and then executes an
instruction that may throw (a call, a member access, an object literal, `new`, a
template, ...) is an `Expr.operation`.

## Main definitions

* `Variable`, `Scope` — the binder's output.
* `Scope.find`, `Scope.envs` — name lookup and the environments on a scope chain.
* `Expr`, `Pattern`, `Stmt`, `ScriptFunction` — the tree.
* `Stmt.weight` — the size of a statement.
-/

namespace ArkTs2abc.Es2panda

inductive DeclType where
  | varDecl | letDecl | constDecl | functionDecl | parameterDecl
  deriving DecidableEq, Repr

def DeclType.isLetOrConst : DeclType → Bool
  | .letDecl | .constDecl => true
  | _ => false

inductive VariableKind where
  | local | global | module
  deriving DecidableEq, Repr

/-- What `Hoisting::Hoist` does with a binding. -/
inductive Hoist where
  | none
  | var
  | function (index : ℕ)
  deriving DecidableEq, Repr

structure Variable where
  name : String
  declType : DeclType
  kind : VariableKind := .local
  /-- The register that `BindVReg` gives it. -/
  vreg : ℕ
  /-- Its slot, once it is `LexicalBound`. -/
  lexIdx : Option ℕ := none
  hoist : Hoist := .none
  /-- `PER_ITERATION`: copied into each iteration's environment of a loop. -/
  perIteration : Bool := false
  /-- `LOOP_DECL`: copied into the environment of a loop's header. -/
  loopDecl : Bool := false
  deriving DecidableEq, Repr

/-- In the order of the enumeration: what comes after `local` is a variable scope. -/
inductive ScopeType where
  | param | catchParam | functionParam | catch | local | loop | loopDecl | function | global | module
  deriving DecidableEq, Repr

def ScopeType.isVariableScope : ScopeType → Bool
  | .loop | .loopDecl | .function | .global | .module => true
  | _ => false

structure Scope where
  id : ℕ
  type : ScopeType
  /-- `LexicalSlots`. -/
  slotIndex : ℕ := 0
  bindings : List Variable := []
  deriving DecidableEq, Repr

namespace Scope

/-- `IsVariableScope() && NeedLexEnv()`. -/
def needLexEnv (s : Scope) : Bool := s.type.isVariableScope && s.slotIndex != 0

def findLocal (s : Scope) (name : String) : Option Variable :=
  s.bindings.find? (·.name = name)

/-- `Scope::Find`: the level in environments, and the variable. -/
def find (name : String) : List Scope → Option (ℕ × Variable)
  | [] => none
  | s :: parents =>
    match s.findLocal name with
    | some v => some (0, v)
    | none => (find name parents).map fun r => (if s.needLexEnv then r.1 + 1 else r.1, r.2)

/-- The scopes of a chain that have an environment, innermost first. -/
def envs (chain : List Scope) : List ℕ :=
  (chain.filter needLexEnv).map Scope.id

theorem envs_cons (s : Scope) (chain : List Scope) :
    envs (s :: chain) = if s.needLexEnv then s.id :: envs chain else envs chain := by
  unfold envs
  rw [List.filter_cons]
  split <;> rfl

end Scope

/-- A scope that is no variable scope. -/
structure LocalScope extends Scope where
  isVariableScope_eq : type.isVariableScope = false := by rfl

theorem LocalScope.needLexEnv_eq (s : LocalScope) : s.toScope.needLexEnv = false := by
  simp [Scope.needLexEnv, s.isVariableScope_eq]

mutual

inductive Expr where
  | literal
  | ident (name : String) (isTdz : Bool)
  | operation (operands : Exprs)
  | unary (argument : Expr)
  | binary (left right : Expr)
  | logical (isAnd : Bool) (left right : Expr)
  | conditional (test : Test) (consequent alternate : Expr)
  | assign (left : Pattern) (right : Expr)
  | compoundAssign (left : Pattern) (right : Expr)
  | update (argument : Pattern) (isPrefixForm : Bool)
  | function (index : ℕ)
  | await (argument : Expr)
  | yield (argument : Expr)
  | yieldStar (argument : Expr)
  | classDefinition (scope : LocalScope) (ident : Option String) (superClass : Expr) (members : Exprs)

inductive Exprs where
  | nil
  | cons (head : Expr) (tail : Exprs)

/-- The expression of a condition, by the forms that `Condition::Compile` tells apart. -/
inductive Test where
  | comparison (left right : Expr)
  | and (left right : Expr)
  | or (left right : Expr)
  | not (argument : Expr)
  | other (e : Expr)

/-- What can be assigned to. -/
inductive Pattern where
  | ident (name : String) (isTdz : Bool)
  | member (object key : Expr)
  | array (elements : Elements)
  | object (properties : Properties)

inductive Elements where
  | nil
  | omitted (tail : Elements)
  | element (target : Pattern) (tail : Elements)
  | elementInit (target : Pattern) (init : Expr) (tail : Elements)
  | rest (target : Pattern)

inductive Properties where
  | nil
  | property (key : Expr) (target : Pattern) (tail : Properties)
  | propertyInit (key : Expr) (target : Pattern) (init : Expr) (tail : Properties)
  | rest (target : Pattern)

end

def Elements.isEmpty : Elements → Bool
  | .nil => true
  | _ => false

/-- `properties.empty() || properties.back()->IsRestElement()`. -/
def Properties.emptyOrRest : Properties → Bool
  | .nil | .rest _ => true
  | .property _ _ tail | .propertyInit _ _ _ tail =>
    match tail with
    | .nil => false
    | tail => tail.emptyOrRest

def Pattern.isDestructuring : Pattern → Bool
  | .array _ | .object _ => true
  | _ => false

/-- A declarator of a `var`, `let` or `const` declaration. -/
structure Declarator where
  kind : DeclType
  id : Pattern
  init : Option Expr

/-- A catch clause: the scope of its parameter, the parameter, the scope of its body. -/
structure CatchHead where
  paramScope : LocalScope
  param : Option Pattern
  scope : LocalScope

/-- The scopes of a loop with a header: `InitScope()`, the scope of the header and that of the
body. -/
structure LoopScopes where
  init : LocalScope
  decl : Scope
  loop : Scope

mutual

inductive Stmt where
  /-- Also a function declaration, which is hoisted. -/
  | empty
  | expression (e : Expr)
  | variableDeclaration (declarators : List Declarator)
  | classDeclaration (ident : String) (definition : Expr)
  | block (scope : LocalScope) (body : Stmts)
  | ifThen (test : Test) (consequent : Stmt)
  | ifElse (test : Test) (consequent alternate : Stmt)
  | forUpdate (scopes : LoopScopes) (init : Stmt) (test : Option Test) (update : Option Expr)
      (body : Stmt)
  | forIn (scopes : LoopScopes) (left : Pattern) (isDecl : Bool) (right : Expr) (body : Stmt)
  | forOf (isAwait : Bool) (scopes : LoopScopes) (left : Pattern) (isDecl : Bool) (right : Expr)
      (body : Stmt)
  | while (scope : LocalScope) (test : Test) (body : Stmt)
  | doWhile (scope : LocalScope) (body : Stmt) (test : Test)
  | switch (scope : LocalScope) (discriminant : Expr) (cases : Cases)
  | labelled (ident : String) (body : Stmt)
  | tryCatch (block : Stmt) (head : CatchHead) (body : Stmts)
  | tryFinally (block finalizer : Stmt)
  | tryCatchFinally (block : Stmt) (head : CatchHead) (body : Stmts) (finalizer : Stmt)
  | break (label : Option String)
  | continue (label : Option String)
  | return (argument : Option Expr)
  | throw (argument : Expr)

inductive Stmts where
  | nil
  | cons (head : Stmt) (tail : Stmts)

/-- The clauses of a switch; the default clause has no test. -/
inductive Cases where
  | nil
  | cons (test : Option Expr) (consequent : Stmts) (tail : Cases)

end

def Stmt.isBlock : Stmt → Bool
  | .block .. => true
  | _ => false

def Stmt.isReturn : Stmt → Bool
  | .return _ => true
  | _ => false

/-- `hasReturn` of `CompileSourceBlock`: one of the statements themselves is a return. -/
def Stmts.hasReturn : Stmts → Bool
  | .nil => false
  | .cons s ss => s.isReturn || ss.hasReturn

def Cases.length : Cases → ℕ
  | .nil => 0
  | .cons _ _ cs => cs.length + 1

/-- The last clause without a test, or the index given. -/
def Cases.lastDefault : Cases → ℕ → ℕ → ℕ
  | .nil, _, found => found
  | .cons none _ cs, i, _ => cs.lastDefault (i + 1) i
  | .cons (some _) _ cs, i, found => cs.lastDefault (i + 1) found

/-- `defaultIndex` of `SwitchStatement::Compile`. -/
def Cases.defaultIndex (cs : Cases) : ℕ := cs.lastDefault 0 0

mutual

/-- The number of finalizers in a statement, counted as often as they are nested. -/
def Stmt.weight : Stmt → ℕ
  | .empty | .expression _ | .variableDeclaration _ | .classDeclaration .. => 0
  | .block _ body => body.weight
  | .ifThen _ s => s.weight
  | .ifElse _ s t => s.weight + t.weight
  | .forUpdate _ init _ _ body => init.weight + body.weight
  | .forIn _ _ _ _ body => body.weight
  | .forOf _ _ _ _ _ body => body.weight
  | .while _ _ body => body.weight
  | .doWhile _ body _ => body.weight
  | .switch _ _ cases => cases.weight
  | .labelled _ body => body.weight
  | .tryCatch block _ body => block.weight + body.weight
  | .tryFinally block finalizer => block.weight + finalizer.weight + 1
  | .tryCatchFinally block _ body finalizer =>
    block.weight + body.weight + finalizer.weight + 1
  | .break _ | .continue _ | .return _ | .throw _ => 0

def Stmts.weight : Stmts → ℕ
  | .nil => 0
  | .cons s ss => s.weight + ss.weight

def Cases.weight : Cases → ℕ
  | .nil => 0
  | .cons _ body cs => body.weight + cs.weight

end

/-- The four builders of a function body. -/
inductive BuilderType where
  | normal | generator | async | asyncGenerator
  deriving DecidableEq, Repr

/-- A formal parameter: its target, its initialiser, and whether it is a rest element. -/
structure FormalParam where
  target : Pattern
  init : Option Expr := none
  isRest : Bool := false

/-- A function, or the program itself. -/
structure ScriptFunction where
  kind : BuilderType := .normal
  isProgram : Bool := false
  isConstructor : Bool := false
  /-- `NameVar`: the binding of the function's own name, in the parameter scope. -/
  nameVar : Option String := none
  /-- The scope of the body, which also has the parameters. -/
  scope : Scope
  paramScope : LocalScope
  params : List FormalParam := []
  /-- `USE_ARGS`. -/
  usesArguments : Bool := false
  /-- The initialisers of the fields that a constructor sets. -/
  instanceFields : List (Option Expr) := []
  /-- An arrow function's expression, or the statements. -/
  body : Expr ⊕ Stmts
  /-- The scopes around the function. -/
  outer : List Scope := []

def ScriptFunction.weight (f : ScriptFunction) : ℕ :=
  match f.body with
  | .inl _ => 0
  | .inr body => body.weight

end ArkTs2abc.Es2panda
