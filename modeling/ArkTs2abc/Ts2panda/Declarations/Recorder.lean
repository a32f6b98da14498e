import ArkTs2abc.Tree.Forest

/-!
# Scopes and the declarations the recorder puts into them

A program as the tree of its scopes, each with the declarations that stand in it in source
order, and the declarations that the recorder keeps for each scope.

## Main definitions

* `Declaration`, `FunctionLike`, `CatchClause`, `ScopeNode` — what stands in the source.
* `Program` — a script or a module.
* `Decl`, `ScopeNode.getDecls` — what the recorder keeps.
-/

namespace ArkTs2abc.Ts2panda.Declarations

open Tree

/-! ## The source -/

inductive DeclarationKind where
  | varDeclaration
  | letDeclaration
  | constDeclaration
  | classDeclaration
  /-- A class expression with a name. -/
  | classExpression
  | functionDeclaration
  deriving DecidableEq, Repr

structure Declaration where
  kind : DeclarationKind
  name : String
  /-- It has the modifier `export`. -/
  exported : Bool
  deriving DecidableEq, Repr

inductive FunctionKind where
  | functionDeclaration
  | functionExpression
  | methodDeclaration
  /-- A constructor, a getter or a setter. -/
  | accessor
  | arrowFunction
  deriving DecidableEq, Repr

structure Parameter where
  name : String
  /-- It is an element of a binding pattern. -/
  inPattern : Bool
  deriving DecidableEq, Repr

/-- What a variable declaration is part of: a declaration list, or a catch clause. -/
inductive VariableDeclarationParent where
  | varList
  | letList
  | constList
  | catchClause
  deriving DecidableEq, Repr

structure FunctionLike where
  kind : FunctionKind
  /-- Its name if that is an identifier. -/
  name : Option String
  parameters : List Parameter
  /-- Some parameter has an initialiser or is a rest parameter. -/
  initializerOrRest : Bool
  /-- Its body starts with the directive `"use strict"`. -/
  useStrict : Bool
  /-- The nearest variable declaration that the function stands in, at any distance. -/
  variableDeclaration : Option VariableDeclarationParent
  /-- The class expressions outside of its body block, by their names. -/
  classExpressions : List String
  deriving DecidableEq, Repr

structure CatchClause where
  /-- The parameter is a binding pattern. -/
  isPattern : Bool
  names : List String
  classExpressions : List String
  deriving DecidableEq, Repr

/-- The scopes whose declarations are those of a list of statements. -/
inductive StatementScope where
  | global
  | module
  | functionBody
  | block
  | switchStatement
  /-- The block of a catch clause. -/
  | catchBlock
  /-- A loop: the declarations of its head, and of a body that is no block. -/
  | loop
  deriving DecidableEq, Repr

inductive ScopeNode where
  | statements (scope : StatementScope) (declarations : List Declaration)
  | function (f : FunctionLike)
  | catchClause (c : CatchClause)
  | classLike (classExpressions : List String)
  deriving DecidableEq, Repr

structure Program where
  isModule : Bool
  /-- The source file is in strict mode as a whole. -/
  globalStrict : Bool
  declarations : List Declaration
  /-- The scopes of the program below its outermost scope. -/
  scopes : Forest ScopeNode
  deriving DecidableEq, Repr

def Program.root (P : Program) : ScopeNode :=
  .statements (if P.isModule then .module else .global) P.declarations

/-- The scopes of the program in the order in which the recorder meets them. -/
def Program.sites (P : Program) : List (Site ScopeNode) :=
  (Forest.cons P.root P.scopes .nil).sites []

/-! ## The recorder -/

inductive DeclClass where
  | varDecl
  | letDecl
  | constDecl
  | funcDecl
  | classDecl
  | catchParameter
  deriving DecidableEq, Repr

inductive NodeKind where
  | identifier
  | functionDeclaration
  | functionExpression
  | methodDeclaration
  | classDeclaration
  | classExpression
  deriving DecidableEq, Repr

structure Decl where
  instanceOf : DeclClass
  name : String
  node : NodeKind
  exported : Bool
  deriving DecidableEq, Repr

def Declaration.declClass (d : Declaration) : DeclClass :=
  match d.kind with
  | .varDeclaration => .varDecl
  | .letDeclaration => .letDecl
  | .constDeclaration => .constDecl
  | .classDeclaration | .classExpression => .classDecl
  | .functionDeclaration => .funcDecl

def Declaration.node (d : Declaration) : NodeKind :=
  match d.kind with
  | .varDeclaration | .letDeclaration | .constDeclaration => .identifier
  | .classDeclaration => .classDeclaration
  | .classExpression => .classExpression
  | .functionDeclaration => .functionDeclaration

def Declaration.record (d : Declaration) : Decl := ⟨d.declClass, d.name, d.node, d.exported⟩

/-- `recordFuncDecl` adds a function declaration to the scope that it stands in, unless that is
the body block of a function. -/
def StatementScope.need2AddDecls (scope : StatementScope) (d : Declaration) : Bool :=
  !(scope = .functionBody && d.kind = .functionDeclaration)

def recordClassExpression (name : String) : Decl := ⟨.classDecl, name, .classExpression, false⟩

/-- `addVariableDeclToScope` for a name that belongs to a variable declaration. -/
def VariableDeclarationParent.addVariableDecl (p : VariableDeclarationParent) (name : String) :
    Decl :=
  match p with
  | .varList => ⟨.varDecl, name, .identifier, false⟩
  | .letList => ⟨.letDecl, name, .identifier, false⟩
  | .constList => ⟨.constDecl, name, .identifier, false⟩
  | .catchClause => ⟨.catchParameter, name, .identifier, false⟩

/-- `getParametersOfFunction` by the names. -/
def FunctionLike.getParameterNames (f : FunctionLike) : List String :=
  f.parameters.map (·.name)

def FunctionLike.patternNames (f : FunctionLike) : List String :=
  (f.parameters.filter (·.inPattern)).map (·.name)

/-- `recordOtherFunc`: the name of a function expression or method is declared inside. -/
def FunctionLike.recordOtherFunc (f : FunctionLike) : List Decl :=
  match f.kind, f.name with
  | .functionExpression, some name => [⟨.funcDecl, name, .functionExpression, false⟩]
  | .methodDeclaration, some name => [⟨.funcDecl, name, .methodDeclaration, false⟩]
  | _, _ => []

/-- `recordVariableDecl` for the parameters. `getDeclarationNodeOfId` goes up from an element of
a pattern to the nearest variable declaration, which for the pattern of a parameter is the one
that the function stands in. -/
def FunctionLike.recordPatternParameters (f : FunctionLike) : List Decl :=
  match f.variableDeclaration with
  | some p => f.patternNames.map p.addVariableDecl
  | none => []

def ScopeNode.getDecls : ScopeNode → List Decl
  | .statements scope declarations =>
    (declarations.filter scope.need2AddDecls).map Declaration.record
  | .function f =>
    f.recordOtherFunc ++ f.recordPatternParameters ++ f.classExpressions.map recordClassExpression
  | .catchClause c =>
    c.names.map VariableDeclarationParent.catchClause.addVariableDecl ++
      c.classExpressions.map recordClassExpression
  | .classLike classExpressions => classExpressions.map recordClassExpression

namespace ScopeNode

def isFunctionScope : ScopeNode → Bool
  | .function _ => true
  | _ => false

def isGlobalScope : ScopeNode → Bool
  | .statements .global _ => true
  | _ => false

def isModuleScope : ScopeNode → Bool
  | .statements .module _ => true
  | _ => false

def isLocalScope : ScopeNode → Bool
  | .statements .global _ | .statements .module _ | .function _ => false
  | _ => true

def isFunctionBody : ScopeNode → Bool
  | .statements .functionBody _ => true
  | _ => false

def isCatchBlock : ScopeNode → Bool
  | .statements .catchBlock _ => true
  | _ => false

end ScopeNode

end ArkTs2abc.Ts2panda.Declarations
