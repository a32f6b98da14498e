import ArkTs2abc.Ts2panda.Declarations.Recorder

/-!
# The early errors on duplicate declarations

What ECMAScript rejects a program for. The static semantics gives each list of statements its
lexically declared names and its var declared names: of the latter those of all statements
inside, up to the functions. The functions at the top of a script or of a function body are
declared like variables, those of a block, of a switch or of a module lexically.

## Main definitions

* `varDeclaredNames` — the variables of the scopes below a scope.
* `EarlyError` — what is wrong at one scope.
* `Program.Rejected` — an error at some scope.
-/

namespace ArkTs2abc.Ts2panda.Declarations

open Tree

/-- The names of the variable statements that stand in a scope itself. -/
def ScopeNode.varNames : ScopeNode → List String
  | .statements _ declarations =>
    (declarations.filter (·.kind = .varDeclaration)).map (·.name)
  | _ => []

def varDeclaredNames (below : Forest ScopeNode) : List String :=
  below.gather (·.isFunctionScope) ScopeNode.varNames

/-- A script or a function body, at the top level of which a function is like a variable. -/
def StatementScope.functionsAreVars : StatementScope → Bool
  | .global | .functionBody => true
  | _ => false

def StatementScope.declaresLexically (scope : StatementScope) : DeclarationKind → Bool
  | .letDeclaration | .constDeclaration | .classDeclaration => true
  | .functionDeclaration => !scope.functionsAreVars
  | .varDeclaration | .classExpression => false

def StatementScope.declaresVar (scope : StatementScope) : DeclarationKind → Bool
  | .varDeclaration => true
  | .functionDeclaration => scope.functionsAreVars
  | _ => false

/-- Outside of strict mode a block may declare a function twice. -/
def StatementScope.allowsTwice (scope : StatementScope) (strict : Bool)
    (k₁ k₂ : DeclarationKind) : Bool :=
  scope ≠ .module && !strict && k₁ = .functionDeclaration && k₂ = .functionDeclaration

/-- The code of a scope is strict: that of a module and of a class always, and that of a
function with the directive including its parameters. -/
def isStrictCode (P : Program) (s : Site ScopeNode) : Bool :=
  P.globalStrict || P.isModule || (s.node :: s.above).any fun
    | .function f => f.useStrict
    | .classLike _ => true
    | _ => false

namespace FunctionLike

def isSimpleParameterList (f : FunctionLike) : Bool :=
  !f.initializerOrRest && f.parameters.all (!·.inPattern)

/-- The parameters of methods and arrow functions differ, in sloppy mode too. -/
def hasUniqueParameters (f : FunctionLike) : Bool :=
  f.kind = .methodDeclaration || f.kind = .accessor || f.kind = .arrowFunction ||
    !f.isSimpleParameterList

end FunctionLike

/-- The declarations of the body of a function. -/
def bodyDeclarations (below : Forest ScopeNode) : List Declaration :=
  match below.roots.find? (·.isFunctionBody) with
  | some (.statements _ declarations) => declarations
  | _ => []

/-- What is wrong at a scope. -/
inductive EarlyError (P : Program) (s : Site ScopeNode) : Prop where
  /-- Two lexical declarations of a name. -/
  | lexicalTwice {scope : StatementScope} {declarations : List Declaration} {d e : Declaration}
      (node : s.node = .statements scope declarations) (pair : [d, e].Sublist declarations)
      (name : d.name = e.name)
      (lexical : scope.declaresLexically d.kind ∧ scope.declaresLexically e.kind)
      (allowed : ¬ scope.allowsTwice (isStrictCode P s) d.kind e.kind)
  /-- A lexical declaration and a variable of the same list of statements. -/
  | lexicalVar {scope : StatementScope} {declarations : List Declaration} {d e : Declaration}
      (node : s.node = .statements scope declarations)
      (pair : [d, e].Sublist declarations ∨ [e, d].Sublist declarations) (name : d.name = e.name)
      (lexical : scope.declaresLexically d.kind) (var : scope.declaresVar e.kind)
  /-- A lexical declaration and a variable in one of the scopes inside. -/
  | lexicalNestedVar {scope : StatementScope} {declarations : List Declaration} {d : Declaration}
      (node : s.node = .statements scope declarations) (mem : d ∈ declarations)
      (lexical : scope.declaresLexically d.kind) (var : d.name ∈ varDeclaredNames s.below)
  | parameterTwice {f : FunctionLike} (node : s.node = .function f)
      (unique : isStrictCode P s ∨ f.hasUniqueParameters) (twice : ¬ f.getParameterNames.Nodup)
  | parameterLexical {f : FunctionLike} {d : Declaration} (node : s.node = .function f)
      (mem : d ∈ bodyDeclarations s.below)
      (lexical : StatementScope.functionBody.declaresLexically d.kind)
      (parameter : d.name ∈ f.getParameterNames)
  | catchParameterTwice {c : CatchClause} {declarations : List Declaration}
      (node : s.node = .catchClause c)
      (block : .statements .catchBlock declarations ∈ s.below.roots) (twice : ¬ c.names.Nodup)
  | catchParameterLexical {c : CatchClause} {declarations : List Declaration} {d : Declaration}
      (node : s.node = .catchClause c)
      (block : .statements .catchBlock declarations ∈ s.below.roots) (mem : d ∈ declarations)
      (lexical : StatementScope.catchBlock.declaresLexically d.kind) (parameter : d.name ∈ c.names)
  /-- A variable may have the name of a catch parameter that is no pattern. -/
  | catchParameterVar {c : CatchClause} {name : String} (node : s.node = .catchClause c)
      (pattern : c.isPattern) (parameter : name ∈ c.names)
      (var : name ∈ varDeclaredNames s.below)
  /-- The global object has the name, and it cannot be configured. -/
  | restrictedGlobal {declarations : List Declaration} {d : Declaration}
      (node : s.node = .statements .global declarations) (mem : d ∈ declarations)
      (kind : d.kind ≠ .varDeclaration ∧ d.kind ≠ .classExpression)
      (restricted : d.name ∈ ["NaN", "undefined", "Infinity"])

def Program.Rejected (P : Program) : Prop := ∃ s ∈ P.sites, EarlyError P s

end ArkTs2abc.Ts2panda.Declarations
