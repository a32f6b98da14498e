import ArkTs2abc.Ts2panda.Declarations.EarlyErrors
import ArkTs2abc.Ts2panda.Declarations.SyntaxChecker
import Mathlib.Data.Fintype.OfMap

/-!
# The conflicts that are checked, overlooked and invented

The conflicts of a program come in three groups: those that the rules and the check share, those
that only the rules have, and those that only the check has. Each is described by the kinds of
its two declarations, by which of them comes first, and by where they stand.

## Main definitions

* `Shared`, `Overlooked`, `Invented` — a conflict of each group at a scope.

## Main results

* `rejected_iff` — the rules reject a program for a shared or an overlooked conflict.
-/

namespace ArkTs2abc.Ts2panda.Declarations

open Tree

/-! ## Two declarations of one scope -/

instance : Fintype DeclarationKind :=
  .ofList [.varDeclaration, .letDeclaration, .constDeclaration, .classDeclaration, .classExpression,
    .functionDeclaration] fun k => by cases k <;> simp

instance : Fintype StatementScope :=
  .ofList [.global, .module, .functionBody, .block, .switchStatement, .catchBlock, .loop]
    fun scope => by cases scope <;> simp

namespace DeclarationKind

def isLetOrConst : DeclarationKind → Bool
  | letDeclaration | constDeclaration => true
  | _ => false

/-- A `let`, `const` or class declaration. -/
def isLexical : DeclarationKind → Bool
  | letDeclaration | constDeclaration | classDeclaration => true
  | _ => false

end DeclarationKind

namespace StatementScope

/-- A scope inside a function or script that is not the top level of one. -/
def isNested : StatementScope → Bool
  | .global | .module | .functionBody => false
  | _ => true

/-- The scope is one where the check compares function declarations. -/
def comparesFunctions (scope : StatementScope) (strict : Bool) : Bool :=
  scope = .module || scope.isNested && strict

open DeclarationKind in
/-- The check and the rules let the first declaration conflict with the second. -/
def shares (scope : StatementScope) (strict : Bool) (k₁ k₂ : DeclarationKind) : Bool :=
  k₁ ≠ .classExpression && k₂ ≠ .classExpression &&
      !(scope = .functionBody && (k₁ = .functionDeclaration || k₂ = .functionDeclaration)) &&
      (k₁.isLexical || k₂.isLetOrConst) ||
    scope.comparesFunctions strict &&
      (k₁ = .functionDeclaration &&
          (k₂ = .functionDeclaration || k₂ = .varDeclaration || k₂ = .classDeclaration) ||
        k₁ = .varDeclaration && k₂ = .functionDeclaration)

open DeclarationKind in
/-- Only the rules let the first declaration conflict with the second: a class after a variable
or a function, a function of a function body, a function of a block in sloppy mode or in what
the check takes for that. -/
def overlooks (scope : StatementScope) (strictCode strict : Bool) (k₁ k₂ : DeclarationKind) :
    Bool :=
  k₂ = .classDeclaration && (k₁ = .varDeclaration ||
      k₁ = .functionDeclaration && !scope.comparesFunctions strict) ||
    scope = .functionBody && (k₁ = .functionDeclaration && k₂.isLexical ||
      k₂ = .functionDeclaration && k₁.isLexical) ||
    scope.isNested && !strict && (k₁ = .functionDeclaration && k₂ = .varDeclaration ||
      k₁ = .varDeclaration && k₂ = .functionDeclaration ||
      strictCode && k₁ = .functionDeclaration && k₂ = .functionDeclaration)

/-- Only the check lets the declarations conflict: a function and the name of a class
expression. -/
def invents (scope : StatementScope) (strict : Bool) (k₁ k₂ : DeclarationKind) : Bool :=
  scope.comparesFunctions strict && (k₁ = .functionDeclaration && k₂ = .classExpression ||
    k₁ = .classExpression && k₂ = .functionDeclaration)

end StatementScope

theorem hasDuplicateEntryInScope_record_iff (strict : Bool) (scope : StatementScope)
    (declarations : List Declaration) (d e : Declaration) :
    (scope.need2AddDecls d ∧ scope.need2AddDecls e ∧
        hasDuplicateEntryInScope strict (.statements scope declarations) d.record e.record) ↔
      d.name = e.name ∧ (scope.shares strict d.kind e.kind ∨ scope.invents strict d.kind e.kind) := by
  obtain ⟨k₁, n₁, x₁⟩ := d
  obtain ⟨k₂, n₂, x₂⟩ := e
  by_cases name : n₁ = n₂
  · subst name
    have table : ∀ (strict : Bool) (scope : StatementScope) (k₁ k₂ : DeclarationKind),
        (scope.need2AddDecls ⟨k₁, "", false⟩ ∧ scope.need2AddDecls ⟨k₂, "", false⟩ ∧
          hasDuplicateEntryInScope strict (.statements scope []) (Declaration.record ⟨k₁, "", false⟩)
            (Declaration.record ⟨k₂, "", false⟩)) ↔
          scope.shares strict k₁ k₂ ∨ scope.invents strict k₁ k₂ := by
      decide +kernel
    have same : hasDuplicateEntryInScope strict (.statements scope declarations)
        (Declaration.record ⟨k₁, n₁, x₁⟩) (Declaration.record ⟨k₂, n₁, x₂⟩) =
        hasDuplicateEntryInScope strict (.statements scope []) (Declaration.record ⟨k₁, "", false⟩)
          (Declaration.record ⟨k₂, "", false⟩) := by
      simp only [hasDuplicateEntryInScope, Declaration.record, decide_true]
      cases scope <;> rfl
    rw [same]
    exact (table strict scope k₁ k₂).trans (and_iff_right rfl).symm
  · simp only [hasDuplicateEntryInScope, Declaration.record, name]
    grind

namespace StatementScope

/-- The rules let two declarations of one list of statements conflict, in either order. -/
def conflicts (scope : StatementScope) (strictCode : Bool) (k₁ k₂ : DeclarationKind) : Prop :=
  (scope.declaresLexically k₁ ∧ scope.declaresLexically k₂ ∧
      ¬ scope.allowsTwice strictCode k₁ k₂) ∨
    (scope.declaresLexically k₁ ∧ scope.declaresVar k₂) ∨
    (scope.declaresLexically k₂ ∧ scope.declaresVar k₁)

instance (scope : StatementScope) (strictCode : Bool) (k₁ k₂ : DeclarationKind) :
    Decidable (scope.conflicts strictCode k₁ k₂) :=
  inferInstanceAs (Decidable (_ ∨ _))

theorem conflicts_iff : ∀ (scope : StatementScope) {strictCode strict : Bool},
    (strict → strictCode) → ∀ k₁ k₂ : DeclarationKind, scope.conflicts strictCode k₁ k₂ ↔
      scope.shares strict k₁ k₂ ∨ scope.overlooks strictCode strict k₁ k₂ := by
  decide +kernel

end StatementScope

/-! ## Conflicts at a scope -/

namespace FunctionLike

/-- The recorder declares the names of parameter patterns once more, by `let` or `const`. -/
def declaresPatterns (f : FunctionLike) : Bool :=
  f.variableDeclaration = some .letList || f.variableDeclaration = some .constList

/-- The name that the recorder declares inside of the function. -/
def ownName (f : FunctionLike) : Option String :=
  if f.kind = .functionExpression || f.kind = .methodDeclaration then f.name else none

end FunctionLike

/-- A conflict that the check and the rules find at a scope. -/
inductive Shared (P : Program) (s : Site ScopeNode) : Prop where
  | declarations {scope : StatementScope} {declarations : List Declaration} {d e : Declaration}
      (node : s.node = .statements scope declarations) (pair : [d, e].Sublist declarations)
      (name : d.name = e.name)
      (kinds : scope.shares (isStrictMode P.globalStrict s.above) d.kind e.kind)
  | nestedVar {scope : StatementScope} {declarations : List Declaration} {d : Declaration}
      (node : s.node = .statements scope declarations) (mem : d ∈ declarations)
      (kind : d.kind.isLetOrConst) (var : d.name ∈ varDeclaredNames s.below)
  | parameters {f : FunctionLike} (node : s.node = .function f)
      (strict : isStrictMode P.globalStrict s.above) (twice : ¬ f.getParameterNames.Nodup)
  | parameterLexical {f : FunctionLike} {d : Declaration} (node : s.node = .function f)
      (mem : d ∈ bodyDeclarations s.below) (kind : d.kind.isLexical)
      (parameter : d.name ∈ f.getParameterNames)
  | catchParameters {c : CatchClause} {declarations : List Declaration}
      (node : s.node = .catchClause c)
      (block : .statements .catchBlock declarations ∈ s.below.roots) (twice : ¬ c.names.Nodup)
  | catchParameterLexical {c : CatchClause} {declarations : List Declaration} {d : Declaration}
      (node : s.node = .catchClause c)
      (block : .statements .catchBlock declarations ∈ s.below.roots) (mem : d ∈ declarations)
      (kind : d.kind.isLexical ∨ d.kind = .functionDeclaration) (parameter : d.name ∈ c.names)
  | restrictedGlobal {declarations : List Declaration} {d : Declaration}
      (node : s.node = .statements .global declarations) (mem : d ∈ declarations)
      (kind : d.kind.isLexical ∨ d.kind = .functionDeclaration)
      (restricted : isGlobalIdentifier d.name)

/-- A conflict that only the rules find at a scope. -/
inductive Overlooked (P : Program) (s : Site ScopeNode) : Prop where
  | declarations {scope : StatementScope} {declarations : List Declaration} {d e : Declaration}
      (node : s.node = .statements scope declarations) (pair : [d, e].Sublist declarations)
      (name : d.name = e.name)
      (kinds : scope.overlooks (isStrictCode P s) (isStrictMode P.globalStrict s.above)
        d.kind e.kind)
  /-- A variable in a scope inside the one of a class, or of a function of a block or module. -/
  | nestedVar {scope : StatementScope} {declarations : List Declaration} {d : Declaration}
      (node : s.node = .statements scope declarations) (mem : d ∈ declarations)
      (kind : d.kind = .classDeclaration ∨
        d.kind = .functionDeclaration ∧ scope ≠ .global ∧ scope ≠ .functionBody)
      (var : d.name ∈ varDeclaredNames s.below)
  /-- Parameters of a name that differ for another reason than a strict function around. -/
  | parameters {f : FunctionLike} (node : s.node = .function f)
      (sloppy : ¬ isStrictMode P.globalStrict s.above)
      (unique : isStrictCode P s ∨ f.hasUniqueParameters) (twice : ¬ f.getParameterNames.Nodup)
  | catchPatternVar {c : CatchClause} {name : String} (node : s.node = .catchClause c)
      (pattern : c.isPattern) (parameter : name ∈ c.names)
      (var : name ∈ varDeclaredNames s.below)

/-- A conflict that only the check finds at a scope. -/
inductive Invented (P : Program) (s : Site ScopeNode) : Prop where
  | declarations {scope : StatementScope} {declarations : List Declaration} {d e : Declaration}
      (node : s.node = .statements scope declarations) (pair : [d, e].Sublist declarations)
      (name : d.name = e.name)
      (kinds : scope.invents (isStrictMode P.globalStrict s.above) d.kind e.kind)
  /-- A name in the pattern of a parameter, and another such name or that of the function. -/
  | patterns {f : FunctionLike} (node : s.node = .function f) (declares : f.declaresPatterns)
      (twice : ¬ f.patternNames.Nodup ∨ ∃ name ∈ f.ownName, name ∈ f.patternNames)
  /-- A name in the pattern of a parameter, and a variable of the function. -/
  | patternVar {f : FunctionLike} {name : String} (node : s.node = .function f)
      (declares : f.declaresPatterns) (pattern : name ∈ f.patternNames)
      (var : name ∈ varDeclaredNames s.below)
  | parameterClass {f : FunctionLike} {d : Declaration} (node : s.node = .function f)
      (mem : d ∈ bodyDeclarations s.below) (kind : d.kind = .classExpression)
      (parameter : d.name ∈ f.getParameterNames)
  /-- The name of a class expression in the catch parameter. -/
  | catchParameterClass {c : CatchClause} {declarations : List Declaration} {name : String}
      (node : s.node = .catchClause c)
      (block : .statements .catchBlock declarations ∈ s.below.roots)
      (mem : name ∈ c.classExpressions)
      (twice : name ∈ c.names ∨ ¬ c.classExpressions.Nodup ∨
        ∃ d ∈ declarations, d.kind ≠ .varDeclaration ∧ d.name = name)
  /-- The name of a class expression in the catch block. -/
  | catchBlockClass {c : CatchClause} {declarations : List Declaration} {d : Declaration}
      (node : s.node = .catchClause c)
      (block : .statements .catchBlock declarations ∈ s.below.roots) (mem : d ∈ declarations)
      (kind : d.kind = .classExpression) (parameter : d.name ∈ c.names)
  | globalClass {declarations : List Declaration} {d : Declaration}
      (node : s.node = .statements .global declarations) (mem : d ∈ declarations)
      (kind : d.kind = .classExpression) (restricted : isGlobalIdentifier d.name)

/-! ## The rules -/

theorem strictCode_of_isStrictMode (P : Program) (s : Site ScopeNode)
    (h : isStrictMode P.globalStrict s.above) : isStrictCode P s := by
  simp only [isStrictMode, isStrictCode, Bool.or_eq_true, List.any_cons, List.any_eq_true] at h ⊢
  rcases h with h | ⟨node, mem, strict⟩
  · exact .inl (.inl h)
  · refine .inr (.inr ⟨node, mem, ?_⟩)
    cases node <;> simp_all

theorem mem_restricted_iff (name : String) :
    name ∈ ["NaN", "undefined", "Infinity"] ↔ isGlobalIdentifier name := by
  simp [isGlobalIdentifier, or_assoc]

theorem earlyError_of_conflicts {P : Program} {s : Site ScopeNode} {scope : StatementScope}
    {declarations : List Declaration} {d e : Declaration}
    (node : s.node = .statements scope declarations) (pair : [d, e].Sublist declarations)
    (name : d.name = e.name) (h : scope.conflicts (isStrictCode P s) d.kind e.kind) :
    EarlyError P s := by
  rcases h with ⟨left, right, allowed⟩ | ⟨lexical, var⟩ | ⟨lexical, var⟩
  · exact .lexicalTwice node pair name ⟨left, right⟩ allowed
  · exact .lexicalVar node (.inl pair) name lexical var
  · exact .lexicalVar node (.inr pair) name.symm lexical var

theorem declaresLexically_of_isLexical (scope : StatementScope) {k : DeclarationKind}
    (h : k.isLexical) : scope.declaresLexically k := by
  cases k <;> simp_all [StatementScope.declaresLexically, DeclarationKind.isLexical]

theorem isLexical_of_isLetOrConst {k : DeclarationKind} (h : k.isLetOrConst) : k.isLexical := by
  cases k <;> simp_all [DeclarationKind.isLetOrConst, DeclarationKind.isLexical]

theorem declaresLexically_of_not_top {scope : StatementScope} {k : DeclarationKind}
    (h : k = .classDeclaration ∨
      k = .functionDeclaration ∧ scope ≠ .global ∧ scope ≠ .functionBody) :
    scope.declaresLexically k := by
  rcases h with rfl | ⟨rfl, global, body⟩
  · rfl
  · cases scope <;> simp_all [StatementScope.declaresLexically, StatementScope.functionsAreVars]

theorem earlyError_iff (P : Program) (s : Site ScopeNode) :
    EarlyError P s ↔ Shared P s ∨ Overlooked P s := by
  have table (scope : StatementScope) := scope.conflicts_iff (strictCode_of_isStrictMode P s)
  constructor
  · intro h
    cases h with
    | lexicalTwice node pair name lexical allowed =>
      rcases (table _ _ _).1 (.inl ⟨lexical.1, lexical.2, allowed⟩) with kinds | kinds
      · exact .inl (.declarations node pair name kinds)
      · exact .inr (.declarations node pair name kinds)
    | lexicalVar node pair name lexical var =>
      rcases pair with pair | pair
      · rcases (table _ _ _).1 (.inr (.inl ⟨lexical, var⟩)) with kinds | kinds
        · exact .inl (.declarations node pair name kinds)
        · exact .inr (.declarations node pair name kinds)
      · rcases (table _ _ _).1 (.inr (.inr ⟨lexical, var⟩)) with kinds | kinds
        · exact .inl (.declarations node pair name.symm kinds)
        · exact .inr (.declarations node pair name.symm kinds)
    | @lexicalNestedVar scope _ d node mem lexical var =>
      by_cases kind : d.kind.isLetOrConst
      · exact .inl (.nestedVar node mem kind var)
      · refine .inr (.nestedVar node mem ?_ var)
        cases h : d.kind <;> cases scope <;>
          simp_all [DeclarationKind.isLetOrConst, StatementScope.declaresLexically,
            StatementScope.functionsAreVars]
    | parameterTwice node unique twice =>
      by_cases strict : isStrictMode P.globalStrict s.above
      · exact .inl (.parameters node strict twice)
      · exact .inr (.parameters node strict unique twice)
    | @parameterLexical f d node mem lexical parameter =>
      refine .inl (.parameterLexical node mem ?_ parameter)
      cases h : d.kind <;> simp_all [StatementScope.declaresLexically, DeclarationKind.isLexical,
        StatementScope.functionsAreVars]
    | catchParameterTwice node block twice => exact .inl (.catchParameters node block twice)
    | @catchParameterLexical c _ d node block mem lexical parameter =>
      refine .inl (.catchParameterLexical node block mem ?_ parameter)
      cases h : d.kind <;> simp_all [StatementScope.declaresLexically, DeclarationKind.isLexical]
    | catchParameterVar node pattern parameter var =>
      exact .inr (.catchPatternVar node pattern parameter var)
    | @restrictedGlobal _ d node mem kind restricted =>
      refine .inl (.restrictedGlobal node mem ?_ ((mem_restricted_iff _).1 restricted))
      cases h : d.kind <;> simp_all [DeclarationKind.isLexical]
  · rintro (h | h)
    · cases h with
      | declarations node pair name kinds =>
        exact earlyError_of_conflicts node pair name ((table _ _ _).2 (.inl kinds))
      | nestedVar node mem kind var =>
        exact .lexicalNestedVar node mem
          (declaresLexically_of_isLexical _ (isLexical_of_isLetOrConst kind)) var
      | parameters node strict twice =>
        exact .parameterTwice node (.inl (strictCode_of_isStrictMode P s strict)) twice
      | parameterLexical node mem kind parameter =>
        exact .parameterLexical node mem (declaresLexically_of_isLexical _ kind) parameter
      | catchParameters node block twice => exact .catchParameterTwice node block twice
      | catchParameterLexical node block mem kind parameter =>
        refine .catchParameterLexical node block mem ?_ parameter
        rcases kind with kind | kind
        · exact declaresLexically_of_isLexical _ kind
        · exact declaresLexically_of_not_top (.inr ⟨kind, by simp, by simp⟩)
      | @restrictedGlobal _ d node mem kind restricted =>
        refine .restrictedGlobal node mem ?_ ((mem_restricted_iff _).2 restricted)
        cases h : d.kind <;> simp_all [DeclarationKind.isLexical]
    · cases h with
      | declarations node pair name kinds =>
        exact earlyError_of_conflicts node pair name ((table _ _ _).2 (.inr kinds))
      | nestedVar node mem kind var =>
        exact .lexicalNestedVar node mem (declaresLexically_of_not_top kind) var
      | parameters node sloppy unique twice => exact .parameterTwice node unique twice
      | catchPatternVar node pattern parameter var =>
        exact .catchParameterVar node pattern parameter var

/-- The rules reject a program for a conflict that they share with the check, or for one that
the check overlooks. -/
theorem rejected_iff (P : Program) :
    P.Rejected ↔ (∃ s ∈ P.sites, Shared P s) ∨ ∃ s ∈ P.sites, Overlooked P s := by
  simp only [Program.Rejected, earlyError_iff, and_or_left, exists_or]

end ArkTs2abc.Ts2panda.Declarations
