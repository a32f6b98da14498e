import ArkTs2abc.Ts2panda.Declarations.Conflicts

/-!
# When the check agrees with the rules

The check is taken apart by the scope that a conflict belongs to: for a variable that is the
scope around it with the other declaration, for a catch block the scope of the catch clause.

## Main results

* `throws_checkDuplicateDeclaration_iff` — the check throws for a shared or an invented conflict.
* `Program.checksDeclarations_iff` — when the check throws just for the rejected programs.
-/

namespace ArkTs2abc.Ts2panda.Declarations

open Tree

/-! ## What is recorded -/

attribute [simp] recordClassExpression VariableDeclarationParent.addVariableDecl

attribute [simp] Declaration.record

attribute [simp] Declaration.declClass

theorem record_functionDeclaration {scope : ScopeNode} {d : Decl} (mem : d ∈ scope.getDecls)
    (h : d.node = .functionDeclaration) : d.instanceOf = .funcDecl := by
  cases scope with
  | statements scope declarations =>
    obtain ⟨e, -, rfl⟩ := List.mem_map.1 mem
    cases kind : e.kind <;>
      simp_all [Declaration.node]
  | function f =>
    simp only [ScopeNode.getDecls, List.mem_append, List.mem_map, or_assoc] at mem
    rcases mem with mem | mem | ⟨name, -, rfl⟩
    · unfold FunctionLike.recordOtherFunc at mem
      split at mem <;> simp_all
    · unfold FunctionLike.recordPatternParameters at mem
      split at mem
      · rename_i parent _
        obtain ⟨name, -, rfl⟩ := List.mem_map.1 mem
        cases parent <;> simp at h
      · simp at mem
    · simp at h
  | catchClause c =>
    simp only [ScopeNode.getDecls, List.mem_append, List.mem_map] at mem
    rcases mem with ⟨name, -, rfl⟩ | ⟨name, -, rfl⟩
    · simp at h
    · simp at h
  | classLike classExpressions =>
    obtain ⟨name, -, rfl⟩ := List.mem_map.1 mem
    simp at h

/-- What the check throws for at a scope, and what it throws for at the scopes below it on its
account. -/
def CheckedAt (P : Program) (s : Site ScopeNode) : Prop :=
  Throws (checkParameters (isStrictMode P.globalStrict s.above) s) ∨
    (∃ c ∈ s.below.roots, c.isCatchBlock ∧ ∃ p, s.node = .catchClause p ∧
      Throws (checkDuplicateInCatch c.getDecls s.node.getDecls)) ∨
    (∃ d ∈ s.node.getDecls, Throws (checkDeclareGlobalId s.node d)) ∨
    (∃ name ∈ varDeclaredNames s.below, ∃ e ∈ s.node.getDecls,
      (e.instanceOf = .letDecl ∨ e.instanceOf = .constDecl) ∧ name = e.name) ∨
    DuplicateEntry (isStrictMode P.globalStrict s.above) s.node s.node.getDecls

theorem throws_checkCatch_iff (s : Site ScopeNode) :
    Throws (checkCatch s) ↔ ∃ p ∈ s.above.head?, s.node.isCatchBlock ∧ ∃ c, p = .catchClause c ∧
      Throws (checkDuplicateInCatch s.node.getDecls p.getDecls) := by
  unfold checkCatch
  split
  · rename_i block
    split
    · rename_i c parent
      simp [block, parent]
    · rename_i other
      simp only [not_throws_pure, false_iff]
      rintro ⟨p, parent, -, c, rfl, -⟩
      exact other c parent
  · rename_i block
    simp [block]

attribute [simp] StatementScope.need2AddDecls

theorem exists_varDecl_iff (scope : StatementScope) (declarations : List Declaration)
    (Q : String → Prop) :
    (∃ d ∈ (ScopeNode.statements scope declarations).getDecls, d.instanceOf = .varDecl ∧ Q d.name) ↔
      ∃ name ∈ (ScopeNode.statements scope declarations).varNames, Q name := by
  have kinds (d : Declaration) : scope.need2AddDecls d ∧ d.declClass = .varDecl ↔
      d.kind = .varDeclaration := by
    obtain ⟨k, name, exported⟩ := d
    cases scope <;> cases k <;> simp
  simp only [ScopeNode.getDecls, ScopeNode.varNames, List.mem_map, List.mem_filter,
    decide_eq_true_eq]
  constructor
  · rintro ⟨_, ⟨d, ⟨mem, added⟩, rfl⟩, var, holds⟩
    exact ⟨d.name, ⟨d, ⟨mem, (kinds d).1 ⟨added, var⟩⟩, rfl⟩, holds⟩
  · rintro ⟨_, ⟨d, ⟨mem, var⟩, rfl⟩, holds⟩
    obtain ⟨added, var⟩ := (kinds d).2 var
    exact ⟨d.record, ⟨d, ⟨mem, added⟩, rfl⟩, var, holds⟩

theorem throws_across_iff (s : Site ScopeNode) :
    (∃ d ∈ s.node.getDecls, Throws (checkDuplicateEntryAcrossScope s.node s.above d)) ↔
      ¬ s.node.isFunctionScope ∧ ∃ name ∈ s.node.varNames,
        ∃ g ∈ hoistPath (·.isFunctionScope) s.above, ∃ e ∈ g.getDecls,
          (e.instanceOf = .letDecl ∨ e.instanceOf = .constDecl) ∧ name = e.name := by
  simp only [throws_checkDuplicateEntryAcrossScope_iff]
  have names (inner : ¬ s.node.isFunctionScope) (Q : String → Prop) :
      (∃ d ∈ s.node.getDecls, d.instanceOf = .varDecl ∧ Q d.name) ↔
        ∃ name ∈ s.node.varNames, Q name := by
    cases node : s.node with
    | statements scope declarations => exact exists_varDecl_iff scope declarations Q
    | function f => simp [node, ScopeNode.isFunctionScope] at inner
    | catchClause c =>
      simp [ScopeNode.getDecls, ScopeNode.varNames, or_and_right, exists_or]
    | classLike classExpressions =>
      simp [ScopeNode.getDecls, ScopeNode.varNames]
  by_cases inner : s.node.isFunctionScope
  · simp [inner]
  · have inner' : s.node.isFunctionScope = false := by simpa using inner
    simp only [inner', Bool.false_eq_true, not_false_eq_true, true_and]
    exact names inner fun name => ∃ g ∈ hoistPath (·.isFunctionScope) s.above,
      ∃ e ∈ g.getDecls, (e.instanceOf = .letDecl ∨ e.instanceOf = .constDecl) ∧ name = e.name

theorem throws_iff_checkedAt (P : Program) :
    Throws (checkDuplicateDeclaration P) ↔ ∃ s ∈ P.sites, CheckedAt P s := by
  have nested : (∃ s ∈ P.sites, ∃ d ∈ s.node.getDecls,
        Throws (checkDuplicateEntryAcrossScope s.node s.above d)) ↔
      ∃ s ∈ P.sites, ∃ name ∈ varDeclaredNames s.below, ∃ e ∈ s.node.getDecls,
        (e.instanceOf = .letDecl ∨ e.instanceOf = .constDecl) ∧ name = e.name := by
    simp only [throws_across_iff]
    exact Forest.exists_hoistPath_iff_of_top (·.isFunctionScope) ScopeNode.varNames
      (fun g name => ∃ e ∈ g.getDecls,
        (e.instanceOf = .letDecl ∨ e.instanceOf = .constDecl) ∧ name = e.name) _
  have catches : (∃ s ∈ P.sites, Throws (checkCatch s)) ↔
      ∃ s ∈ P.sites, ∃ c ∈ s.below.roots, c.isCatchBlock ∧ ∃ p, s.node = .catchClause p ∧
        Throws (checkDuplicateInCatch c.getDecls s.node.getDecls) := by
    simp only [throws_checkCatch_iff]
    exact Forest.exists_parent_iff_of_top
      (fun p (c : ScopeNode) => c.isCatchBlock ∧ ∃ q, p = .catchClause q ∧
        Throws (checkDuplicateInCatch c.getDecls p.getDecls)) _
  have parts (s : Site ScopeNode) : Throws (checkScope P.globalStrict s) ↔
      Throws (checkParameters (isStrictMode P.globalStrict s.above) s) ∨ Throws (checkCatch s) ∨
        (∃ d ∈ s.node.getDecls, Throws (checkDeclareGlobalId s.node d)) ∨
        (∃ d ∈ s.node.getDecls, Throws (checkDuplicateEntryAcrossScope s.node s.above d)) ∨
        DuplicateEntry (isStrictMode P.globalStrict s.above) s.node s.node.getDecls := by
    rw [checkScope, throws_bind_iff, throws_bind_iff,
      throws_checkDecls_iff _ _ _ _ fun d mem => record_functionDeclaration mem]
    simp only [SingleConflict, and_or_left, exists_or, or_assoc]
  simp only [checkDuplicateDeclaration, List.forM_eq_forM, throws_forM_iff, parts, and_or_left,
    exists_or, nested, catches, CheckedAt]

/-! ## The conflicts of one scope -/

section Parts

variable (P : Program) (s : Site ScopeNode)

theorem exists_getDecls_statements (scope : StatementScope) (declarations : List Declaration)
    (Q : Decl → Prop) :
    (∃ d ∈ (ScopeNode.statements scope declarations).getDecls, Q d) ↔
      ∃ d ∈ declarations, scope.need2AddDecls d ∧ Q d.record := by
  simp only [ScopeNode.getDecls, List.mem_map, List.mem_filter]
  grind

theorem getBodyDecls_eq_some {decls : List Decl} (h : getBodyDecls s = some decls) :
    decls = (ScopeNode.statements .functionBody (bodyDeclarations s.below)).getDecls := by
  simp only [getBodyDecls, Option.map_eq_some_iff] at h
  obtain ⟨body, found, rfl⟩ := h
  have isBody := List.find?_some found
  unfold ScopeNode.isFunctionBody at isBody
  split at isBody
  · simp [bodyDeclarations, found]
  · cases isBody

theorem getBodyDecls_eq_none (h : getBodyDecls s = none) : bodyDeclarations s.below = [] := by
  simp only [getBodyDecls, Option.map_eq_none_iff] at h
  simp [bodyDeclarations, h]

theorem throws_checkBody_iff (parameterNames : List String) :
    Throws (checkBody parameterNames s) ↔
      ∃ d ∈ bodyDeclarations s.below,
        (d.kind.isLexical ∨ d.kind = .classExpression) ∧ d.name ∈ parameterNames := by
  have kinds (d : Declaration) : StatementScope.functionBody.need2AddDecls d ∧
      d.record.instanceOf ≠ .varDecl ∧ d.record.instanceOf ≠ .funcDecl ↔
        d.kind.isLexical ∨ d.kind = .classExpression := by
    obtain ⟨k, name, exported⟩ := d
    cases k <;> simp [DeclarationKind.isLexical]
  unfold checkBody
  cases body : getBodyDecls s with
  | none => simp [getBodyDecls_eq_none s body]
  | some decls =>
    simp only [getBodyDecls_eq_some s body, throws_checkDuplicateParameterVar_iff,
      exists_getDecls_statements, ← kinds, and_assoc]
    rfl

theorem throws_checkParameters_iff :
    Throws (checkParameters (isStrictMode P.globalStrict s.above) s) ↔
      ∃ f, s.node = .function f ∧
        (isStrictMode P.globalStrict s.above ∧ ¬ f.getParameterNames.Nodup ∨
          ∃ d ∈ bodyDeclarations s.below,
            (d.kind.isLexical ∨ d.kind = .classExpression) ∧ d.name ∈ f.getParameterNames) := by
  unfold checkParameters
  split
  · rename_i f node
    have twice : Throws (if isStrictMode P.globalStrict s.above
          then checkDuplicateParameter [] f.getParameterNames else pure () : Check Unit) ↔
        isStrictMode P.globalStrict s.above ∧ ¬ f.getParameterNames.Nodup := by
      simp [throws_ite_iff, throws_checkDuplicateParameter_iff]
    rw [throws_bind_iff, twice, throws_checkBody_iff]
    simp [node]
  · rename_i other
    simp only [not_throws_pure, false_iff]
    rintro ⟨f, node, -⟩
    exact other f node

theorem map_name_catchClause (c : CatchClause) :
    (ScopeNode.catchClause c).getDecls.map (·.name) = c.names ++ c.classExpressions := by
  have names : (Decl.name ∘ VariableDeclarationParent.catchClause.addVariableDecl) = id := rfl
  have classes : (Decl.name ∘ recordClassExpression) = id := rfl
  simp [ScopeNode.getDecls, names, classes]

theorem throws_catch_iff :
    (∃ c ∈ s.below.roots, c.isCatchBlock ∧ ∃ p, s.node = .catchClause p ∧
        Throws (checkDuplicateInCatch c.getDecls s.node.getDecls)) ↔
      ∃ c declarations, s.node = .catchClause c ∧
        .statements .catchBlock declarations ∈ s.below.roots ∧
        (¬ (c.names ++ c.classExpressions).Nodup ∨ ∃ d ∈ declarations,
          d.kind ≠ .varDeclaration ∧ d.name ∈ c.names ++ c.classExpressions) := by
  have var (d : Declaration) : d.record.instanceOf ≠ .varDecl ↔ d.kind ≠ .varDeclaration := by
    cases kind : d.kind <;> simp [kind]
  have body (c : CatchClause) (declarations : List Declaration) :
      Throws (checkDuplicateInCatch (ScopeNode.statements .catchBlock declarations).getDecls
          (ScopeNode.catchClause c).getDecls) ↔
        ¬ (c.names ++ c.classExpressions).Nodup ∨ ∃ d ∈ declarations,
          d.kind ≠ .varDeclaration ∧ d.name ∈ c.names ++ c.classExpressions := by
    rw [throws_checkDuplicateInCatch_iff, map_name_catchClause, exists_getDecls_statements]
    simp only [var]
    simp
  constructor
  · rintro ⟨block, mem, isBlock, c, node, throws⟩
    unfold ScopeNode.isCatchBlock at isBlock
    split at isBlock
    · rename_i declarations
      rw [node] at throws
      exact ⟨c, declarations, node, mem, (body c declarations).1 throws⟩
    · cases isBlock
  · rintro ⟨c, declarations, node, mem, twice⟩
    exact ⟨_, mem, rfl, c, node, node ▸ (body c declarations).2 twice⟩

theorem throws_global_iff :
    (∃ d ∈ s.node.getDecls, Throws (checkDeclareGlobalId s.node d)) ↔
      ∃ declarations, s.node = .statements .global declarations ∧
        ∃ d ∈ declarations, d.kind ≠ .varDeclaration ∧ isGlobalIdentifier d.name := by
  have kinds (d : Declaration) :
      d.record.instanceOf ≠ .varDecl ∧ d.record.instanceOf ≠ .catchParameter ↔
        d.kind ≠ .varDeclaration := by
    cases kind : d.kind <;> simp [kind]
  simp only [throws_checkDeclareGlobalId_iff]
  constructor
  · rintro ⟨d, mem, isGlobal, var, catchParameter, restricted⟩
    unfold ScopeNode.isGlobalScope at isGlobal
    split at isGlobal
    · rename_i declarations node
      rw [node] at mem
      obtain ⟨e, emem, rfl⟩ := List.mem_map.1 mem
      exact ⟨declarations, node, e, (List.mem_filter.1 emem).1,
        (kinds e).1 ⟨var, catchParameter⟩, restricted⟩
    · cases isGlobal
  · rintro ⟨declarations, node, d, mem, kind, restricted⟩
    obtain ⟨var, catchParameter⟩ := (kinds d).2 kind
    refine ⟨d.record, ?_, by simp [node, ScopeNode.isGlobalScope], var, catchParameter, restricted⟩
    rw [node]
    exact List.mem_map_of_mem (List.mem_filter.2 ⟨mem, by simp⟩)

/-- The declarations that a function scope holds: its own name, the names of patterns, the names
of class expressions. -/
theorem exists_getDecls_function (f : FunctionLike) (Q : Decl → Prop) :
    (∃ d ∈ (ScopeNode.function f).getDecls, Q d) ↔
      (∃ d ∈ f.recordOtherFunc, Q d) ∨ (∃ d ∈ f.recordPatternParameters, Q d) ∨
        ∃ name ∈ f.classExpressions, Q (recordClassExpression name) := by
  simp only [ScopeNode.getDecls, List.mem_append, or_and_right, exists_or, List.mem_map,
    exists_exists_and_eq_and, or_assoc]

theorem recordOtherFunc_eq (f : FunctionLike) :
    (f.ownName = none ∧ f.recordOtherFunc = []) ∨ ∃ name d, f.ownName = some name ∧
      f.recordOtherFunc = [d] ∧ d.instanceOf = .funcDecl ∧ d.name = name ∧
        d.node ≠ .classExpression ∧ d.node ≠ .classDeclaration := by
  unfold FunctionLike.recordOtherFunc FunctionLike.ownName
  cases kind : f.kind <;> cases name : f.name <;> simp

theorem throws_nestedVar_iff :
    (∃ name ∈ varDeclaredNames s.below, ∃ e ∈ s.node.getDecls,
        (e.instanceOf = .letDecl ∨ e.instanceOf = .constDecl) ∧ name = e.name) ↔
      (∃ scope declarations, s.node = .statements scope declarations ∧
        ∃ d ∈ declarations, d.kind.isLetOrConst ∧ d.name ∈ varDeclaredNames s.below) ∨
      ∃ f, s.node = .function f ∧ f.declaresPatterns ∧
        ∃ name ∈ f.patternNames, name ∈ varDeclaredNames s.below := by
  cases node : s.node with
  | statements scope declarations =>
    have kinds (d : Declaration) (p : Prop) : scope.need2AddDecls d ∧
        (d.record.instanceOf = .letDecl ∨ d.record.instanceOf = .constDecl) ∧ p ↔
          d.kind.isLetOrConst ∧ p := by
      obtain ⟨k, name, exported⟩ := d
      cases k <;> simp [DeclarationKind.isLetOrConst]
    simp only [exists_getDecls_statements, kinds, ScopeNode.statements.injEq, reduceCtorEq,
      false_and, exists_false, or_false]
    constructor
    · rintro ⟨name, var, d, mem, kind, rfl⟩
      exact ⟨scope, declarations, ⟨rfl, rfl⟩, d, mem, kind, var⟩
    · rintro ⟨_, _, ⟨rfl, rfl⟩, d, mem, kind, var⟩
      exact ⟨d.name, var, d, mem, kind, rfl⟩
  | function f =>
    have patterns (name : String) : (∃ e ∈ f.recordPatternParameters,
        (e.instanceOf = .letDecl ∨ e.instanceOf = .constDecl) ∧ name = e.name) ↔
          f.declaresPatterns ∧ name ∈ f.patternNames := by
      unfold FunctionLike.recordPatternParameters FunctionLike.declaresPatterns
      cases parent : f.variableDeclaration with
      | none => simp
      | some p => cases p <;> simp
    have own (name : String) : ¬ ∃ e ∈ f.recordOtherFunc,
        (e.instanceOf = .letDecl ∨ e.instanceOf = .constDecl) ∧ name = e.name := by
      rcases recordOtherFunc_eq f with ⟨-, nil⟩ | ⟨_, d, -, single, func, -⟩
      · simp [nil]
      · simp [single, func]
    simp only [exists_getDecls_function, own, patterns, recordClassExpression, reduceCtorEq,
      or_self, false_and, and_false, exists_false, false_or, or_false]
    simp only [ScopeNode.function.injEq, ← exists_and_left]
    grind
  | catchClause c =>
    simp only [ScopeNode.getDecls, List.mem_append, List.mem_map, reduceCtorEq, false_and,
      exists_false, or_self, iff_false]
    rintro ⟨name, -, e, ⟨_, -, rfl⟩ | ⟨_, -, rfl⟩, kind, -⟩ <;>
      simp at kind
  | classLike classExpressions =>
    simp only [ScopeNode.getDecls, List.mem_map, reduceCtorEq, false_and, exists_false, or_self,
      iff_false]
    rintro ⟨name, -, e, ⟨_, -, rfl⟩, kind, -⟩
    simp at kind

theorem not_duplicateEntry_iff (strict : Bool) (scope : ScopeNode) (decls : List Decl) :
    ¬ DuplicateEntry strict scope decls ↔
      decls.Pairwise fun d e => ¬ hasDuplicateEntryInScope strict scope d e := by
  rw [List.pairwise_iff_forall_sublist]
  unfold DuplicateEntry
  constructor
  · intro h d e pair dup
    exact h ⟨d, e, pair, dup⟩
  · rintro h ⟨d, e, pair, dup⟩
    exact h pair dup

theorem duplicateEntry_statements_iff (strict : Bool) (scope : StatementScope)
    (declarations : List Declaration) :
    DuplicateEntry strict (.statements scope declarations)
        (ScopeNode.statements scope declarations).getDecls ↔
      ∃ d e, [d, e].Sublist declarations ∧ d.name = e.name ∧
        (scope.shares strict d.kind e.kind ∨ scope.invents strict d.kind e.kind) := by
  rw [← not_iff_not, not_duplicateEntry_iff, ScopeNode.getDecls, List.pairwise_map,
    List.pairwise_filter, List.pairwise_iff_forall_sublist]
  have pairs (d e : Declaration) :=
    hasDuplicateEntryInScope_record_iff strict scope declarations d e
  grind

theorem hasDuplicateEntryInScope_plain (strict : Bool) {scope : ScopeNode} {d e : Decl}
    (plain : d.node ≠ .classDeclaration) (other : ¬ scope.isLocalScope ∧ ¬ scope.isModuleScope) :
    hasDuplicateEntryInScope strict scope d e ↔
      (d.instanceOf = .letDecl ∨ d.instanceOf = .constDecl ∨
        e.instanceOf = .letDecl ∨ e.instanceOf = .constDecl) ∧
      d.node ≠ .classExpression ∧ e.node ≠ .classExpression ∧ d.name = e.name := by
  simp only [hasDuplicateEntryInScope]
  grind

theorem node_recordPatternParameters {f : FunctionLike} {d : Decl}
    (mem : d ∈ f.recordPatternParameters) : d.node = .identifier := by
  unfold FunctionLike.recordPatternParameters at mem
  split at mem
  · rename_i p _
    obtain ⟨name, -, rfl⟩ := List.mem_map.1 mem
    cases p <;> rfl
  · cases mem

theorem pairwise_recordPatternParameters (strict : Bool) (f : FunctionLike) :
    f.recordPatternParameters.Pairwise
        (fun d e => ¬ hasDuplicateEntryInScope strict (.function f) d e) ↔
      (f.declaresPatterns → f.patternNames.Nodup) := by
  have other : ¬ (ScopeNode.function f).isLocalScope ∧ ¬ (ScopeNode.function f).isModuleScope := by
    simp [ScopeNode.isLocalScope, ScopeNode.isModuleScope]
  have compared (d e : Decl) (plain : d.node ≠ .classDeclaration) :=
    hasDuplicateEntryInScope_plain strict (e := e) plain other
  unfold FunctionLike.recordPatternParameters FunctionLike.declaresPatterns
  cases f.variableDeclaration with
  | none => simp
  | some p =>
    have plain (name : String) : (p.addVariableDecl name).node ≠ .classDeclaration := by
      cases p <;> simp
    simp only [List.pairwise_map, compared _ _ (plain _)]
    cases p <;>
      simp [List.Nodup, List.pairwise_of_forall (fun _ _ => trivial)]

theorem duplicate_ownName_iff (strict : Bool) (f : FunctionLike) {name : String} {d : Decl}
    (func : d.instanceOf = .funcDecl) (named : d.name = name) (node : d.node ≠ .classExpression)
    (plain : d.node ≠ .classDeclaration) :
    (∃ e ∈ f.recordPatternParameters, hasDuplicateEntryInScope strict (.function f) d e) ↔
      f.declaresPatterns ∧ name ∈ f.patternNames := by
  have other : ¬ (ScopeNode.function f).isLocalScope ∧ ¬ (ScopeNode.function f).isModuleScope := by
    simp [ScopeNode.isLocalScope, ScopeNode.isModuleScope]
  have compared (e : Decl) := hasDuplicateEntryInScope_plain strict (e := e) plain other
  simp only [compared, func, named]
  unfold FunctionLike.recordPatternParameters FunctionLike.declaresPatterns
  cases f.variableDeclaration with
  | none => simp
  | some p => cases p <;> simp [node]

/-- In a function scope only the names of patterns are compared, if they are declared by `let` or
`const`. -/
theorem duplicateEntry_function_iff (strict : Bool) (f : FunctionLike) :
    DuplicateEntry strict (.function f) (ScopeNode.function f).getDecls ↔
      f.declaresPatterns ∧
        (¬ f.patternNames.Nodup ∨ ∃ name ∈ f.ownName, name ∈ f.patternNames) := by
  have classRight (d : Decl) (name : String) (plain : d.node ≠ .classDeclaration) :
      ¬ hasDuplicateEntryInScope strict (.function f) d (recordClassExpression name) := by
    rw [hasDuplicateEntryInScope_plain strict plain
      (by simp [ScopeNode.isLocalScope, ScopeNode.isModuleScope])]
    simp
  have classes : (f.classExpressions.map recordClassExpression).Pairwise
      (fun d e => ¬ hasDuplicateEntryInScope strict (.function f) d e) := by
    rw [List.pairwise_map]
    exact List.pairwise_of_forall fun a b => classRight _ b (by simp)
  have right : ∀ a ∈ f.recordOtherFunc ++ f.recordPatternParameters,
      ∀ b ∈ f.classExpressions.map recordClassExpression,
        ¬ hasDuplicateEntryInScope strict (.function f) a b := by
    intro a ha b hb
    obtain ⟨name, -, rfl⟩ := List.mem_map.1 hb
    apply classRight
    rcases List.mem_append.1 ha with ha | ha
    · rcases recordOtherFunc_eq f with ⟨-, nil⟩ | ⟨_, d, -, single, -, -, -, plain⟩
      · simp [nil] at ha
      · rw [single, List.mem_singleton] at ha
        exact ha ▸ plain
    · simp [node_recordPatternParameters ha]
  have left : f.recordOtherFunc.Pairwise
      (fun d e => ¬ hasDuplicateEntryInScope strict (.function f) d e) := by
    rcases recordOtherFunc_eq f with ⟨-, nil⟩ | ⟨_, d, -, single, -⟩
    · simp [nil]
    · simp [single]
  have cross : (∀ a ∈ f.recordOtherFunc, ∀ b ∈ f.recordPatternParameters,
        ¬ hasDuplicateEntryInScope strict (.function f) a b) ↔
      ¬ (f.declaresPatterns ∧ ∃ name ∈ f.ownName, name ∈ f.patternNames) := by
    rcases recordOtherFunc_eq f with ⟨none, nil⟩ | ⟨name, d, own, single, func, named, node, plain⟩
    · simp [none, nil]
    · have first := duplicate_ownName_iff strict f func named node plain
      rw [single, own]
      simp only [List.mem_singleton, forall_eq, Option.mem_def, Option.some.injEq,
        exists_eq_left', ← first]
      grind
  rw [← not_iff_not, not_duplicateEntry_iff, ScopeNode.getDecls, List.pairwise_append,
    List.pairwise_append, and_iff_left ⟨classes, right⟩, and_iff_right left, cross,
    pairwise_recordPatternParameters]
  grind

theorem not_duplicateEntry (strict : Bool) (scope : ScopeNode) (decls : List Decl)
    (kinds : ∀ d ∈ decls, d.instanceOf = .catchParameter ∨
      d.instanceOf = .classDecl ∧ d.node = .classExpression)
    (plain : ∀ d ∈ decls, d.node ≠ .classDeclaration) :
    ¬ DuplicateEntry strict scope decls := by
  rintro ⟨d, e, pair, dup⟩
  have hd := kinds d (pair.subset (by simp))
  have he := kinds e (pair.subset (by simp))
  have hp := plain d (pair.subset (by simp))
  unfold hasDuplicateEntryInScope at dup
  grind

theorem duplicateEntry_iff (strict : Bool) (node : ScopeNode) :
    DuplicateEntry strict node node.getDecls ↔
      (∃ scope declarations, node = .statements scope declarations ∧
        ∃ d e, [d, e].Sublist declarations ∧ d.name = e.name ∧
          (scope.shares strict d.kind e.kind ∨ scope.invents strict d.kind e.kind)) ∨
      ∃ f, node = .function f ∧ f.declaresPatterns ∧
        (¬ f.patternNames.Nodup ∨ ∃ name ∈ f.ownName, name ∈ f.patternNames) := by
  cases node with
  | statements scope declarations =>
    rw [duplicateEntry_statements_iff]
    constructor
    · intro pair
      exact .inl ⟨scope, declarations, rfl, pair⟩
    · rintro (⟨_, _, node, pair⟩ | ⟨_, node, -⟩)
      · cases node
        exact pair
      · cases node
  | function f =>
    rw [duplicateEntry_function_iff]
    constructor
    · intro patterns
      exact .inr ⟨f, rfl, patterns⟩
    · rintro (⟨_, _, node, -⟩ | ⟨_, node, patterns⟩)
      · cases node
      · cases node
        exact patterns
  | catchClause c =>
    have none : ¬ DuplicateEntry strict (.catchClause c) (ScopeNode.catchClause c).getDecls := by
      apply not_duplicateEntry <;>
        simp only [ScopeNode.getDecls, List.mem_append, List.mem_map] <;>
        rintro d (⟨name, -, rfl⟩ | ⟨name, -, rfl⟩) <;>
        simp
    simp [none]
  | classLike classExpressions =>
    have none : ¬ DuplicateEntry strict (.classLike classExpressions)
        (ScopeNode.classLike classExpressions).getDecls := by
      apply not_duplicateEntry <;> simp only [ScopeNode.getDecls, List.mem_map] <;>
        rintro d ⟨name, -, rfl⟩ <;> simp
    simp [none]

end Parts

/-! ## The whole program -/

theorem checkedAt_of_shared {P : Program} {s : Site ScopeNode} (h : Shared P s) :
    CheckedAt P s := by
  rw [CheckedAt, throws_checkParameters_iff, throws_catch_iff, throws_global_iff,
    throws_nestedVar_iff, duplicateEntry_iff]
  cases h with
  | declarations node pair name kinds =>
    exact .inr (.inr (.inr (.inr (.inl ⟨_, _, node, _, _, pair, name, .inl kinds⟩))))
  | nestedVar node mem kind var =>
    exact .inr (.inr (.inr (.inl (.inl ⟨_, _, node, _, mem, kind, var⟩))))
  | parameters node strict twice => exact .inl ⟨_, node, .inl ⟨strict, twice⟩⟩
  | parameterLexical node mem kind parameter =>
    exact .inl ⟨_, node, .inr ⟨_, mem, .inl kind, parameter⟩⟩
  | catchParameters node block twice =>
    exact .inr (.inl ⟨_, _, node, block, .inl fun nodup => twice (List.nodup_append.1 nodup).1⟩)
  | catchParameterLexical node block mem kind parameter =>
    refine .inr (.inl ⟨_, _, node, block, .inr ⟨_, mem, ?_, List.mem_append_left _ parameter⟩⟩)
    grind [DeclarationKind.isLexical]
  | restrictedGlobal node mem kind restricted =>
    refine .inr (.inr (.inl ⟨_, node, _, mem, ?_, restricted⟩))
    grind [DeclarationKind.isLexical]

theorem checkedAt_of_invented {P : Program} {s : Site ScopeNode} (h : Invented P s) :
    CheckedAt P s := by
  rw [CheckedAt, throws_checkParameters_iff, throws_catch_iff, throws_global_iff,
    throws_nestedVar_iff, duplicateEntry_iff]
  cases h with
  | declarations node pair name kinds =>
    exact .inr (.inr (.inr (.inr (.inl ⟨_, _, node, _, _, pair, name, .inr kinds⟩))))
  | patterns node declares twice =>
    exact .inr (.inr (.inr (.inr (.inr ⟨_, node, declares, twice⟩))))
  | patternVar node declares pattern var =>
    exact .inr (.inr (.inr (.inl (.inr ⟨_, node, declares, _, pattern, var⟩))))
  | parameterClass node mem kind parameter =>
    exact .inl ⟨_, node, .inr ⟨_, mem, .inr kind, parameter⟩⟩
  | catchParameterClass node block mem twice =>
    refine .inr (.inl ⟨_, _, node, block, ?_⟩)
    rcases twice with parameter | twice | ⟨d, dmem, var, name⟩
    · exact .inl fun nodup => (List.nodup_append.1 nodup).2.2 _ parameter _ mem rfl
    · exact .inl fun nodup => twice (List.nodup_append.1 nodup).2.1
    · exact .inr ⟨d, dmem, var, name ▸ List.mem_append_right _ mem⟩
  | catchBlockClass node block mem kind parameter =>
    refine .inr (.inl ⟨_, _, node, block, .inr ⟨_, mem, ?_, List.mem_append_left _ parameter⟩⟩)
    simp [kind]
  | globalClass node mem kind restricted =>
    exact .inr (.inr (.inl ⟨_, node, _, mem, by simp [kind], restricted⟩))

theorem kind_cases {k : DeclarationKind} (h : k ≠ .varDeclaration) :
    (k.isLexical ∨ k = .functionDeclaration) ∨ k = .classExpression := by
  cases k <;> simp_all [DeclarationKind.isLexical]

theorem checkedAt_iff (P : Program) (s : Site ScopeNode) :
    CheckedAt P s ↔ Shared P s ∨ Invented P s := by
  constructor
  · intro h
    rw [CheckedAt, throws_checkParameters_iff, throws_catch_iff, throws_global_iff,
      throws_nestedVar_iff, duplicateEntry_iff] at h
    rcases h with ⟨f, node, ⟨strict, twice⟩ | ⟨d, mem, kind | kind, parameter⟩⟩ |
      ⟨c, declarations, node, block, caught⟩ | ⟨declarations, node, d, mem, kind, restricted⟩ |
      (⟨scope, declarations, node, d, mem, kind, var⟩ | ⟨f, node, declares, name, pattern, var⟩) |
      (⟨scope, declarations, node, d, e, pair, name, kinds | kinds⟩ | ⟨f, node, declares, twice⟩)
    · exact .inl (.parameters node strict twice)
    · exact .inl (.parameterLexical node mem kind parameter)
    · exact .inr (.parameterClass node mem kind parameter)
    · by_cases classNamed : ∃ name ∈ c.classExpressions, name ∈ c.names ∨ ¬ c.classExpressions.Nodup ∨
          ∃ d ∈ declarations, d.kind ≠ .varDeclaration ∧ d.name = name
      · obtain ⟨name, mem, twice⟩ := classNamed
        exact .inr (.catchParameterClass node block mem twice)
      · rcases caught with twice | ⟨d, mem, kind, name⟩
        · refine .inl (.catchParameters node block fun names => twice ?_)
          rw [List.nodup_append]
          refine ⟨names, ?_, ?_⟩
          · by_contra classes
            cases first : c.classExpressions with
            | nil => simp [first] at classes
            | cons name _ => exact classNamed ⟨name, by simp [first], .inr (.inl classes)⟩
          · rintro a ha _ hb rfl
            exact classNamed ⟨a, hb, .inl ha⟩
        · rcases List.mem_append.1 name with parameter | inClass
          · rcases kind_cases kind with kind | kind
            · exact .inl (.catchParameterLexical node block mem kind parameter)
            · exact .inr (.catchBlockClass node block mem kind parameter)
          · exact (classNamed ⟨d.name, inClass, .inr (.inr ⟨d, mem, kind, rfl⟩)⟩).elim
    · rcases kind_cases kind with kind | kind
      · exact .inl (.restrictedGlobal node mem kind restricted)
      · exact .inr (.globalClass node mem kind restricted)
    · exact .inl (.nestedVar node mem kind var)
    · exact .inr (.patternVar node declares pattern var)
    · exact .inl (.declarations node pair name kinds)
    · exact .inr (.declarations node pair name kinds)
    · exact .inr (.patterns node declares twice)
  · rintro (h | h)
    · exact checkedAt_of_shared h
    · exact checkedAt_of_invented h

theorem throws_checkDuplicateDeclaration_iff (P : Program) :
    Throws (checkDuplicateDeclaration P) ↔
      (∃ s ∈ P.sites, Shared P s) ∨ ∃ s ∈ P.sites, Invented P s := by
  simp only [throws_iff_checkedAt, checkedAt_iff, and_or_left, exists_or]

/-- The check throws just for the rejected programs. -/
def Program.ChecksDeclarations (P : Program) : Prop :=
  Throws (checkDuplicateDeclaration P) ↔ P.Rejected

/-- `var A; class A {}` in a script. -/
def varBeforeClass : Program where
  isModule := false
  globalStrict := true
  declarations := [⟨.varDeclaration, "A", false⟩, ⟨.classDeclaration, "A", false⟩]
  scopes := .nil

/-- In the other order the check throws. -/
example : checkDuplicateDeclaration
    { varBeforeClass with declarations := varBeforeClass.declarations.reverse } =
      .error ⟨.Duplicate_identifier_0, "A"⟩ := by
  decide +kernel

end ArkTs2abc.Ts2panda.Declarations
