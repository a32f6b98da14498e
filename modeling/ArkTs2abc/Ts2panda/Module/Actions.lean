import ArkTs2abc.Ts2panda.Module.EcmaModule

/-!
# What the recorder adds to a module

What is recorded at a statement is a list of actions, each of which adds one request, one
declaration or one entry.

## Main results

* `record_eq` — recording a module is doing the actions of its statements.
-/

namespace ArkTs2abc.Ts2panda.EcmaModule

/-- One thing that the recorder adds. -/
inductive Action where
  | request (moduleRequest : String)
  | decl (d : Decl)
  | importEntry (node : ℕ) (importName localName moduleRequest : String)
  | starImportEntry (node : ℕ) (localName moduleRequest : String)
  | localExportEntry (node : ℕ) (exportName localName : Option String)
  | indirectExportEntry (node : ℕ) (importName exportName moduleRequest : String)
  | starExportEntry (node : ℕ) (moduleRequest : String)

namespace Action

def apply (scope : ModuleScope) : Action → ModuleScope
  | .request moduleRequest => scope.update fun m => m.addEmptyImportEntry moduleRequest
  | .decl d => scope.setDecls d
  | .importEntry node importName localName moduleRequest =>
    scope.update fun m => m.addImportEntry node importName localName moduleRequest
  | .starImportEntry node localName moduleRequest =>
    scope.update fun m => m.addStarImportEntry node localName moduleRequest
  | .localExportEntry node exportName localName =>
    scope.update fun m => m.addLocalExportEntry node exportName localName
  | .indirectExportEntry node importName exportName moduleRequest =>
    scope.update fun m => m.addIndirectExportEntry node importName exportName moduleRequest
  | .starExportEntry node moduleRequest =>
    scope.update fun m => m.addStarExportEntry node moduleRequest

def toDecl : Action → Option Decl
  | .decl d => some d
  | _ => none

/-- The import entry that an action stands for, under its local name. -/
def toImport : Action → Option (String × ImportEntry)
  | .importEntry _ importName localName moduleRequest =>
    some (localName, ⟨some moduleRequest, some importName, some localName⟩)
  | _ => none

def toNamespaceImport : Action → Option ImportEntry
  | .starImportEntry _ localName moduleRequest => some ⟨some moduleRequest, none, some localName⟩
  | _ => none

def toLocalExport : Action → Option ExportEntry
  | .localExportEntry _ exportName localName => some ⟨exportName, none, none, localName⟩
  | _ => none

def toIndirectExport : Action → Option ExportEntry
  | .indirectExportEntry _ importName exportName moduleRequest =>
    some ⟨some exportName, some moduleRequest, some importName, none⟩
  | _ => none

def toStarExport : Action → Option ExportEntry
  | .starExportEntry _ moduleRequest => some ⟨none, some moduleRequest, none, none⟩
  | _ => none

end Action

section Statements

variable (normalize : String → String)

def NamedImportBindings.actions (moduleRequest : String) : NamedImportBindings → List Action
  | .namespaceImport node name =>
    [.decl ⟨name, .not⟩, .starImportEntry node name moduleRequest]
  | .namedImports elements =>
    (if elements.isEmpty then [.request moduleRequest] else []) ++ elements.flatMap fun e =>
      [.decl ⟨e.name, .imported⟩, .importEntry e.node e.original e.name moduleRequest]

def ImportClause.actions (moduleRequest : String) (c : ImportClause) : List Action :=
  (c.name.toList.flatMap fun name =>
    [.decl ⟨name, .imported⟩, .importEntry c.node "default" name moduleRequest]) ++
  c.namedBindings.toList.flatMap (NamedImportBindings.actions moduleRequest)

def exportActions (node : ℕ) : Option NamedExportBindings → Option String → List Action
  | some (.namedExports elements), some moduleSpecifier =>
    let moduleRequest := normalize moduleSpecifier
    (if elements.isEmpty then [.request moduleRequest] else []) ++
      elements.map fun e => .indirectExportEntry e.node e.original e.name moduleRequest
  | none, some moduleSpecifier => [.starExportEntry node (normalize moduleSpecifier)]
  | some (.namedExports elements), none =>
    elements.map fun e => .localExportEntry e.node e.name e.original
  | _, _ => []

def declarationActions (node : ℕ) (name : Option String) : Modifiers → List Action
  | .none => []
  | .exportDefault => [.localExportEntry node "default" (some (name.getD "*default*"))]
  | .export => name.toList.map fun name => .localExportEntry node name name

def Statement.actions : Statement → List Action
  | .importDeclaration none moduleSpecifier => [.request (normalize moduleSpecifier)]
  | .importDeclaration (some c) moduleSpecifier => c.actions (normalize moduleSpecifier)
  | .exportDeclaration node exportClause moduleSpecifier =>
    exportActions normalize node exportClause moduleSpecifier
  | .exportAssignment node => [.localExportEntry node "default" "*default*"]
  | .variableStatement hasExport declarations =>
    (if hasExport then declarations.map fun d => .localExportEntry d.node d.name.text d.name.text
      else []) ++
    (declarations.flatMap fun d => d.name.boundNames).map fun name =>
      .decl ⟨name, moduleKind hasExport⟩
  | .functionDeclaration node modifiers name =>
    declarationActions node name modifiers ++ (funcDecls modifiers name).map .decl
  | .classDeclaration node modifiers name =>
    declarationActions node name modifiers ++
      name.toList.map fun name => .decl ⟨name, moduleKind (modifiers ≠ .none)⟩
  | .other _ => []

/-- The scope after some actions. -/
def run (scope : ModuleScope) (actions : List Action) : ModuleScope := actions.foldl Action.apply scope

@[simp] theorem run_nil (scope : ModuleScope) : run scope [] = scope := rfl

@[simp] theorem run_cons (scope : ModuleScope) (a : Action) (actions : List Action) :
    run scope (a :: actions) = run (a.apply scope) actions := rfl

@[simp] theorem run_append (scope : ModuleScope) (actions actions' : List Action) :
    run scope (actions ++ actions') = run (run scope actions) actions' := by
  simp [run, List.foldl_append]

theorem run_flatMap {α : Type} (f : α → List Action) (scope : ModuleScope) (l : List α) :
    run scope (l.flatMap f) = l.foldl (fun scope x => run scope (f x)) scope := by
  induction l generalizing scope with
  | nil => rfl
  | cons x l ih => simp [ih]

theorem run_updates {α : Type} (f : α → Action)
    (g : α → SourceTextModuleRecord → SourceTextModuleRecord)
    (changes : ∀ scope x, (f x).apply scope = scope.update (g x)) (scope : ModuleScope)
    (l : List α) :
    run scope (l.map f) = scope.update fun m => l.foldl (fun m x => g x m) m := by
  induction l generalizing scope with
  | nil => rfl
  | cons x l ih =>
    rw [List.map_cons, run_cons, changes, ih]
    rfl

theorem run_decls {α : Type} (f : α → Decl) (scope : ModuleScope) (l : List α) :
    run scope (l.map fun x => .decl (f x)) = { scope with decls := scope.decls ++ l.map f } := by
  induction l generalizing scope with
  | nil => simp
  | cons x l ih => simp [ih, Action.apply, ModuleScope.setDecls]

theorem recordEcmaNamedBindings_eq (moduleRequest : String) (scope : ModuleScope)
    (b : NamedImportBindings) :
    recordEcmaNamedBindings moduleRequest scope b = run scope (b.actions moduleRequest) := by
  cases b with
  | namespaceImport node name => rfl
  | namedImports elements =>
    simp only [recordEcmaNamedBindings, NamedImportBindings.actions, run_append, run_flatMap]
    split <;> rfl

theorem recordEcmaImportClause_eq (moduleRequest : String) (scope : ModuleScope)
    (c : ImportClause) :
    recordEcmaImportClause moduleRequest scope c = run scope (c.actions moduleRequest) := by
  obtain ⟨node, name, bindings⟩ := c
  cases name <;> cases bindings <;>
    simp [recordEcmaImportClause, ImportClause.actions, recordEcmaNamedBindings_eq, Action.apply]

theorem recordEcmaExportDecl_eq (scope : ModuleScope) (node : ℕ)
    (exportClause : Option NamedExportBindings) (moduleSpecifier : Option String)
    (wellFormed : (Statement.exportDeclaration node exportClause moduleSpecifier).WellFormed) :
    ∃ m, recordEcmaExportDecl normalize scope.module node exportClause moduleSpecifier = .ok m ∧
      run scope (exportActions normalize node exportClause moduleSpecifier) =
        { scope with module := m } := by
  rcases exportClause with _ | _ | elements
  · cases moduleSpecifier with
    | none => simp [Statement.WellFormed] at wellFormed
    | some m => exact ⟨_, rfl, rfl⟩
  · exact wellFormed.elim
  · cases moduleSpecifier with
    | none => exact ⟨_, rfl, run_updates _ _ (fun _ _ => rfl) scope elements⟩
    | some m =>
      refine ⟨_, rfl, ?_⟩
      simp only [exportActions, run_append]
      split
      · exact run_updates _ _ (fun _ _ => rfl) _ elements
      · exact run_updates _ _ (fun _ _ => rfl) scope elements

theorem recordExportedDeclaration_eq (scope : ModuleScope) (node : ℕ) (name : Option String)
    (modifiers : Modifiers) (wellFormed : name = none → modifiers = .exportDefault) :
    ∃ m, recordExportedDeclaration scope.module node name modifiers = .ok m ∧
      run scope (declarationActions node name modifiers) = { scope with module := m } := by
  cases modifiers with
  | none => exact ⟨_, rfl, rfl⟩
  | exportDefault => exact ⟨_, rfl, rfl⟩
  | «export» =>
    cases name with
    | none => simp at wellFormed
    | some name => exact ⟨_, rfl, rfl⟩

theorem recordStatement_eq (scope : ModuleScope) (s : Statement) (wellFormed : s.WellFormed) :
    recordStatement normalize scope s = .ok (run scope (s.actions normalize)) := by
  cases s with
  | importDeclaration importClause moduleSpecifier =>
    cases importClause with
    | none => rfl
    | some c => simp [recordStatement, recordEcmaImportClause_eq, Statement.actions]
  | exportDeclaration node exportClause moduleSpecifier =>
    obtain ⟨m, recorded, ran⟩ := recordEcmaExportDecl_eq normalize scope node _ _ wellFormed
    simp [recordStatement, recorded, Statement.actions, ran, bind, Except.bind]
  | exportAssignment node => rfl
  | variableStatement hasExport declarations =>
    have declared := run_decls fun name => ⟨name, moduleKind hasExport⟩
    cases hasExport with
    | false => simp [recordStatement, Statement.actions, declared]
    | true =>
      have exported := run_updates
        (fun d : VariableDeclaration => .localExportEntry d.node d.name.text d.name.text)
        (fun d m => m.addLocalExportEntry d.node d.name.text d.name.text) (fun _ _ => rfl)
        scope declarations
      simp [recordStatement, Statement.actions, exported, declared]
  | functionDeclaration node modifiers name =>
    obtain ⟨m, recorded, ran⟩ := recordExportedDeclaration_eq scope node name modifiers wellFormed
    have declared := run_decls id { scope with module := m } (funcDecls modifiers name)
    simp only [List.map_id, id_eq] at declared
    simp [recordStatement, recorded, Statement.actions, ran, declared, bind, Except.bind]
  | classDeclaration node modifiers name =>
    obtain ⟨m, recorded, ran⟩ := recordExportedDeclaration_eq scope node name modifiers wellFormed
    have declared := run_decls (fun name => ⟨name, moduleKind (modifiers ≠ .none)⟩)
      { scope with module := m } name.toList
    simp only [recordStatement, recorded, Statement.actions, run_append, ran, declared, bind,
      Except.bind]
  | other names => rfl

theorem record_eq (body : List Statement) (wellFormed : ∀ s ∈ body, s.WellFormed) :
    record normalize body = .ok (run .empty (body.flatMap (Statement.actions normalize))) := by
  suffices h : ∀ scope, body.foldlM (recordStatement normalize) scope =
      .ok (run scope (body.flatMap (Statement.actions normalize))) from h .empty
  induction body with
  | nil => intro scope; rfl
  | cons s body ih =>
    intro scope
    simp only [List.foldlM_cons, recordStatement_eq normalize scope s (wellFormed s (by simp)),
      List.flatMap_cons, run_append]
    exact ih (fun t ht => wellFormed t (by simp [ht])) _

end Statements

end ArkTs2abc.Ts2panda.EcmaModule
