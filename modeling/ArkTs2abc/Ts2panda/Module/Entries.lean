import ArkTs2abc.Ts2panda.Module.Tables

/-!
# The entries that the actions of a statement stand for

What the recorder adds at a statement are the entries that the language gives the statement,
as long as an exported variable statement has no binding pattern.

## Main results

* `importEntries_eq`, `exportEntries_eq` — the entries of a module, from its actions.
* `foldl_moduleRequests` — the modules that it requests.
-/

namespace ArkTs2abc.Ts2panda.EcmaModule

open scoped List

namespace Action

/-- The import entry of an action, of a binding or of a namespace. -/
def toImportEntry (a : Action) : Option ImportEntry := (a.toImport.map Prod.snd).or a.toNamespaceImport

/-- The export entry of an action. -/
def toExportEntry (a : Action) : Option ExportEntry :=
  a.toLocalExport.or (a.toIndirectExport.or a.toStarExport)

end Action

theorem filterMap_or_perm {α β : Type} (f g : α → Option β)
    (disjoint : ∀ a, (f a).isSome → g a = none) (l : List α) :
    l.filterMap (fun a => (f a).or (g a)) ~ l.filterMap f ++ l.filterMap g := by
  induction l with
  | nil => simp
  | cons a l ih =>
    cases hf : f a with
    | some b => simpa [hf, disjoint a (by simp [hf]), List.filterMap_cons] using ih
    | none =>
      cases hg : g a with
      | none => simpa [hf, hg, List.filterMap_cons] using ih
      | some b =>
        simpa [hf, hg, List.filterMap_cons] using (ih.cons b).trans List.perm_middle.symm

section Entries

variable (normalize : String → String)

/-- The names of an exported variable statement are identifiers. -/
def Statement.ExportsIdentifiers : Statement → Prop
  | .variableStatement true declarations => ∀ d ∈ declarations, ∃ name, d.name = .identifier name
  | _ => True

attribute [local simp] Action.toImportEntry Action.toExportEntry Action.toImport
  Action.toNamespaceImport Action.toLocalExport Action.toIndirectExport Action.toStarExport
  List.filterMap_cons

theorem filterMap_map_eq_map {α β γ : Type} (f : α → β) (g : β → Option γ) (h : α → γ)
    (l : List α) (one : ∀ x, g (f x) = some (h x)) : (l.map f).filterMap g = l.map h := by
  simp [List.filterMap_map, one]

theorem filterMap_map_eq_nil {α β γ : Type} (f : α → β) (g : β → Option γ) (l : List α)
    (no : ∀ x, g (f x) = none) : (l.map f).filterMap g = [] := by
  simp [List.filterMap_map, no]

theorem filterMap_flatMap_eq_map {α β γ : Type} (f : α → List β) (g : β → Option γ) (h : α → γ)
    (l : List α) (one : ∀ x, (f x).filterMap g = [h x]) :
    (l.flatMap f).filterMap g = l.map h := by
  induction l with
  | nil => rfl
  | cons x l ih => simp [ih, one]

attribute [simp] Statement.actions exportActions declarationActions Statement.importEntries
  Statement.exportEntries Statement.ExportsIdentifiers Statement.WellFormed moduleKind funcDecls

theorem NamedImportBindings.importEntries_eq (moduleRequest : String) (b : NamedImportBindings) :
    (b.actions moduleRequest).filterMap Action.toImportEntry = b.importEntries moduleRequest := by
  cases b with
  | namespaceImport node name => rfl
  | namedImports elements =>
    have each := filterMap_flatMap_eq_map (fun e : Specifier => [Action.decl ⟨e.name, .imported⟩,
      .importEntry e.node e.original e.name moduleRequest]) Action.toImportEntry
      (fun e => ⟨some moduleRequest, some e.original, some e.name⟩) elements fun _ => rfl
    cases elements with
    | nil => rfl
    | cons e elements => exact each

theorem ImportClause.importEntries_eq (moduleRequest : String) (c : ImportClause) :
    (c.actions moduleRequest).filterMap Action.toImportEntry = c.importEntries moduleRequest := by
  obtain ⟨node, name, bindings⟩ := c
  rw [actions, importEntries, List.filterMap_append]
  congr 1
  · cases name <;> rfl
  · cases bindings with
    | none => rfl
    | some b =>
      simpa only [Option.toList, List.flatMap_cons, List.flatMap_nil, List.append_nil] using
        NamedImportBindings.importEntries_eq moduleRequest b

theorem Statement.importEntries_eq (s : Statement) :
    (s.actions normalize).filterMap Action.toImportEntry = s.importEntries normalize := by
  cases s with
  | importDeclaration importClause moduleSpecifier =>
    cases importClause with
    | none => rfl
    | some c =>
      simp only [actions, importEntries, Option.toList, List.flatMap_cons, List.flatMap_nil,
        List.append_nil, ImportClause.importEntries_eq]
  | exportDeclaration node exportClause moduleSpecifier =>
    rcases exportClause with _ | _ | _ | ⟨e, elements⟩ <;> cases moduleSpecifier
    case some.namedExports.cons.none =>
      exact filterMap_map_eq_nil (fun e : Specifier => .localExportEntry e.node e.name e.original)
        Action.toImportEntry (e :: elements) fun _ => rfl
    case some.namedExports.cons.some m =>
      exact filterMap_map_eq_nil (fun e : Specifier => .indirectExportEntry e.node e.original
        e.name (normalize m)) Action.toImportEntry (e :: elements) fun _ => rfl
    all_goals rfl
  | exportAssignment node => rfl
  | variableStatement hasExport declarations =>
    have declared := filterMap_map_eq_nil (fun name => Action.decl ⟨name, moduleKind hasExport⟩)
      Action.toImportEntry (declarations.flatMap fun d => d.name.boundNames) fun _ => rfl
    rw [actions, List.filterMap_append, declared, List.append_nil]
    cases hasExport with
    | false => rfl
    | true => exact filterMap_map_eq_nil _ Action.toImportEntry declarations fun _ => rfl
  | functionDeclaration node modifiers name => cases modifiers <;> cases name <;> rfl
  | classDeclaration node modifiers name => cases modifiers <;> cases name <;> rfl
  | other names => rfl

theorem Statement.exportEntries_eq (s : Statement) (wellFormed : s.WellFormed)
    (identifiers : s.ExportsIdentifiers) :
    (s.actions normalize).filterMap Action.toExportEntry = s.exportEntries normalize := by
  cases s with
  | importDeclaration importClause moduleSpecifier =>
    have imported (l : List Specifier) (m : String) : (l.flatMap fun e =>
        [Action.decl ⟨e.name, .imported⟩, .importEntry e.node e.original e.name m]).filterMap
        Action.toExportEntry = [] := by
      rw [List.filterMap_flatMap, List.flatMap_eq_nil_iff]
      exact fun _ _ => rfl
    rcases importClause with _ | ⟨node, name, bindings⟩
    · rfl
    · rcases bindings with _ | _ | elements
      · cases name <;> rfl
      · cases name <;> rfl
      · have listed := imported elements (normalize moduleSpecifier)
        simp only [actions, ImportClause.actions, NamedImportBindings.actions, Option.toList,
          List.flatMap_cons, List.flatMap_nil, List.append_nil, List.filterMap_append, listed]
        cases name <;> cases elements <;> rfl
  | exportDeclaration node exportClause moduleSpecifier =>
    rcases exportClause with _ | _ | elements
    · cases moduleSpecifier with
      | none => simp at wellFormed
      | some m => rfl
    · exact wellFormed.elim
    · cases moduleSpecifier with
      | none => exact filterMap_map_eq_map _ _ _ elements fun _ => rfl
      | some m =>
        have each := filterMap_map_eq_map (fun e : Specifier => Action.indirectExportEntry e.node
          e.original e.name (normalize m)) Action.toExportEntry _ elements fun _ => rfl
        cases elements with
        | nil => rfl
        | cons e elements => exact each
  | exportAssignment node => rfl
  | variableStatement hasExport declarations =>
    have declared := filterMap_map_eq_nil (fun name => Action.decl ⟨name, moduleKind hasExport⟩)
      Action.toExportEntry (declarations.flatMap fun d => d.name.boundNames) fun _ => rfl
    rw [actions, List.filterMap_append, declared, List.append_nil]
    cases hasExport with
    | false => rfl
    | true =>
      clear declared
      simp only [ExportsIdentifiers] at identifiers
      induction declarations with
      | nil => rfl
      | cons d declarations ih =>
        obtain ⟨name, hname⟩ := identifiers d (by simp)
        have rest := ih wellFormed fun d hd => identifiers d (by simp [hd])
        simpa [hname, BindingName.text, BindingName.boundNames, ExportEntry.local] using rest
  | functionDeclaration node modifiers name =>
    cases modifiers <;> cases name <;> first | rfl | simp at wellFormed
  | classDeclaration node modifiers name =>
    cases modifiers <;> cases name <;> first | rfl | simp at wellFormed
  | other names => rfl

theorem ImportClause.declarations_eq (moduleRequest : String) (c : ImportClause) :
    ((c.actions moduleRequest).filterMap Action.toDecl).map (fun d => (d.name, d.isLocal)) =
      ((c.importEntries moduleRequest).filterMap ImportEntry.localName).map (·, false) := by
  have elements (l : List Specifier) := filterMap_flatMap_eq_map (fun e : Specifier =>
    [Action.decl ⟨e.name, .imported⟩, .importEntry e.node e.original e.name moduleRequest])
    Action.toDecl (fun e => ⟨e.name, .imported⟩) l (by simp [Action.toDecl])
  have request (l : List Specifier) :
      (if l.isEmpty then [Action.request moduleRequest] else []).filterMap Action.toDecl = [] := by
    split <;> rfl
  have names (l : List Specifier) := filterMap_map_eq_map (fun s : Specifier =>
    (⟨some moduleRequest, some s.original, some s.name⟩ : ImportEntry)) ImportEntry.localName
    Specifier.name l (fun _ => rfl)
  obtain ⟨node, name, bindings⟩ := c
  cases name <;> rcases bindings with _ | _ | l
  case none.some.namedImports | some.some.namedImports =>
    simp only [actions, importEntries, NamedImportBindings.actions,
      NamedImportBindings.importEntries, Option.toList, List.flatMap_cons, List.flatMap_nil,
      List.append_nil, List.filterMap_append, elements, request, names]
    simp [Action.toDecl, Decl.isLocal]
  all_goals simp [actions, importEntries, NamedImportBindings.actions,
    NamedImportBindings.importEntries, Action.toDecl, Decl.isLocal]

theorem Statement.declarations_eq (s : Statement) :
    ((s.actions normalize).filterMap Action.toDecl).map (fun d => (d.name, d.isLocal)) =
      s.declarations normalize := by
  have names (hasExport : Bool) (l : List String) := filterMap_map_eq_map
    (fun name => Action.decl ⟨name, moduleKind hasExport⟩) Action.toDecl
    (fun name => ⟨name, moduleKind hasExport⟩) l (by simp [Action.toDecl])
  cases s with
  | importDeclaration importClause moduleSpecifier =>
    rcases importClause with _ | c
    · simp [declarations, Action.toDecl]
    · simpa [declarations] using ImportClause.declarations_eq _ c
  | exportDeclaration node exportClause moduleSpecifier =>
    rcases exportClause with _ | _ | _ | _ <;> cases moduleSpecifier <;>
      simp [declarations, Action.toDecl]
  | exportAssignment node => simp [declarations, Action.toDecl]
  | variableStatement hasExport declarations =>
    have exported : ((if hasExport then declarations.map fun d => Action.localExportEntry d.node
        d.name.text d.name.text else []).filterMap Action.toDecl) = [] := by
      cases hasExport <;> simp [List.filterMap_eq_nil_iff, Action.toDecl]
    simp only [actions, List.filterMap_append, exported, names, List.nil_append]
    cases hasExport <;> simp [Statement.declarations, Decl.isLocal]
  | functionDeclaration node modifiers name => cases modifiers <;> cases name <;> rfl
  | classDeclaration node modifiers name => cases modifiers <;> cases name <;> rfl
  | other names => rfl

theorem mem_toDecl {l : List Action} {d : Decl} :
    d ∈ l.filterMap Action.toDecl ↔ .decl d ∈ l := by
  rw [List.mem_filterMap]
  constructor
  · rintro ⟨a, mem, eq⟩
    cases a <;> simp [Action.toDecl] at eq
    exact eq ▸ mem
  · exact fun mem => ⟨_, mem, rfl⟩

/-- An exported declaration is exported under its own name. -/
theorem Statement.exists_localExport_of_exported {s : Statement} (wellFormed : s.WellFormed)
    (identifiers : s.ExportsIdentifiers) {d : Decl} (mem : .decl d ∈ s.actions normalize)
    (exported : d.isModule = .exported) :
    ∃ node exportName, .localExportEntry node exportName (some d.name) ∈ s.actions normalize := by
  cases s with
  | importDeclaration importClause moduleSpecifier =>
    rcases importClause with _ | ⟨node, name, bindings⟩
    · simp at mem
    · cases name <;> rcases bindings with _ | _ | _ <;>
        simp [ImportClause.actions, NamedImportBindings.actions] at mem <;> grind
  | exportDeclaration node exportClause moduleSpecifier =>
    rcases exportClause with _ | _ | _ | _ <;> cases moduleSpecifier <;>
      simp at mem
  | exportAssignment node => simp at mem
  | variableStatement hasExport declarations =>
    cases hasExport with
    | false =>
      simp at mem
      grind
    | true =>
      simp at mem
      obtain ⟨name, ⟨v, hv, bound⟩, rfl⟩ := mem
      obtain ⟨name', hname⟩ := identifiers v hv
      obtain rfl : name = name' := by simpa [hname, BindingName.boundNames] using bound
      exact ⟨v.node, some name, by
        simp only [actions, if_true, List.mem_append, List.mem_map]
        exact .inl ⟨v, hv, by simp [hname, BindingName.text]⟩⟩
  | functionDeclaration node modifiers name =>
    cases modifiers <;> cases name <;>
      simp_all
  | classDeclaration node modifiers name =>
    cases modifiers <;> cases name <;> simp_all
  | other names => simp at mem

theorem Statement.localName_eq_none {s : Statement} {node : ℕ} {localName : Option String}
    (mem : .localExportEntry node none localName ∈ s.actions normalize) : localName = none := by
  cases s with
  | importDeclaration importClause moduleSpecifier =>
    rcases importClause with _ | ⟨node, name, bindings⟩
    · simp at mem
    · cases name <;> rcases bindings with _ | _ | _ <;>
        simp [ImportClause.actions, NamedImportBindings.actions] at mem
  | exportDeclaration node exportClause moduleSpecifier =>
    rcases exportClause with _ | _ | _ | _ <;> cases moduleSpecifier <;>
      simp at mem
  | exportAssignment node => simp at mem
  | variableStatement hasExport declarations =>
    cases hasExport <;> simp at mem
    grind
  | functionDeclaration node modifiers name =>
    cases modifiers <;> cases name <;> simp at mem
  | classDeclaration node modifiers name =>
    cases modifiers <;> cases name <;> simp at mem
  | other names => simp at mem

theorem Statement.decl_mem_of_import {s : Statement} {node : ℕ}
    {importName name moduleRequest : String}
    (mem : .importEntry node importName name moduleRequest ∈ s.actions normalize) :
    .decl ⟨name, .imported⟩ ∈ s.actions normalize := by
  cases s with
  | importDeclaration importClause moduleSpecifier =>
    rcases importClause with _ | ⟨node, name, bindings⟩
    · simp at mem
    · cases name <;> rcases bindings with _ | _ | _ <;>
        simp [ImportClause.actions, NamedImportBindings.actions] at mem ⊢ <;> grind
  | exportDeclaration node exportClause moduleSpecifier =>
    rcases exportClause with _ | _ | _ | _ <;> cases moduleSpecifier <;>
      simp at mem
  | exportAssignment node => simp at mem
  | variableStatement hasExport declarations => cases hasExport <;> simp at mem
  | functionDeclaration node modifiers name =>
    cases modifiers <;> cases name <;> simp at mem
  | classDeclaration node modifiers name =>
    cases modifiers <;> cases name <;> simp at mem
  | other names => simp at mem

/-- A binding pattern, and nothing else, is exported under no local name. -/
theorem Statement.exportsIdentifiers_iff (s : Statement) :
    s.ExportsIdentifiers ↔
      ∀ node exportName, .localExportEntry node exportName none ∉ s.actions normalize := by
  cases s with
  | importDeclaration importClause moduleSpecifier =>
    rcases importClause with _ | ⟨node, name, bindings⟩
    · simp
    · cases name <;> rcases bindings with _ | _ | _ <;>
        simp [ImportClause.actions, NamedImportBindings.actions]
  | exportDeclaration node exportClause moduleSpecifier =>
    rcases exportClause with _ | _ | _ | _ <;> cases moduleSpecifier <;>
      simp
  | exportAssignment node => simp
  | variableStatement hasExport declarations =>
    cases hasExport with
    | false => simp
    | true =>
      have text (name : BindingName) : (∃ n, name = .identifier n) ↔ name.text ≠ none := by
        cases name <;> simp [BindingName.text]
      simp only [ExportsIdentifiers, text, actions]
      simp
      grind
  | functionDeclaration node modifiers name =>
    cases modifiers <;> cases name <;> simp
  | classDeclaration node modifiers name =>
    cases modifiers <;> cases name <;> simp
  | other names => simp

variable (body : List Statement)

/-- What the recorder adds at the statements of a module. -/
def actions : List Action := body.flatMap (Statement.actions normalize)

theorem importEntries_eq :
    (actions normalize body).filterMap Action.toImportEntry = importEntries normalize body := by
  rw [actions, importEntries, List.filterMap_flatMap]
  exact List.flatMap_congr fun s _ => Statement.importEntries_eq normalize s

theorem exportEntries_eq (wellFormed : ∀ s ∈ body, s.WellFormed)
    (identifiers : ∀ s ∈ body, s.ExportsIdentifiers) :
    (actions normalize body).filterMap Action.toExportEntry = exportEntries normalize body := by
  rw [actions, exportEntries, List.filterMap_flatMap]
  exact List.flatMap_congr fun s hs =>
    Statement.exportEntries_eq normalize s (wellFormed s hs) (identifiers s hs)

theorem declarations_eq :
    ((actions normalize body).filterMap Action.toDecl).map (fun d => (d.name, d.isLocal)) =
      declarations normalize body := by
  rw [actions, declarations, List.filterMap_flatMap, List.map_flatMap]
  exact List.flatMap_congr fun s _ => Statement.declarations_eq normalize s

end Entries

/-! ## Requests -/

/-- `ModuleRequests` of a statement. -/
def Statement.moduleRequests (normalize : String → String) : Statement → List String
  | .importDeclaration _ moduleSpecifier => [normalize moduleSpecifier]
  | .exportDeclaration _ _ moduleSpecifier => moduleSpecifier.toList.map normalize
  | _ => []

/-- An import clause of the grammar has a name or bindings. -/
def Statement.ImportsSome : Statement → Prop
  | .importDeclaration (some c) _ => c.name.isSome ∨ c.namedBindings.isSome
  | _ => True

namespace Action

/-- The request of an action. -/
def moduleRequest : Action → Option String
  | .request r | .importEntry _ _ _ r | .starImportEntry _ _ r | .indirectExportEntry _ _ _ r
  | .starExportEntry _ r => some r
  | .decl _ | .localExportEntry .. => none

end Action

/-- A request is added unless it is there. -/
def insertRequest (requests : List String) (r : String) : List String :=
  if r ∈ requests then requests else requests ++ [r]

theorem eraseDups_concat (l : List String) (r : String) :
    (l ++ [r]).eraseDups = insertRequest l.eraseDups r := by
  by_cases mem : r ∈ l <;>
    simp [insertRequest, List.eraseDups_append, List.removeAll, List.eraseDups_cons, mem]

theorem foldl_insertRequest_eq (l : List String) : l.foldl insertRequest [] = l.eraseDups := by
  induction l using List.reverseRecOn with
  | nil => rfl
  | append_singleton l r ih => rw [List.foldl_concat, ih, eraseDups_concat]

theorem foldl_insertRequest_replicate (requests : List String) (r : String) (n : ℕ) :
    (List.replicate (n + 1) r).foldl insertRequest requests = insertRequest requests r := by
  induction n with
  | zero => rfl
  | succ n ih =>
    rw [List.replicate_succ', List.foldl_concat, ih]
    grind [insertRequest]

theorem addModuleRequest_moduleRequests (m : SourceTextModuleRecord) (r : String) :
    (m.addModuleRequest r).2.moduleRequests = insertRequest m.moduleRequests r := by
  grind [SourceTextModuleRecord.addModuleRequest, insertRequest, List.idxOf?_eq_none_iff,
    List.idxOf?_eq_some_iff]

theorem moduleRequests_apply (scope : ModuleScope) (a : Action) :
    (a.apply scope).module.moduleRequests =
      a.moduleRequest.toList.foldl insertRequest scope.module.moduleRequests := by
  cases a with
  | decl | localExportEntry => rfl
  | _ => exact addModuleRequest_moduleRequests scope.module _

theorem moduleRequests_run (scope : ModuleScope) (actions : List Action) :
    (run scope actions).module.moduleRequests =
      (actions.filterMap Action.moduleRequest).foldl insertRequest scope.module.moduleRequests := by
  induction actions generalizing scope with
  | nil => rfl
  | cons a actions ih =>
    rw [run_cons, ih, moduleRequests_apply]
    cases a <;> rfl

section Requests

variable (normalize : String → String)

/-- Each action of a statement that requests a module requests that of the statement. -/
theorem Statement.filterMap_moduleRequest (s : Statement) (wellFormed : s.WellFormed)
    (imports : s.ImportsSome) : ∃ n, (s.actions normalize).filterMap Action.moduleRequest =
      (s.moduleRequests normalize).flatMap (List.replicate (n + 1)) := by
  have listed (l : List Specifier) (m : String) : (l.flatMap fun e =>
      [Action.decl ⟨e.name, .imported⟩, .importEntry e.node e.original e.name m]).filterMap
      Action.moduleRequest = List.replicate l.length m := by
    induction l with
    | nil => rfl
    | cons e l ih => exact congrArg (m :: ·) ih
  cases s with
  | importDeclaration importClause moduleSpecifier =>
    rcases importClause with _ | ⟨node, name, bindings⟩
    · exact ⟨0, rfl⟩
    · rcases bindings with _ | _ | elements
      · rcases name with _ | name
        · simp [ImportsSome] at imports
        · exact ⟨0, rfl⟩
      · cases name with
        | none => exact ⟨0, rfl⟩
        | some name => exact ⟨1, rfl⟩
      · simp only [actions, ImportClause.actions, NamedImportBindings.actions, moduleRequests,
          Option.toList, List.flatMap_cons, List.flatMap_nil, List.append_nil, List.filterMap_append,
          listed]
        cases elements <;> cases name
        case nil.none => exact ⟨0, rfl⟩
        case nil.some => exact ⟨1, rfl⟩
        case cons.none e elements => exact ⟨elements.length, rfl⟩
        case cons.some e elements name => exact ⟨elements.length + 1, rfl⟩
  | exportDeclaration node exportClause moduleSpecifier =>
    rcases exportClause with _ | _ | elements
    · refine ⟨0, ?_⟩
      cases moduleSpecifier <;> rfl
    · exact wellFormed.elim
    · cases moduleSpecifier with
      | none => exact ⟨0, filterMap_map_eq_nil _ Action.moduleRequest elements fun _ => rfl⟩
      | some m =>
        have each := filterMap_map_eq_map (fun e : Specifier => Action.indirectExportEntry e.node
          e.original e.name (normalize m)) Action.moduleRequest _ elements fun _ => rfl
        cases elements with
        | nil => exact ⟨0, rfl⟩
        | cons e elements => exact ⟨elements.length, each.trans (by simp [moduleRequests, List.replicate_succ])⟩
  | exportAssignment node => exact ⟨0, rfl⟩
  | variableStatement hasExport declarations =>
    have declared := filterMap_map_eq_nil (fun name => Action.decl ⟨name, moduleKind hasExport⟩)
      Action.moduleRequest (declarations.flatMap fun d => d.name.boundNames) fun _ => rfl
    rw [actions, List.filterMap_append, declared, List.append_nil]
    cases hasExport with
    | false => exact ⟨0, rfl⟩
    | true => exact ⟨0, filterMap_map_eq_nil _ Action.moduleRequest declarations fun _ => rfl⟩
  | functionDeclaration node modifiers name => refine ⟨0, ?_⟩; cases modifiers <;> cases name <;> rfl
  | classDeclaration node modifiers name => refine ⟨0, ?_⟩; cases modifiers <;> cases name <;> rfl
  | other names => exact ⟨0, rfl⟩

theorem foldl_moduleRequests (body : List Statement) (wellFormed : ∀ s ∈ body, s.WellFormed)
    (imports : ∀ s ∈ body, s.ImportsSome) :
    ((body.flatMap (Statement.actions normalize)).filterMap Action.moduleRequest).foldl
        insertRequest [] = (body.flatMap (Statement.moduleRequests normalize)).eraseDups := by
  rw [← foldl_insertRequest_eq]
  generalize ([] : List String) = requests
  induction body generalizing requests with
  | nil => rfl
  | cons s body ih =>
    obtain ⟨n, hn⟩ := s.filterMap_moduleRequest normalize (wellFormed s (by simp)) (imports s (by simp))
    have rest := ih (fun t ht => wellFormed t (by simp [ht])) fun t ht => imports t (by simp [ht])
    simp only [List.flatMap_cons, List.filterMap_append, List.foldl_append, hn, rest]
    congr 1
    generalize s.moduleRequests normalize = l
    induction l generalizing requests with
    | nil => rfl
    | cons r l ihl => rw [List.flatMap_cons, List.foldl_append, foldl_insertRequest_replicate, ihl,
        List.foldl_cons]

end Requests

end ArkTs2abc.Ts2panda.EcmaModule
