import ArkTs2abc.Ts2panda.Module.Statement

/-!
# Module records

The recorder goes through the statements of a module. It collects their entries, and the
declarations with their `ModuleVarKind`. When all are there, the exports of imported
bindings are made explicit, and the declarations that are exported by name are marked.

A `Map` of the source is the list of its entries in the order in which a traversal finds
them. A name that `getTextOfIdentifierOrLiteral` does not find, as that of a binding
pattern, is `undefined`, and so is a key of a map.

## Main definitions

* `SourceTextModuleRecord`, `ModuleScope` — the record and the scope.
* `recordStatement` — what the recorder does at a statement.
* `setModuleEnvironment` — what is done when all is recorded.
-/

namespace ArkTs2abc.Ts2panda.EcmaModule

structure Entry where
  node : ℕ
  exportName : Option String
  localName : Option String
  importName : Option String
  /-- An index into `moduleRequests`; there is none for -1. -/
  moduleRequest : Option ℕ
  deriving DecidableEq, Repr

structure SourceTextModuleRecord where
  moduleRequests : List String
  regularImportEntries : List (String × Entry)
  namespaceImportEntries : List Entry
  localExportEntries : List (Option String × List Entry)
  starExportEntries : List Entry
  indirectExportEntries : List Entry
  deriving DecidableEq, Repr

inductive ModuleVarKind where
  | imported | exported | not
  deriving DecidableEq, Repr

structure Decl where
  name : String
  isModule : ModuleVarKind
  deriving DecidableEq, Repr

structure ModuleScope where
  decls : List Decl
  module : SourceTextModuleRecord
  deriving DecidableEq, Repr

inductive DiagnosticError where
  | module_has_already_exported_a_member (node : ℕ) (exportName : Option String)
  | module_has_no_exported_member (node : ℕ) (localName : Option String)
  | declaration_without_default_must_have_a_name (node : ℕ)
  | unreachable
  deriving DecidableEq, Repr

/-- `Map.set`. -/
def mapSet {α β : Type} [DecidableEq α] (key : α) (value : β) : List (α × β) → List (α × β)
  | [] => [(key, value)]
  | (k, v) :: rest => if k = key then (key, value) :: rest else (k, v) :: mapSet key value rest

namespace SourceTextModuleRecord

variable (m : SourceTextModuleRecord)

def empty : SourceTextModuleRecord := ⟨[], [], [], [], [], []⟩

/-- `addModuleRequest`: the index of the request, and the record with it. -/
def addModuleRequest (moduleRequest : String) : ℕ × SourceTextModuleRecord :=
  match m.moduleRequests.idxOf? moduleRequest with
  | some index => (index, m)
  | none =>
    (m.moduleRequests.length, { m with moduleRequests := m.moduleRequests ++ [moduleRequest] })

def addImportEntry (node : ℕ) (importName localName moduleRequest : String) :
    SourceTextModuleRecord :=
  let (index, m) := m.addModuleRequest moduleRequest
  let importEntry := ⟨node, none, some localName, some importName, some index⟩
  { m with regularImportEntries := mapSet localName importEntry m.regularImportEntries }

def addEmptyImportEntry (moduleRequest : String) : SourceTextModuleRecord :=
  (m.addModuleRequest moduleRequest).2

def addStarImportEntry (node : ℕ) (localName moduleRequest : String) : SourceTextModuleRecord :=
  let (index, m) := m.addModuleRequest moduleRequest
  let starImportEntry := ⟨node, none, some localName, none, some index⟩
  { m with namespaceImportEntries := m.namespaceImportEntries ++ [starImportEntry] }

def addLocalExportEntry (node : ℕ) (exportName localName : Option String) :
    SourceTextModuleRecord :=
  let entries := (m.localExportEntries.lookup localName).getD []
  let entries := entries ++ [⟨node, exportName, localName, none, none⟩]
  { m with localExportEntries := mapSet localName entries m.localExportEntries }

def addIndirectExportEntry (node : ℕ) (importName exportName moduleRequest : String) :
    SourceTextModuleRecord :=
  let (index, m) := m.addModuleRequest moduleRequest
  let indirectExportEntry := ⟨node, some exportName, none, some importName, some index⟩
  { m with indirectExportEntries := m.indirectExportEntries ++ [indirectExportEntry] }

def addStarExportEntry (node : ℕ) (moduleRequest : String) : SourceTextModuleRecord :=
  let (index, m) := m.addModuleRequest moduleRequest
  let starExportEntry := ⟨node, none, none, none, some index⟩
  { m with starExportEntries := m.starExportEntries ++ [starExportEntry] }

end SourceTextModuleRecord

namespace ModuleScope

variable (scope : ModuleScope)

def empty : ModuleScope := ⟨[], .empty⟩

def setDecls (decl : Decl) : ModuleScope := { scope with decls := scope.decls ++ [decl] }

def hasDecl (name : Option String) : Bool := scope.decls.any fun d => some d.name = name

/-- `scope.module()` is changed in place. -/
def update (f : SourceTextModuleRecord → SourceTextModuleRecord) : ModuleScope :=
  { scope with module := f scope.module }

/-- Marks the declaration that is found first. -/
def setExport (exportedLocalName : Option String) : List Decl → List Decl
  | [] => []
  | decl :: decls =>
    if some decl.name = exportedLocalName then { decl with isModule := .exported } :: decls
    else decl :: setExport exportedLocalName decls

def setExportDecl (exportedLocalName : Option String) : ModuleScope :=
  { scope with decls := setExport exportedLocalName scope.decls }

end ModuleScope

/-- Whether a variable with this declaration is accessed as a local variable of the module. -/
def Decl.isLocal (decl : Decl) : Bool := decl.isModule = .exported

section Recorder

variable (normalize : String → String)

/-- `recordEcmaNamedBindings`. -/
def recordEcmaNamedBindings (moduleRequest : String) (scope : ModuleScope) :
    NamedImportBindings → ModuleScope
  | .namespaceImport node name =>
    (scope.setDecls ⟨name, .not⟩).update fun m => m.addStarImportEntry node name moduleRequest
  | .namedImports elements =>
    let scope := if elements.isEmpty then scope.update fun m => m.addEmptyImportEntry moduleRequest
      else scope
    elements.foldl (fun scope e => (scope.setDecls ⟨e.name, .imported⟩).update fun m =>
      m.addImportEntry e.node e.original e.name moduleRequest) scope

/-- `recordEcmaImportClause`. -/
def recordEcmaImportClause (moduleRequest : String) (scope : ModuleScope) (c : ImportClause) :
    ModuleScope :=
  let scope := c.name.elim scope fun name => (scope.setDecls ⟨name, .imported⟩).update fun m =>
    m.addImportEntry c.node "default" name moduleRequest
  c.namedBindings.elim scope (recordEcmaNamedBindings moduleRequest scope)

/-- `recordEcmaExportDecl`. -/
def recordEcmaExportDecl (m : SourceTextModuleRecord) (node : ℕ) :
    Option NamedExportBindings → Option String → Except DiagnosticError SourceTextModuleRecord
  | some .namespaceExport, some _ => .ok m
  | some (.namedExports elements), some moduleSpecifier =>
    let moduleRequest := normalize moduleSpecifier
    let m := if elements.isEmpty then m.addEmptyImportEntry moduleRequest else m
    .ok (elements.foldl (fun m e =>
      m.addIndirectExportEntry e.node e.original e.name moduleRequest) m)
  | none, some moduleSpecifier => .ok (m.addStarExportEntry node (normalize moduleSpecifier))
  | some (.namedExports elements), none =>
    .ok (elements.foldl (fun m e => m.addLocalExportEntry e.node e.name e.original) m)
  | _, none => .error .unreachable

/-- What `getTextOfIdentifierOrLiteral` makes of the name of a declaration. -/
def BindingName.text : BindingName → Option String
  | .identifier name => some name
  | .pattern _ => none

/-- `recordEcmaExportInfo`, of a function or class declaration. -/
def recordExportedDeclaration (m : SourceTextModuleRecord) (node : ℕ) (name : Option String) :
    Modifiers → Except DiagnosticError SourceTextModuleRecord
  | .none => .ok m
  | .exportDefault => .ok (m.addLocalExportEntry node "default" (some (name.getD "*default*")))
  | .export =>
    match name with
    | none => .error (.declaration_without_default_must_have_a_name node)
    | some name => .ok (m.addLocalExportEntry node name name)

/-- The `ModuleVarKind` of a declaration. -/
def moduleKind (isExport : Bool) : ModuleVarKind := if isExport then .exported else .not

/-- The declaration that `recordFuncDecl` adds; without a name there is none, unless it is
exported. -/
def funcDecls (modifiers : Modifiers) : Option String → List Decl
  | some name => [⟨name, moduleKind (modifiers ≠ .none)⟩]
  | none => if modifiers = .none then [] else [⟨"*default*", .exported⟩]

/-- `recordInfo`, for a statement of the module. -/
def recordStatement (scope : ModuleScope) : Statement → Except DiagnosticError ModuleScope
  | .importDeclaration none moduleSpecifier =>
    .ok (scope.update fun m => m.addEmptyImportEntry (normalize moduleSpecifier))
  | .importDeclaration (some c) moduleSpecifier =>
    .ok (recordEcmaImportClause (normalize moduleSpecifier) scope c)
  | .exportDeclaration node exportClause moduleSpecifier => do
    let m ← recordEcmaExportDecl normalize scope.module node exportClause moduleSpecifier
    .ok { scope with module := m }
  | .exportAssignment node =>
    .ok (scope.update fun m => m.addLocalExportEntry node "default" "*default*")
  | .variableStatement hasExport declarations =>
    let scope := if hasExport then scope.update fun m => declarations.foldl (fun m d =>
        m.addLocalExportEntry d.node d.name.text d.name.text) m
      else scope
    let names := declarations.flatMap fun d => d.name.boundNames
    .ok { scope with decls := scope.decls ++ names.map fun name => ⟨name, moduleKind hasExport⟩ }
  | .functionDeclaration node modifiers name => do
    let m ← recordExportedDeclaration scope.module node name modifiers
    .ok { decls := scope.decls ++ funcDecls modifiers name, module := m }
  | .classDeclaration node modifiers name => do
    let m ← recordExportedDeclaration scope.module node name modifiers
    let decls := name.toList.map fun name => ⟨name, moduleKind (modifiers ≠ .none)⟩
    .ok { decls := scope.decls ++ decls, module := m }
  | .other _ => .ok scope

def record (body : List Statement) : Except DiagnosticError ModuleScope :=
  body.foldlM (recordStatement normalize) .empty

end Recorder

namespace SourceTextModuleRecord

variable (m : SourceTextModuleRecord)

/-- The loop of `makeIndirectExportsExplicit` over the entries of a name: those that stay, and those
that become indirect. -/
def splitEntries : List Entry → List Entry × List Entry
  | [] => ([], [])
  | e :: entries =>
    let (stay, move) := splitEntries entries
    match e.localName.bind fun name => m.regularImportEntries.lookup name with
    | some i => (stay,
        { e with importName := i.importName, moduleRequest := i.moduleRequest, localName := none } ::
          move)
    | none => (e :: stay, move)

def makeIndirectExportsExplicit : SourceTextModuleRecord :=
  { m with
    localExportEntries := m.localExportEntries.map fun (name, entries) =>
      (name, (m.splitEntries entries).1)
    indirectExportEntries := m.indirectExportEntries ++
      m.localExportEntries.flatMap fun (_, entries) => (m.splitEntries entries).2 }

/-- `nextDuplicateExportEntry`: the names so far, and the candidate for an error. -/
def nextDuplicateExportEntry (candidate : Entry) :
    List (Option String) × Option Entry → List (Option String) × Option Entry
  | (names, current) =>
    if candidate.exportName ∉ names then (candidate.exportName :: names, current)
    else
      let current := current.getD candidate
      (names, if candidate.node > current.node then candidate else current)

def searchDuplicateExport : Option Entry :=
  (((m.localExportEntries.flatMap Prod.snd) ++ m.indirectExportEntries).foldl
    (fun s e => nextDuplicateExportEntry e s) ([], none)).2

/-- The first name that is exported and not declared. -/
def searchUndeclared (scope : ModuleScope) : Option (Option String × List Entry) :=
  m.localExportEntries.find? fun (name, _) => ¬ scope.hasDecl name ∧ name ≠ "*default*"

end SourceTextModuleRecord

/-- `validateModuleRecordEntries`. -/
def validateModuleRecordEntries (scope : ModuleScope) : Except DiagnosticError ModuleScope :=
  match scope.module.searchDuplicateExport with
  | some e => .error (.module_has_already_exported_a_member e.node e.exportName)
  | none =>
    match scope.module.searchUndeclared scope with
    | some (name, entries) => .error (.module_has_no_exported_member
        ((entries.head?.map Entry.node).getD 0) name)
    | none => .ok { scope with module := scope.module.makeIndirectExportsExplicit }

/-- `setExportedDecls`. -/
def setExportedDecls (scope : ModuleScope) : ModuleScope :=
  scope.module.localExportEntries.foldl (fun scope (name, _) => scope.setExportDecl name) scope

/-- `setModuleEnvironment`, for the module with this body. -/
def setModuleEnvironment (normalize : String → String) (body : List Statement) :
    Except DiagnosticError ModuleScope := do
  let scope ← record normalize body
  let scope ← validateModuleRecordEntries scope
  .ok (setExportedDecls scope)

end ArkTs2abc.Ts2panda.EcmaModule
