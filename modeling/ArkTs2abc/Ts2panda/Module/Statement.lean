import Mathlib.Data.List.Basic

/-!
# Module items and the entries that ECMAScript gives them

The statements at the top of a module, as far as imports, exports and declarations go,
and the tables of a Source Text Module Record as the language defines them: an export of
an imported binding is an indirect export, unless what is imported is a namespace.

`export * as m from "mod"` is no statement of the edition of the language that the
compiler is written for.

## Main definitions

* `Statement` — the statements of a module.
* `Module` — a module without early errors of its imports and exports.
* `importEntries`, `exportEntries` — `ImportEntries` and `ExportEntries` of a statement.
* `localExportEntries`, `indirectExportEntries`, `starExportEntries` — what the export
  entries of a module are sorted into.
-/

namespace ArkTs2abc.Ts2panda.EcmaModule

/-- An element of an import or export clause; a node is its position in the text. -/
structure Specifier where
  node : ℕ
  name : String
  propertyName : Option String
  deriving DecidableEq, Repr

/-- The name that the element is about on the other side. -/
def Specifier.original (s : Specifier) : String := s.propertyName.getD s.name

inductive NamedImportBindings where
  | namespaceImport (node : ℕ) (name : String)
  | namedImports (elements : List Specifier)
  deriving DecidableEq, Repr

structure ImportClause where
  node : ℕ
  name : Option String
  namedBindings : Option NamedImportBindings
  deriving DecidableEq, Repr

inductive NamedExportBindings where
  | namespaceExport
  | namedExports (elements : List Specifier)
  deriving DecidableEq, Repr

inductive BindingName where
  | identifier (name : String)
  /-- A binding pattern, with the names that it binds. -/
  | pattern (names : List String)
  deriving DecidableEq, Repr

def BindingName.boundNames : BindingName → List String
  | .identifier name => [name]
  | .pattern names => names

structure VariableDeclaration where
  node : ℕ
  name : BindingName
  deriving DecidableEq, Repr

inductive Modifiers where
  | none | export | exportDefault
  deriving DecidableEq, Repr

inductive Statement where
  | importDeclaration (importClause : Option ImportClause) (moduleSpecifier : String)
  | exportDeclaration (node : ℕ) (exportClause : Option NamedExportBindings)
      (moduleSpecifier : Option String)
  /-- `export default` of an expression. -/
  | exportAssignment (node : ℕ)
  | variableStatement (hasExport : Bool) (declarations : List VariableDeclaration)
  | functionDeclaration (node : ℕ) (modifiers : Modifiers) (name : Option String)
  | classDeclaration (node : ℕ) (modifiers : Modifiers) (name : Option String)
  /-- Any other statement, with the names of the `var` declarations inside. -/
  | other (varDeclaredNames : List String)
  deriving DecidableEq, Repr

/-- An entry of `ImportEntries`; without an import name it is for the namespace. -/
structure ImportEntry where
  moduleRequest : Option String
  importName : Option String
  localName : Option String
  deriving DecidableEq, Repr

/-- An entry of `ExportEntries`; without names it is a star export. -/
structure ExportEntry where
  exportName : Option String
  moduleRequest : Option String
  importName : Option String
  localName : Option String
  deriving DecidableEq, Repr

variable (normalize : String → String)

def NamedImportBindings.importEntries (moduleRequest : String) :
    NamedImportBindings → List ImportEntry
  | .namespaceImport _ name => [⟨some moduleRequest, none, some name⟩]
  | .namedImports elements => elements.map fun s => ⟨some moduleRequest, some s.original, some s.name⟩

def ImportClause.importEntries (moduleRequest : String) (c : ImportClause) : List ImportEntry :=
  c.name.toList.map (fun name => ⟨some moduleRequest, some "default", some name⟩) ++
    c.namedBindings.toList.flatMap (NamedImportBindings.importEntries moduleRequest)

/-- An entry for an export that names a local binding. -/
def ExportEntry.local (exportName localName : String) : ExportEntry :=
  ⟨some exportName, none, none, some localName⟩

namespace Statement

/-- `ImportEntries`. -/
def importEntries : Statement → List ImportEntry
  | .importDeclaration importClause moduleSpecifier =>
    importClause.toList.flatMap (ImportClause.importEntries (normalize moduleSpecifier))
  | _ => []

/-- The local name of a declaration that may have none. -/
def declaredName (name : Option String) : String := name.getD "*default*"

/-- The export of a function or class declaration. -/
def declarationEntries (name : Option String) : Modifiers → List ExportEntry
  | .none => []
  | .export => [.local (declaredName name) (declaredName name)]
  | .exportDefault => [.local "default" (declaredName name)]

/-- `ExportEntries`. -/
def exportEntries : Statement → List ExportEntry
  | .exportDeclaration _ none moduleSpecifier =>
    moduleSpecifier.toList.map fun m => ⟨none, some (normalize m), none, none⟩
  | .exportDeclaration _ (some .namespaceExport) _ => []
  | .exportDeclaration _ (some (.namedExports elements)) none =>
    elements.map fun s => .local s.name s.original
  | .exportDeclaration _ (some (.namedExports elements)) (some m) =>
    elements.map fun s => ⟨some s.name, some (normalize m), some s.original, none⟩
  | .exportAssignment _ => [.local "default" "*default*"]
  | .variableStatement true declarations =>
    (declarations.flatMap fun d => d.name.boundNames).map fun name => .local name name
  | .functionDeclaration _ modifiers name | .classDeclaration _ modifiers name =>
    declarationEntries name modifiers
  | _ => []

/-- The names declared in the scope of the module, those of imports aside. -/
def declaredNames : Statement → List String
  | .variableStatement _ declarations => declarations.flatMap fun d => d.name.boundNames
  | .functionDeclaration _ _ name | .classDeclaration _ _ name => name.toList
  | .other varDeclaredNames => varDeclaredNames
  | _ => []

/-- The declarations in the scope of the module, with whether the statement exports them. A
class without a name is not among them. -/
def declarations : Statement → List (String × Bool)
  | .variableStatement hasExport declarations =>
    (declarations.flatMap fun d => d.name.boundNames).map (·, hasExport)
  | .functionDeclaration _ .none name => name.toList.map (·, false)
  | .functionDeclaration _ _ name => [(declaredName name, true)]
  | .classDeclaration _ modifiers name => name.toList.map (·, modifiers ≠ .none)
  | s => ((s.importEntries normalize).filterMap ImportEntry.localName).map (·, false)

/-- The forms of the grammar. -/
def WellFormed : Statement → Prop
  | .exportDeclaration _ none moduleSpecifier => moduleSpecifier.isSome
  | .exportDeclaration _ (some .namespaceExport) _ => False
  | .functionDeclaration _ modifiers name | .classDeclaration _ modifiers name =>
    name = none → modifiers = .exportDefault
  | _ => True

end Statement

section Module

variable (body : List Statement)

def importEntries : List ImportEntry := body.flatMap (Statement.importEntries normalize)

def exportEntries : List ExportEntry := body.flatMap (Statement.exportEntries normalize)

/-- The entry that imports a binding, other than a namespace. -/
def importOf (e : ExportEntry) : Option ImportEntry :=
  (importEntries normalize body).find? fun i => i.localName = e.localName ∧ i.importName.isSome

def localExportEntries : List ExportEntry :=
  (exportEntries normalize body).filter fun e =>
    e.localName.isSome ∧ (importOf normalize body e).isNone

/-- `indirectExportEntries`: those from other modules, and those of imported bindings. -/
def indirectExportEntries : List ExportEntry :=
  (exportEntries normalize body).filterMap fun e =>
    if e.localName.isSome then
      (importOf normalize body e).map fun i => ⟨e.exportName, i.moduleRequest, i.importName, none⟩
    else if e.importName.isSome then some e
    else none

def starExportEntries : List ExportEntry :=
  (exportEntries normalize body).filter fun e => e.localName.isNone ∧ e.importName.isNone

/-- `ExportedNames`. -/
def exportedNames : List String := (exportEntries normalize body).filterMap ExportEntry.exportName

def importedNames : List (Option String) := (importEntries normalize body).map ImportEntry.localName

def declaredNames : List String := body.flatMap Statement.declaredNames

def declarations : List (String × Bool) := body.flatMap (Statement.declarations normalize)

end Module

/-- A module: its statements are of the grammar, no name is imported or exported twice, and
what is exported is declared. -/
structure Module where
  body : List Statement
  wellFormed : ∀ s ∈ body, s.WellFormed
  nodup_importedNames : (importedNames normalize body).Nodup
  nodup_exportedNames : (exportedNames normalize body).Nodup
  declared : ∀ e ∈ exportEntries normalize body, ∀ name, e.localName = some name →
    name = "*default*" ∨ some name ∈ importedNames normalize body ∨ name ∈ declaredNames body

end ArkTs2abc.Ts2panda.EcmaModule
