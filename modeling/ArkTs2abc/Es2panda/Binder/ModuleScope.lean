import Mathlib.Data.Nat.Notation

/-!
# Module scopes

While a module is parsed, its scope collects the variables and, for each export declaration, the names
exported by it. At the end `ExportAnalysis` looks for a name that is exported twice and records which local
variables are exported. The extension is JS.

## Main definitions

* `parseModule` — what the scope holds at the end, from the items of a module.
* `exportAnalysis` — the analysis.
* `exportedNames`, `localExportEntries` — what ECMAScript says about the items.
* `AnalysisMeetsSpec` — that both agree.
-/

namespace ArkTs2abc.Es2panda.Binder

/-! ## Scopes -/

inductive DeclType where
  | var
  | func
  | lexical
  | imported
  deriving DecidableEq

structure Variable where
  declType : DeclType
  isModuleVariable : Bool

abbrev VariableMap := List (String × Variable)

def findLocal (bindings : VariableMap) (name : String) : Option Variable := bindings.lookup name

/-- A variable for a name that has none. -/
def insertVariable (bindings : VariableMap) (name : String) (v : Variable) : VariableMap :=
  bindings ++ [(name, v)]

def resetVariable (bindings : VariableMap) (name : String) (declType : DeclType) : VariableMap :=
  bindings.map fun (n, v) => if n = name then (n, { v with declType }) else (n, v)

def addVar (bindings : VariableMap) (name : String) : Option VariableMap :=
  match findLocal bindings name with
  | none => some (insertVariable bindings name ⟨.var, false⟩)
  | some v =>
    match v.declType with
    | .var => some (resetVariable bindings name .var)
    | .func => some bindings
    | _ => none

/-- A `var` inside a block, where the scope of the module is not the current one. -/
def addLocalVar (bindings : VariableMap) (name : String) : Option VariableMap :=
  match findLocal bindings name with
  | none => some (insertVariable bindings name ⟨.var, false⟩)
  | some v =>
    match v.declType with
    | .var | .func => some (resetVariable bindings name .var)
    | _ => none

def addFunction (bindings : VariableMap) (name : String) : Option VariableMap :=
  match findLocal bindings name with
  | none => some (insertVariable bindings name ⟨.func, false⟩)
  | some _ => none

def addLexical (bindings : VariableMap) (name : String) : Option VariableMap :=
  match findLocal bindings name with
  | none => some (insertVariable bindings name ⟨.lexical, false⟩)
  | some _ => none

structure ImportSpecifier where
  localName : String
  isNamespace : Bool

def addImport (bindings : VariableMap) (specifier : ImportSpecifier) : Option VariableMap :=
  match findLocal bindings specifier.localName with
  | none => some (insertVariable bindings specifier.localName ⟨.imported, !specifier.isNamespace⟩)
  | some v =>
    -- `insert` leaves the variable as it is
    if v.declType = .var then some bindings else none

/-! ## Modules -/

inductive Declaration where
  | var (names : List String)
  | function (name : String)
  /-- Names bound by `let`, `const` or `class`. -/
  | lexical (names : List String)

inductive DefaultDeclaration where
  | function (name : Option String)
  | classDeclaration (name : Option String)
  | expression

structure ExportSpecifier where
  localName : String
  exported : String

inductive ModuleItem where
  | declaration (decl : Declaration)
  | blockVar (name : String)
  | importDeclaration (specifiers : List ImportSpecifier)
  | exportAll (exported : Option String)
  | exportNamed (source : Option String) (specifiers : List ExportSpecifier)
  | exportDeclaration (decl : Declaration)
  | exportDefault (decl : DefaultDeclaration)

structure ExportDecl where
  exportName : String
  localName : String

/-- What `ExportAnalysis` asks of the node of an export declaration. -/
inductive ExportNode where
  | exportAll (exported : Option String)
  | exportNamed (source : Option String)
  | exportDefault

structure ModuleScope where
  bindings : VariableMap
  exports : List (ExportNode × List ExportDecl)

def addDeclaration (bindings : VariableMap) : Declaration → Option VariableMap
  | .var names => names.foldlM addVar bindings
  | .function name => addFunction bindings name
  | .lexical names => names.foldlM addLexical bindings

def addExportDecl (scope : ModuleScope) (node : ExportNode) (decls : List ExportDecl) : ModuleScope :=
  { scope with exports := scope.exports ++ [(node, decls)] }

/-- The names that came in since the bindings were saved. -/
def newNames (saved bindings : VariableMap) : List String :=
  (bindings.map Prod.fst).filter fun name => (findLocal saved name).isNone

/-- `BindExportDecl`, behind a declaration. -/
def bindExportDecl (saved : VariableMap) (scope : ModuleScope) : ModuleScope :=
  addExportDecl scope (.exportNamed none) ((newNames saved scope.bindings).map fun name => ⟨name, name⟩)

/-- The variable for what has no name. -/
def addDefaultExport (bindings : VariableMap) : DefaultDeclaration → Option VariableMap
  | .function _ => addFunction bindings "*default*"
  | _ => addLexical bindings "*default*"

/-- The same behind `default`. -/
def bindExportDefault (saved : VariableMap) (decl : DefaultDeclaration) (scope : ModuleScope) :
    Option ModuleScope := do
  let bindings ←
    if scope.bindings.length = saved.length then addDefaultExport scope.bindings decl
    else some scope.bindings
  some (addExportDecl { scope with bindings } .exportDefault
    ((newNames saved bindings).map fun name => ⟨"default", name⟩))

def addDefaultDeclaration (bindings : VariableMap) : DefaultDeclaration → Option VariableMap
  | .function (some name) => addFunction bindings name
  | .classDeclaration (some name) => addLexical bindings name
  | _ => some bindings

def parseItem (scope : ModuleScope) : ModuleItem → Option ModuleScope
  | .declaration decl => do
    let bindings ← addDeclaration scope.bindings decl
    some { scope with bindings }
  | .blockVar name => do
    let bindings ← addLocalVar scope.bindings name
    some { scope with bindings }
  | .importDeclaration specifiers => do
    let bindings ← specifiers.foldlM addImport scope.bindings
    some { scope with bindings }
  | .exportAll exported => some (addExportDecl scope (.exportAll exported) [⟨exported.getD "*", "*"⟩])
  | .exportNamed source specifiers =>
    some (addExportDecl scope (.exportNamed source)
      (specifiers.map fun specifier => ⟨specifier.exported, specifier.localName⟩))
  | .exportDeclaration decl => do
    let bindings ← addDeclaration scope.bindings decl
    some (bindExportDecl scope.bindings { scope with bindings })
  | .exportDefault decl => do
    let bindings ← addDefaultDeclaration scope.bindings decl
    bindExportDefault scope.bindings decl { scope with bindings }

/-- The scope of a module at its end, if no name is declared twice. -/
def parseModule (items : List ModuleItem) : Option ModuleScope := items.foldlM parseItem ⟨[], []⟩

/-! ## The analysis -/

/-- The loop over the names of one declaration, with the names exported and the local exports so far. -/
def analyzeDecls (bindings : VariableMap) :
    List ExportDecl → List String × List (String × String) → Option (List String × List (String × String))
  | [], state => some state
  | decl :: decls, (exportedNames, localExports) =>
    match findLocal bindings decl.localName with
    | none => analyzeDecls bindings decls (exportedNames, localExports)
    | some v =>
      if decl.exportName ∈ exportedNames then none
      else analyzeDecls bindings decls (exportedNames ++ [decl.exportName],
        if v.isModuleVariable then localExports else localExports ++ [(decl.localName, decl.exportName)])

def analyzeExports (bindings : VariableMap) : List (ExportNode × List ExportDecl) →
    List String × List (String × String) → Option (List String × List (String × String))
  | [], state => some state
  | (.exportAll none, _) :: exports, state => analyzeExports bindings exports state
  | (.exportAll (some exported), _) :: exports, (exportedNames, localExports) =>
    if exported ∈ exportedNames then none
    else analyzeExports bindings exports (exportedNames ++ [exported], localExports)
  | (.exportNamed (some _), _) :: exports, state => analyzeExports bindings exports state
  | (_, decls) :: exports, state => do
    let state ← analyzeDecls bindings decls state
    analyzeExports bindings exports state

/-- The local exports, each variable under its name, if no name is exported twice. -/
def exportAnalysis (scope : ModuleScope) : Option (List (String × String)) :=
  (analyzeExports scope.bindings scope.exports ([], [])).map Prod.snd

/-! ## ECMAScript -/

def Declaration.boundNames : Declaration → List String
  | .var names => names
  | .function name => [name]
  | .lexical names => names

def DefaultDeclaration.boundName : DefaultDeclaration → String
  | .function name => name.getD "*default*"
  | .classDeclaration name => name.getD "*default*"
  | .expression => "*default*"

def ModuleItem.exportedNames : ModuleItem → List String
  | .declaration _ => []
  | .blockVar _ => []
  | .importDeclaration _ => []
  | .exportAll exported => exported.toList
  | .exportNamed _ specifiers => specifiers.map ExportSpecifier.exported
  | .exportDeclaration decl => decl.boundNames
  | .exportDefault _ => ["default"]

def exportedNames (items : List ModuleItem) : List String := items.flatMap ModuleItem.exportedNames

/-- The export entries that name no other module: a local name and the name it is exported under. -/
def ModuleItem.exportEntries : ModuleItem → List (String × String)
  | .exportNamed none specifiers => specifiers.map fun specifier => (specifier.localName, specifier.exported)
  | .exportDeclaration decl => decl.boundNames.map fun name => (name, name)
  | .exportDefault decl => [(decl.boundName, "default")]
  | _ => []

/-- The names imported from another module, other than those of a whole module. -/
def ModuleItem.importedNames : ModuleItem → List String
  | .importDeclaration specifiers =>
    (specifiers.filter fun specifier => !specifier.isNamespace).map ImportSpecifier.localName
  | _ => []

/-- The entries that are not exports of what is imported. -/
def localExportEntries (items : List ModuleItem) : List (String × String) :=
  (items.flatMap ModuleItem.exportEntries).filter fun entry =>
    entry.1 ∉ items.flatMap ModuleItem.importedNames

/-- The analysis fails just if a name is exported twice, and records the local export entries else. -/
def AnalysisMeetsSpec (items : List ModuleItem) (scope : ModuleScope) : Prop :=
  (exportAnalysis scope = none ↔ ¬ (exportedNames items).Nodup) ∧
  ∀ localExports, exportAnalysis scope = some localExports →
    localExports.Perm (localExportEntries items)

end ArkTs2abc.Es2panda.Binder
