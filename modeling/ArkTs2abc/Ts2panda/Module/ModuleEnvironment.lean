import ArkTs2abc.Ts2panda.Module.Entries
import Mathlib.Data.List.Nodup

/-!
# The environment of a module

The record of a module has the import and export entries of the language, and a declaration
is marked as exported when a local export entry is left for its name, under a condition on
the module that the language does not ask for.

An export of an imported binding is moved to the indirect export entries. Its name stays a
key of the local export entries, so the declaration of the import is marked as exported.

## Main definitions

* `Environment` — what the scope of a module has to be when its environment is set.
* `Markable` — the condition.

## Main results

* `setsEnvironment_iff` — the environment is set as it has to be exactly under the condition.
* `moduleRequests_eq` — the modules that are requested.
* `not_setsEnvironment_reexport` — it is not for a module that exports what it imports.
-/

namespace ArkTs2abc.Ts2panda.EcmaModule

open scoped List

variable (normalize : String → String)

/-- The scope of the module when its environment is set. -/
structure Environment (body : List Statement) (scope : ModuleScope) : Prop where
  importEntries : (scope.module.regularImportEntries.map Prod.snd ++
    scope.module.namespaceImportEntries).map (Entry.toImport scope.module.moduleRequests) ~
      importEntries normalize body
  localExportEntries : (scope.module.localExportEntries.flatMap Prod.snd).map
    (Entry.toExport scope.module.moduleRequests) ~ localExportEntries normalize body
  indirectExportEntries : scope.module.indirectExportEntries.map
    (Entry.toExport scope.module.moduleRequests) ~ indirectExportEntries normalize body
  starExportEntries : scope.module.starExportEntries.map
    (Entry.toExport scope.module.moduleRequests) ~ starExportEntries normalize body
  exported : ∀ d ∈ scope.decls, d.isModule = .exported ↔
    ∃ p ∈ scope.module.localExportEntries, p.1 = some d.name ∧ p.2 ≠ []
  /-- An imported binding is not accessed as a local variable of the module. -/
  imported : ∀ d ∈ scope.decls, ∀ i ∈ EcmaModule.importEntries normalize body,
    i.importName.isSome → i.localName = some d.name → d.isLocal = false

/-- The module compiles to its environment. -/
def SetsEnvironment (body : List Statement) : Prop :=
  ∃ scope, setModuleEnvironment normalize body = .ok scope ∧ Environment normalize body scope

/-- The module exports nothing by a binding pattern, nothing that a statement inside another
one declares, no imported binding, and no name of which a later declaration is not exported
itself. -/
structure Markable (body : List Statement) : Prop where
  identifiers : ∀ s ∈ body, s.ExportsIdentifiers
  declared : ∀ e ∈ exportEntries normalize body, ∀ name, e.localName = some name →
    name = "*default*" ∨ name ∈ (declarations normalize body).map Prod.fst
  notImported : ∀ e ∈ exportEntries normalize body, importOf normalize body e = none
  exported : (declarations normalize body).Pairwise fun earlier later =>
    later.1 = earlier.1 → (∃ e ∈ exportEntries normalize body, e.localName = some later.1) →
      later.2 = true

section Validate

namespace SourceTextModuleRecord

variable (m : SourceTextModuleRecord)

theorem nextDuplicateExportEntry_of_notMem {e : Entry} {names : List (Option String)}
    (current : Option Entry) (h : e.exportName ∉ names) :
    nextDuplicateExportEntry e (names, current) = (e.exportName :: names, current) := by
  simp [nextDuplicateExportEntry, h]

theorem nextDuplicateExportEntry_of_mem {e : Entry} {names : List (Option String)}
    (current : Option Entry) (h : e.exportName ∈ names) :
    ∃ found, nextDuplicateExportEntry e (names, current) = (names, some found) := by
  simp only [nextDuplicateExportEntry, h, not_true_eq_false, if_false]
  split <;> exact ⟨_, rfl⟩

theorem foldl_nextDuplicateExportEntry_some (l : List Entry) (names : List (Option String))
    (current : Entry) :
    (l.foldl (fun s e => nextDuplicateExportEntry e s) (names, some current)).2.isSome := by
  induction l generalizing names current with
  | nil => rfl
  | cons e l ih =>
    rw [List.foldl_cons]
    by_cases h : e.exportName ∈ names
    · obtain ⟨found, eq⟩ := nextDuplicateExportEntry_of_mem (some current) h
      rw [eq]
      exact ih names found
    · rw [nextDuplicateExportEntry_of_notMem _ h]
      exact ih _ current

theorem foldl_nextDuplicateExportEntry_eq_none (l : List Entry) (names : List (Option String)) :
    (l.foldl (fun s e => nextDuplicateExportEntry e s) (names, none)).2 = none ↔
      (l.map Entry.exportName).Nodup ∧ ∀ e ∈ l, e.exportName ∉ names := by
  induction l generalizing names with
  | nil => simp
  | cons e l ih =>
    rw [List.foldl_cons]
    by_cases h : e.exportName ∈ names
    · obtain ⟨found, eq⟩ := nextDuplicateExportEntry_of_mem none h
      have kept := foldl_nextDuplicateExportEntry_some l names found
      rw [eq, ← Option.not_isSome_iff_eq_none]
      simp [kept, h]
    · rw [nextDuplicateExportEntry_of_notMem _ h, ih]
      simp only [List.map_cons, List.nodup_cons, List.mem_map, List.mem_cons]
      grind

theorem searchDuplicateExport_eq_none :
    m.searchDuplicateExport = none ↔
      ((m.localExportEntries.flatMap Prod.snd ++ m.indirectExportEntries).map
        Entry.exportName).Nodup := by
  rw [searchDuplicateExport, foldl_nextDuplicateExportEntry_eq_none]
  simp

theorem searchUndeclared_eq_none (scope : ModuleScope) :
    m.searchUndeclared scope = none ↔
      ∀ p ∈ m.localExportEntries, scope.hasDecl p.1 ∨ p.1 = "*default*" := by
  simp only [searchUndeclared, List.find?_eq_none]
  grind

/-- The import that an entry is an export of. -/
def importEntryOf (e : Entry) : Option Entry :=
  e.localName.bind fun name => m.regularImportEntries.lookup name

theorem splitEntries_eq (entries : List Entry) :
    m.splitEntries entries =
      (entries.filter fun e => (m.importEntryOf e).isNone,
        entries.filterMap fun e => (m.importEntryOf e).map fun i =>
          { e with importName := i.importName, moduleRequest := i.moduleRequest, localName := none }) := by
  induction entries with
  | nil => rfl
  | cons e entries ih =>
    have eq : (e.localName.bind fun name => m.regularImportEntries.lookup name) =
      m.importEntryOf e := rfl
    cases h : m.importEntryOf e <;> simp [splitEntries, ih, eq, h]

end SourceTextModuleRecord

end Validate

section Marks

theorem foldl_setExport_cons (keys : List (Option String)) (d : Decl) (decls : List Decl) :
    keys.foldl (fun decls name => ModuleScope.setExport name decls) (d :: decls) =
      (if some d.name ∈ keys then { d with isModule := .exported } else d) ::
        (keys.filter (· ≠ some d.name)).foldl (fun decls name => ModuleScope.setExport name decls)
          decls := by
  induction keys generalizing d decls with
  | nil => rfl
  | cons key keys ih =>
    rw [List.foldl_cons, ModuleScope.setExport]
    by_cases h : some d.name = key
    · subst h
      simp [ih]
    · simp [h, ih, Ne.symm h]

theorem mem_foldl_setExport (keys : List (Option String)) (decls : List Decl) (d : Decl) :
    d ∈ keys.foldl (fun decls name => ModuleScope.setExport name decls) decls ↔
      ∃ before d₀ after, decls = before ++ d₀ :: after ∧
        d = if some d₀.name ∈ keys ∧ d₀.name ∉ before.map Decl.name then
            { d₀ with isModule := .exported } else d₀ := by
  induction decls generalizing keys with
  | nil =>
    have empty : keys.foldl (fun decls name => ModuleScope.setExport name decls) [] = [] := by
      induction keys with
      | nil => rfl
      | cons key keys ih => exact ih
    simp [empty]
  | cons a decls ih =>
    rw [foldl_setExport_cons, List.mem_cons, ih]
    constructor
    · rintro (rfl | ⟨before, d₀, after, rfl, rfl⟩)
      · exact ⟨[], a, decls, rfl, by simp⟩
      · exact ⟨a :: before, d₀, after, rfl, by grind⟩
    · rintro ⟨before, d₀, after, eq, rfl⟩
      cases before with
      | nil =>
        cases eq
        exact .inl (by simp)
      | cons b before =>
        cases eq
        exact .inr ⟨before, d₀, after, rfl, by grind⟩

theorem setExportedDecls_eq (scope : ModuleScope) :
    setExportedDecls scope = { scope with
      decls := (scope.module.localExportEntries.map Prod.fst).foldl
        (fun decls name => ModuleScope.setExport name decls) scope.decls } := by
  rw [setExportedDecls, List.foldl_map]
  generalize scope.module.localExportEntries = entries
  induction entries generalizing scope with
  | nil => rfl
  | cons p entries ih =>
    rw [List.foldl_cons, ih]
    rfl

end Marks

section Recorded

theorem lookup_map {α β γ : Type} [BEq α] (f : β → γ) (l : List (α × β)) (key : α) :
    (l.map (Prod.map id f)).lookup key = (l.lookup key).map f := by
  induction l with
  | nil => rfl
  | cons p l ih =>
    obtain ⟨k, value⟩ := p
    by_cases h : key == k <;> simp [List.lookup_cons, h, ih]

attribute [simp] Action.toImport

attribute [simp] Action.toImportEntry

theorem find?_importEntries (actions : List Action) (name : Option String) :
    ((actions.filterMap Action.toImportEntry).find? fun i =>
        i.localName = name ∧ i.importName.isSome) =
      name.bind fun name => (actions.filterMap Action.toImport).lookup name := by
  induction actions with
  | nil => cases name <;> rfl
  | cons a actions ih =>
    cases a with
    | importEntry node importName localName moduleRequest =>
      by_cases h : name = some localName
      · subst h
        simp
      · cases name with
        | none => simpa using ih
        | some name =>
          have other : (name == localName) = false := by simpa using h
          simpa [List.lookup_cons, other, Ne.symm h] using ih
    | _ =>
      simpa [Action.toNamespaceImport, List.filterMap_cons] using ih

variable {normalize} (M : Module normalize)

namespace Module

def actions : List Action := EcmaModule.actions normalize M.body

/-- The scope when the statements of the module are recorded. -/
def scope : ModuleScope := run .empty M.actions

/-- The requests of the module, which the indices in its record are into. -/
def requests : List String := M.scope.module.moduleRequests

theorem record_eq : record normalize M.body = .ok M.scope :=
  EcmaModule.record_eq normalize M.body M.wellFormed

theorem importEntries_perm :
    importEntries normalize M.body ~ (M.actions.filterMap Action.toImport).map Prod.snd ++
      M.actions.filterMap Action.toNamespaceImport := by
  rw [← importEntries_eq, List.map_filterMap]
  exact filterMap_or_perm _ _ (fun a => by cases a <;> simp [Action.toNamespaceImport]) _

theorem nodup_imports : ((M.actions.filterMap Action.toImport).map Prod.fst).Nodup := by
  have nodup : (importedNames normalize M.body).Nodup := M.nodup_importedNames
  rw [importedNames, (M.importEntries_perm.map _).nodup_iff, List.map_append] at nodup
  have names : ((M.actions.filterMap Action.toImport).map Prod.snd).map ImportEntry.localName =
      ((M.actions.filterMap Action.toImport).map Prod.fst).map some := by
    rw [List.map_map, List.map_map]
    refine List.map_congr_left fun i hi => ?_
    obtain ⟨a, -, ha⟩ := List.mem_filterMap.1 hi
    cases a <;> simp at ha
    simp [← ha]
  have regular := (List.nodup_append.1 nodup).1
  rw [names] at regular
  exact List.Nodup.of_map some regular

theorem tables : Tables M.requests M.actions M.scope.module :=
  tables_run M.actions M.nodup_imports List.prefix_rfl

/-- The names that have local export entries. -/
def keys : List (Option String) := M.scope.module.localExportEntries.map Prod.fst

theorem mem_keys {name : Option String} :
    name ∈ M.keys ↔ ∃ e ∈ M.actions.filterMap Action.toLocalExport, e.localName = name := by
  have perm := M.tables.localExportEntries
  have keyed := M.tables.keyed
  constructor
  · intro mem
    obtain ⟨p, hp, rfl⟩ := List.mem_map.1 mem
    obtain ⟨e, he⟩ := List.exists_mem_of_ne_nil _ (keyed p hp).1
    refine ⟨e.toExport M.requests, perm.subset ?_, (keyed p hp).2 e he⟩
    exact List.mem_map_of_mem (List.mem_flatMap_of_mem hp he)
  · rintro ⟨x, hx, rfl⟩
    obtain ⟨e, he, rfl⟩ := List.mem_map.1 (perm.symm.subset hx)
    obtain ⟨p, hp, hep⟩ := List.mem_flatMap.1 he
    exact List.mem_map.2 ⟨p, hp, ((keyed p hp).2 e hep).symm⟩

theorem importOf_eq (e : ExportEntry) :
    importOf normalize M.body e =
      (e.localName.bind fun name => M.scope.module.regularImportEntries.lookup name).map
        (Entry.toImport M.requests) := by
  have found := find?_importEntries M.actions e.localName
  rw [actions, importEntries_eq, ← actions, ← M.tables.regularImportEntries] at found
  rw [importOf, found]
  cases e.localName <;> simp [lookup_map]

/-- The export of an imported binding, as an export of what is imported. -/
def redirect (e : ExportEntry) : Option ExportEntry :=
  (importOf normalize M.body e).map fun i => ⟨e.exportName, i.moduleRequest, i.importName, none⟩

attribute [simp] Action.toLocalExport

theorem none_notMem_keys (identifiers : ∀ s ∈ M.body, s.ExportsIdentifiers) : none ∉ M.keys := by
  intro mem
  obtain ⟨e, he, hname⟩ := M.mem_keys.1 mem
  obtain ⟨a, ha, eq⟩ := List.mem_filterMap.1 he
  obtain ⟨s, hs, ha⟩ := List.mem_flatMap.1 ha
  cases a with
  | localExportEntry node exportName localName =>
    obtain rfl : localName = none := by simpa [← Option.some.inj eq] using hname
    exact (Statement.exportsIdentifiers_iff normalize s).1 (identifiers s hs) _ _ ha
  | _ => simp at eq

section Identifiers

variable (named : none ∉ M.keys)
include named

theorem exportsIdentifiers : ∀ s ∈ M.body, s.ExportsIdentifiers := by
  intro s hs
  refine (Statement.exportsIdentifiers_iff normalize s).2 fun node exportName mem => named ?_
  refine M.mem_keys.2 ⟨⟨exportName, none, none, none⟩, ?_, rfl⟩
  exact List.mem_filterMap.2 ⟨_, List.mem_flatMap_of_mem hs mem, rfl⟩

theorem exportEntries_eq :
    M.actions.filterMap Action.toExportEntry = exportEntries normalize M.body :=
  EcmaModule.exportEntries_eq normalize M.body M.wellFormed (M.exportsIdentifiers named)

theorem localName_isSome {a : Action} (ha : a ∈ M.actions) {e : ExportEntry}
    (he : a.toLocalExport = some e) : e.localName.isSome := by
  rw [Option.isSome_iff_ne_none]
  intro h
  exact named (M.mem_keys.2 ⟨e, List.mem_filterMap.2 ⟨a, ha, he⟩, h⟩)

attribute [simp] Action.toIndirectExport

theorem filter_localName :
    (exportEntries normalize M.body).filter (fun e => e.localName.isSome) =
      M.actions.filterMap Action.toLocalExport := by
  rw [← M.exportEntries_eq named, List.filter_filterMap]
  refine List.filterMap_congr fun a ha => ?_
  have some_name := @localName_isSome _ M named a ha
  cases a <;> simp_all [Action.toExportEntry, Action.toStarExport, Option.filter]

theorem filter_indirect :
    (exportEntries normalize M.body).filter (fun e => e.localName.isNone ∧ e.importName.isSome) =
      M.actions.filterMap Action.toIndirectExport := by
  rw [← M.exportEntries_eq named, List.filter_filterMap]
  refine List.filterMap_congr fun a ha => ?_
  have some_name := @localName_isSome _ M named a ha
  cases a <;> simp_all [Action.toExportEntry, Action.toStarExport, Option.filter]

theorem filter_star : starExportEntries normalize M.body =
    M.actions.filterMap Action.toStarExport := by
  rw [starExportEntries, ← M.exportEntries_eq named, List.filter_filterMap]
  refine List.filterMap_congr fun a ha => ?_
  have some_name := @localName_isSome _ M named a ha
  cases a <;> simp_all [Action.toExportEntry, Action.toStarExport, Option.filter]
  exact Option.isSome_iff_ne_none.1 some_name

theorem localExportEntries_eq : localExportEntries normalize M.body =
    (M.actions.filterMap Action.toLocalExport).filter
      fun e => (importOf normalize M.body e).isNone := by
  rw [← M.filter_localName named, List.filter_filter, localExportEntries]
  refine List.filter_congr fun e _ => ?_
  cases importOf normalize M.body e <;> simp

theorem indirectExportEntries_perm : indirectExportEntries normalize M.body ~
    M.actions.filterMap Action.toIndirectExport ++
      (M.actions.filterMap Action.toLocalExport).filterMap M.redirect := by
  have split := filterMap_or_perm
    (Option.guard fun e : ExportEntry => decide (e.localName.isNone ∧ e.importName.isSome))
    (fun e => if e.localName.isSome then M.redirect e else none)
    (fun e => by cases h : e.localName <;> simp [Option.guard, h])
    (exportEntries normalize M.body)
  rw [List.filterMap_eq_filter, M.filter_indirect named, ← List.filterMap_filter,
    M.filter_localName named] at split
  refine .trans (.of_eq (List.filterMap_congr fun e _ => ?_)) split
  cases h : e.localName <;> cases i : e.importName <;>
    simp [Option.guard, redirect, importOf, h, i]

end Identifiers

/-- The record when the exports of imported bindings are made explicit. -/
def explicit : SourceTextModuleRecord := M.scope.module.makeIndirectExportsExplicit

theorem importOf_toExport (e : Entry) :
    importOf normalize M.body (e.toExport M.requests) =
      (M.scope.module.importEntryOf e).map (Entry.toImport M.requests) :=
  M.importOf_eq (e.toExport M.requests)

attribute [simp] SourceTextModuleRecord.makeIndirectExportsExplicit

theorem explicit_localExportEntries :
    (M.explicit.localExportEntries.flatMap Prod.snd).map (Entry.toExport M.requests) ~
      (M.actions.filterMap Action.toLocalExport).filter
        fun e => (importOf normalize M.body e).isNone := by
  have stay : M.explicit.localExportEntries.flatMap Prod.snd =
      (M.scope.module.localExportEntries.flatMap Prod.snd).filter
        fun e => (M.scope.module.importEntryOf e).isNone := by
    simp [explicit, List.flatMap_map, List.filter_flatMap, SourceTextModuleRecord.splitEntries_eq]
  have perm := M.tables.localExportEntries.filter fun e => (importOf normalize M.body e).isNone
  rw [List.filter_map] at perm
  rw [stay]
  simpa [Function.comp_def, importOf_toExport] using perm

theorem explicit_indirectExportEntries :
    M.explicit.indirectExportEntries.map (Entry.toExport M.requests) ~
      M.actions.filterMap Action.toIndirectExport ++
        (M.actions.filterMap Action.toLocalExport).filterMap M.redirect := by
  have moved : M.explicit.indirectExportEntries = M.scope.module.indirectExportEntries ++
      (M.scope.module.localExportEntries.flatMap Prod.snd).filterMap fun e =>
        (M.scope.module.importEntryOf e).map fun i => { e with
          importName := i.importName, moduleRequest := i.moduleRequest, localName := none } := by
    simp [explicit, List.filterMap_flatMap, SourceTextModuleRecord.splitEntries_eq]
  have perm := M.tables.localExportEntries.filterMap M.redirect
  rw [List.filterMap_map] at perm
  rw [moved, List.map_append, M.tables.indirectExportEntries, List.map_filterMap]
  refine .append_left _ (.trans (.of_eq (List.filterMap_congr fun e _ => ?_)) perm)
  rw [Function.comp_apply, redirect, importOf_toExport, Option.map_map, Option.map_map]
  rfl

theorem remains_iff {name : String} :
    (∃ p ∈ M.explicit.localExportEntries, p.1 = some name ∧ p.2 ≠ []) ↔
      some name ∈ M.keys ∧ M.scope.module.regularImportEntries.lookup name = none := by
  have keyed := M.tables.keyed
  have import_eq {p : Option String × List Entry} (hp : p ∈ M.scope.module.localExportEntries)
      (hname : p.1 = some name) (e : Entry) (he : e ∈ p.2) :
      M.scope.module.importEntryOf e = M.scope.module.regularImportEntries.lookup name := by
    rw [SourceTextModuleRecord.importEntryOf, (keyed p hp).2 e he, hname, Option.bind_some]
  constructor
  · rintro ⟨p, hp, hname, left⟩
    obtain ⟨q, hq, rfl⟩ := List.mem_map.1 hp
    refine ⟨List.mem_map.2 ⟨q, hq, hname⟩, ?_⟩
    obtain ⟨e, he⟩ := List.exists_mem_of_ne_nil _ left
    simp only [SourceTextModuleRecord.splitEntries_eq, List.mem_filter,
      Option.isNone_iff_eq_none] at he
    rw [← import_eq hq hname e he.1, he.2]
  · rintro ⟨mem, notImported⟩
    obtain ⟨p, hp, hname⟩ := List.mem_map.1 mem
    obtain ⟨e, he⟩ := List.exists_mem_of_ne_nil _ (keyed p hp).1
    refine ⟨_, List.mem_map_of_mem hp, hname, List.ne_nil_of_mem (a := e) ?_⟩
    simp only [SourceTextModuleRecord.splitEntries_eq, List.mem_filter, Option.isNone_iff_eq_none]
    exact ⟨he, (import_eq hp hname e he).trans notImported⟩

/-- The scope when the environment is set. -/
def environment : ModuleScope := setExportedDecls { M.scope with module := M.explicit }

theorem environment_module : M.environment.module = M.explicit := by
  rw [environment, setExportedDecls_eq]

theorem environment_decls : M.environment.decls =
    M.keys.foldl (fun decls name => ModuleScope.setExport name decls) M.scope.decls := by
  rw [environment, setExportedDecls_eq]
  simp [explicit, keys, Function.comp_def]

theorem setModuleEnvironment_eq_ok {scope : ModuleScope} :
    setModuleEnvironment normalize M.body = .ok scope ↔
      M.scope.module.searchDuplicateExport = none ∧
        M.scope.module.searchUndeclared M.scope = none ∧ M.environment = scope := by
  rw [setModuleEnvironment, record_eq]
  simp only [bind, Except.bind, validateModuleRecordEntries]
  cases M.scope.module.searchDuplicateExport with
  | some e => simp
  | none =>
    cases M.scope.module.searchUndeclared M.scope with
    | some e => simp
    | none => simp [environment, explicit]

theorem declarations_eq :
    M.scope.decls.map (fun d => (d.name, d.isLocal)) = declarations normalize M.body := by
  rw [scope, decls_run, actions, EcmaModule.declarations_eq]

theorem hasDecl_iff {name : Option String} : M.scope.hasDecl name ↔
    ∃ n ∈ (declarations normalize M.body).map Prod.fst, some n = name := by
  rw [← declarations_eq, List.map_map]
  simp [ModuleScope.hasDecl]

theorem searchUndeclared_eq_none : M.scope.module.searchUndeclared M.scope = none ↔
    ∀ name ∈ M.keys, ∃ n, name = some n ∧
      (n = "*default*" ∨ n ∈ (declarations normalize M.body).map Prod.fst) := by
  rw [SourceTextModuleRecord.searchUndeclared_eq_none, keys]
  simp only [hasDecl_iff, List.forall_mem_map]
  refine forall₂_congr fun p _ => ?_
  cases p.1 <;> grind

theorem searchDuplicateExport_eq_none (named : none ∉ M.keys) :
    M.scope.module.searchDuplicateExport = none := by
  rw [SourceTextModuleRecord.searchDuplicateExport_eq_none]
  have views : ((M.scope.module.localExportEntries.flatMap Prod.snd ++
      M.scope.module.indirectExportEntries).map (Entry.toExport M.requests)) ~
      M.actions.filterMap fun a => a.toLocalExport.or a.toIndirectExport := by
    rw [List.map_append, M.tables.indirectExportEntries]
    refine (M.tables.localExportEntries.append_right _).trans (filterMap_or_perm _ _ ?_ _).symm
    intro a
    cases a <;> simp
  have names : (M.actions.filterMap fun a => a.toLocalExport.or a.toIndirectExport).map
      ExportEntry.exportName = (exportedNames normalize M.body).map some := by
    rw [exportedNames, ← M.exportEntries_eq named, List.filterMap_filterMap, List.map_filterMap,
      List.map_filterMap]
    refine List.filterMap_congr fun a ha => ?_
    cases a with
    | localExportEntry node exportName localName =>
      cases exportName with
      | some exportName => rfl
      | none =>
        obtain ⟨s, -, hs⟩ := List.mem_flatMap.1 ha
        obtain rfl := Statement.localName_eq_none normalize hs
        exact absurd (M.localName_isSome named ha rfl) (by simp)
    | _ => rfl
  have nodup := M.nodup_exportedNames.map fun _ _ => Option.some.inj
  rw [← names, ← (views.map _).nodup_iff, List.map_map] at nodup
  exact nodup

/-- No imported name is exported, and a later declaration of an exported name is itself. -/
structure Marks : Prop where
  notImported : ∀ name, some name ∈ M.keys →
    M.scope.module.regularImportEntries.lookup name = none
  exported : M.scope.decls.Pairwise fun earlier later =>
    later.name = earlier.name → some later.name ∈ M.keys → later.isModule = .exported

theorem environment_tables (named : none ∉ M.keys) :
    (M.explicit.regularImportEntries.map Prod.snd ++ M.explicit.namespaceImportEntries).map
      (Entry.toImport M.requests) ~ importEntries normalize M.body ∧
    (M.explicit.localExportEntries.flatMap Prod.snd).map (Entry.toExport M.requests) ~
      localExportEntries normalize M.body ∧
    M.explicit.indirectExportEntries.map (Entry.toExport M.requests) ~
      indirectExportEntries normalize M.body ∧
    M.explicit.starExportEntries.map (Entry.toExport M.requests) ~
      starExportEntries normalize M.body := by
  refine ⟨?_, ?_, ?_, ?_⟩
  · refine .trans (.of_eq ?_) M.importEntries_perm.symm
    rw [← M.tables.namespaceImportEntries, ← M.tables.regularImportEntries]
    simp [explicit]
  · rw [M.localExportEntries_eq named]
    exact M.explicit_localExportEntries
  · exact M.explicit_indirectExportEntries.trans (M.indirectExportEntries_perm named).symm
  · rw [M.filter_star named, ← M.tables.starExportEntries]
    exact .refl _

theorem exists_marked {name : String} (mem : some name ∈ M.keys)
    (declared : ∃ d ∈ M.scope.decls, d.name = name) :
    ∃ d ∈ M.environment.decls, d.name = name ∧ d.isModule = .exported := by
  have found : (M.scope.decls.find? fun d => d.name = name).isSome := by
    simpa [List.find?_isSome] using declared
  obtain ⟨d, hd⟩ := Option.isSome_iff_exists.1 found
  obtain ⟨hname, before, after, eq, first⟩ := List.find?_eq_some_iff_append.1 hd
  obtain rfl : d.name = name := by simpa using hname
  have fresh : d.name ∉ before.map Decl.name := by
    intro mem
    obtain ⟨b, hb, hb'⟩ := List.mem_map.1 mem
    simpa [hb'] using first b hb
  refine ⟨{ d with isModule := .exported }, ?_, rfl, rfl⟩
  rw [environment_decls, mem_foldl_setExport]
  exact ⟨before, d, after, eq, by rw [if_pos ⟨mem, fresh⟩]⟩

theorem exists_decl_of_import {name : String}
    (imported : M.scope.module.regularImportEntries.lookup name ≠ none) :
    ∃ d ∈ M.scope.decls, d.name = name := by
  obtain ⟨e, he⟩ := Option.ne_none_iff_exists'.1 imported
  have mem := List.mem_map_of_mem (f := Prod.map id (Entry.toImport M.requests))
    (mem_of_lookup_eq_some he)
  rw [M.tables.regularImportEntries] at mem
  obtain ⟨a, ha, eq⟩ := List.mem_filterMap.1 mem
  obtain ⟨s, hs, ha⟩ := List.mem_flatMap.1 ha
  cases a with
  | importEntry node importName localName moduleRequest =>
    obtain rfl : localName = name := by simpa using congrArg Prod.fst (Option.some.inj eq)
    refine ⟨⟨localName, .imported⟩, ?_, rfl⟩
    rw [scope, decls_run, mem_toDecl]
    exact List.mem_flatMap_of_mem hs (Statement.decl_mem_of_import normalize ha)
  | _ => simp at eq

section

variable (named : none ∉ M.keys)
include named

theorem mem_keys_of_exported {d : Decl} (mem : d ∈ M.scope.decls)
    (exported : d.isModule = .exported) : some d.name ∈ M.keys := by
  rw [scope, decls_run, mem_toDecl] at mem
  obtain ⟨s, hs, ha⟩ := List.mem_flatMap.1 mem
  obtain ⟨node, exportName, he⟩ := Statement.exists_localExport_of_exported normalize
    (M.wellFormed s hs) (M.exportsIdentifiers named s hs) ha exported
  refine M.mem_keys.2 ⟨⟨exportName, none, none, some d.name⟩, ?_, rfl⟩
  exact List.mem_filterMap.2 ⟨_, List.mem_flatMap_of_mem hs he, rfl⟩

theorem exported_iff :
    (∀ d ∈ M.environment.decls, d.isModule = .exported ↔
      some d.name ∈ M.keys ∧ M.scope.module.regularImportEntries.lookup d.name = none) ↔
        M.Marks := by
  rw [environment_decls]
  constructor
  · intro h
    have notImported : ∀ name, some name ∈ M.keys →
        M.scope.module.regularImportEntries.lookup name = none := by
      intro name mem
      by_contra imported
      obtain ⟨d, hd, rfl, marked⟩ := M.exists_marked mem (M.exists_decl_of_import imported)
      rw [environment_decls] at hd
      exact imported ((h d hd).1 marked).2
    refine ⟨notImported, List.pairwise_iff_getElem.2 fun i j hi hj lt same mem => ?_⟩
    -- a later declaration of a name is left as it was recorded
    have kept : M.scope.decls[j] ∈ M.keys.foldl
        (fun decls name => ModuleScope.setExport name decls) M.scope.decls := by
      refine (mem_foldl_setExport _ _ _).2 ⟨M.scope.decls.take j, M.scope.decls[j],
        M.scope.decls.drop (j + 1), by simp, ?_⟩
      have earlier : M.scope.decls[j].name ∈ (M.scope.decls.take j).map Decl.name :=
        List.mem_map.2 ⟨M.scope.decls[i], List.mem_take_iff_getElem.2 ⟨i, by omega, rfl⟩, same.symm⟩
      rw [if_neg fun h => h.2 earlier]
    exact (h _ kept).2 ⟨mem, notImported _ mem⟩
  · rintro ⟨notImported, exported⟩ d hd
    obtain ⟨before, d, after, eq, rfl⟩ := (mem_foldl_setExport _ _ _).1 hd
    have mem : d ∈ M.scope.decls := by simp [eq]
    split
    · next marked => exact ⟨fun _ => ⟨marked.1, notImported _ marked.1⟩, fun _ => rfl⟩
    · next unmarked =>
      constructor
      · intro h
        have key := M.mem_keys_of_exported named mem h
        exact ⟨key, notImported _ key⟩
      · rintro ⟨key, -⟩
        obtain ⟨b, hb, same⟩ := List.mem_map.1 (not_not.1 fun fresh => unmarked ⟨key, fresh⟩)
        rw [eq, List.pairwise_append] at exported
        exact exported.2.2 b hb d (by simp) same.symm key

theorem mem_keys_iff {name : String} : some name ∈ M.keys ↔
    ∃ e ∈ exportEntries normalize M.body, e.localName = some name := by
  rw [mem_keys, ← M.filter_localName named]
  simp only [List.mem_filter]
  constructor
  · rintro ⟨e, ⟨he, -⟩, hname⟩
    exact ⟨e, he, hname⟩
  · rintro ⟨e, he, hname⟩
    exact ⟨e, ⟨he, by simp [hname]⟩, hname⟩

theorem marks_iff : M.Marks ↔
    (∀ e ∈ exportEntries normalize M.body, importOf normalize M.body e = none) ∧
      (declarations normalize M.body).Pairwise fun earlier later => later.1 = earlier.1 →
        (∃ e ∈ exportEntries normalize M.body, e.localName = some later.1) → later.2 = true := by
  have pairs : (M.scope.decls.Pairwise fun earlier later =>
      later.name = earlier.name → some later.name ∈ M.keys → later.isModule = .exported) ↔
      (declarations normalize M.body).Pairwise fun earlier later => later.1 = earlier.1 →
        (∃ e ∈ exportEntries normalize M.body, e.localName = some later.1) → later.2 = true := by
    rw [← declarations_eq, List.pairwise_map]
    simp [Decl.isLocal, M.mem_keys_iff named]
  constructor
  · rintro ⟨notImported, exported⟩
    refine ⟨fun e he => ?_, pairs.1 exported⟩
    rw [importOf_eq]
    cases hname : e.localName with
    | none => rfl
    | some name => simp [notImported name ((M.mem_keys_iff named).2 ⟨e, he, hname⟩)]
  · rintro ⟨notImported, exported⟩
    refine ⟨fun name mem => ?_, pairs.2 exported⟩
    obtain ⟨e, he, hname⟩ := (M.mem_keys_iff named).1 mem
    simpa [importOf_eq, hname] using notImported e he

theorem environment_iff :
    Environment normalize M.body M.environment ↔ M.Marks := by
  obtain ⟨imports, locals, indirect, star⟩ := M.environment_tables named
  rw [← M.exported_iff named]
  constructor
  · intro env
    simpa only [environment_module, remains_iff] using env.exported
  · intro exported
    refine ⟨?_, ?_, ?_, ?_, ?_, ?_⟩
    · rwa [environment_module]
    · rwa [environment_module]
    · rwa [environment_module]
    · rwa [environment_module]
    · simpa only [environment_module, remains_iff] using exported
    · intro d hd i hi binding same
      by_contra isLocal
      have notImported := ((exported d hd).1 (by simpa [Decl.isLocal] using isLocal)).2
      have found := M.importOf_eq ⟨none, none, none, some d.name⟩
      rw [Option.bind_some, notImported, Option.map_none, importOf, List.find?_eq_none] at found
      simpa [binding, same] using found i hi

end

end Module

/-- `import {x} from "a"; export {x};` -/
def reexport : Module id where
  body := [.importDeclaration (some ⟨0, none, some (.namedImports [⟨1, "x", none⟩])⟩) "a",
    .exportDeclaration 2 (some (.namedExports [⟨3, "x", none⟩])) none]
  wellFormed := by simp [Statement.WellFormed]
  nodup_importedNames := by decide
  nodup_exportedNames := by decide
  declared := by decide

theorem moduleRequests_eq (M : Module normalize) (imports : ∀ s ∈ M.body, s.ImportsSome)
    {scope : ModuleScope} (h : setModuleEnvironment normalize M.body = .ok scope) :
    scope.module.moduleRequests =
      (M.body.flatMap (Statement.moduleRequests normalize)).eraseDups := by
  obtain ⟨-, -, rfl⟩ := M.setModuleEnvironment_eq_ok.1 h
  rw [M.environment_module, ← foldl_moduleRequests normalize M.body M.wellFormed imports]
  exact moduleRequests_run .empty _

theorem moduleRequests_eq_reexport : ∃ scope, setModuleEnvironment id reexport.body = .ok scope ∧
    scope.module.moduleRequests = ["a"] :=
  ⟨_, rfl, moduleRequests_eq reexport (by simp [reexport, Statement.ImportsSome]) rfl⟩

end Recorded

end ArkTs2abc.Ts2panda.EcmaModule
