import ArkTs2abc.Ts2panda.Module.Actions
import Mathlib.Data.List.Induction
import Mathlib.Data.List.Perm.Basic

/-!
# The tables of a module record

A table of the record is what the actions for it add, in their order; of the local exports,
which are kept by local name, up to the order. An entry has the index of its module request,
which stays that of the same request when others are added.

## Main results

* `tables_run`, `decls_run` — the tables and the declarations, when some actions are done.
-/

namespace ArkTs2abc.Ts2panda.EcmaModule

open scoped List

/-- The import entry that an entry of the record stands for. -/
def Entry.toImport (moduleRequests : List String) (e : Entry) : ImportEntry :=
  ⟨e.moduleRequest.bind (moduleRequests[·]?), e.importName, e.localName⟩

/-- The export entry that an entry of the record stands for. -/
def Entry.toExport (moduleRequests : List String) (e : Entry) : ExportEntry :=
  ⟨e.exportName, e.moduleRequest.bind (moduleRequests[·]?), e.importName, e.localName⟩

section MapSet

variable {α β : Type} [DecidableEq α]

theorem mapSet_of_notMem (key : α) (value : β) (l : List (α × β)) (h : key ∉ l.map Prod.fst) :
    mapSet key value l = l ++ [(key, value)] := by
  induction l with
  | nil => rfl
  | cons p l ih =>
    simp only [List.map_cons, List.mem_cons, not_or] at h
    simp [mapSet, Ne.symm h.1, ih h.2]

theorem mem_of_mem_mapSet {key : α} {value : β} {l : List (α × β)} {p : α × β}
    (h : p ∈ mapSet key value l) : p = (key, value) ∨ p ∈ l := by
  induction l with
  | nil => simpa [mapSet] using h
  | cons q l ih =>
    rw [mapSet] at h
    split at h <;> grind

theorem flatMap_mapSet_perm [BEq α] [LawfulBEq α] (key : α) (value : β) (l : List (α × List β)) :
    (mapSet key ((l.lookup key).getD [] ++ [value]) l).flatMap Prod.snd ~
      l.flatMap Prod.snd ++ [value] := by
  induction l with
  | nil => simp [mapSet]
  | cons p l ih =>
    obtain ⟨k, values⟩ := p
    by_cases h : k = key
    · subst h
      simpa [mapSet, List.lookup_cons] using (List.perm_append_singleton value _).symm.append_left values
    · have other : (key == k) = false := beq_false_of_ne (Ne.symm h)
      simpa [mapSet, h, List.lookup_cons, other] using ih.append_left values

end MapSet

theorem mem_of_lookup_eq_some {α β : Type} [BEq α] [LawfulBEq α] {key : α} {value : β} {l : List (α × β)}
    (h : l.lookup key = some value) : (key, value) ∈ l := by
  obtain ⟨l₁, l₂, rfl, -⟩ := List.lookup_eq_some_iff.1 h
  simp

namespace SourceTextModuleRecord

variable (m : SourceTextModuleRecord) (moduleRequest : String)

theorem addModuleRequest_eq :
    ∃ requests, (m.addModuleRequest moduleRequest).2 = { m with moduleRequests := requests } ∧
      m.moduleRequests <+: requests ∧
      requests[(m.addModuleRequest moduleRequest).1]? = some moduleRequest := by
  unfold addModuleRequest
  split
  · next index found =>
    obtain ⟨bound, found, -⟩ := List.idxOf?_eq_some_iff.1 found
    exact ⟨_, rfl, List.prefix_rfl, List.getElem?_eq_some_iff.2 ⟨bound, found⟩⟩
  · exact ⟨_, rfl, List.prefix_append _ _, by simp⟩

end SourceTextModuleRecord

theorem getElem?_of_prefix {requests requests' : List String} (h : requests <+: requests') {i : ℕ}
    {r : String} (found : requests[i]? = some r) : requests'[i]? = some r := by
  obtain ⟨more, rfl⟩ := h
  have bound : i < requests.length := (List.getElem?_eq_some_iff.1 found).1
  rw [List.getElem?_append_left bound, found]

theorem prefix_apply (scope : ModuleScope) (a : Action) :
    scope.module.moduleRequests <+: (a.apply scope).module.moduleRequests := by
  cases a with
  | decl d => exact List.prefix_rfl
  | localExportEntry node exportName localName => exact List.prefix_rfl
  | request r =>
    obtain ⟨requests, eq, grows, -⟩ := scope.module.addModuleRequest_eq r
    simpa [Action.apply, ModuleScope.update, SourceTextModuleRecord.addEmptyImportEntry, eq]
  | importEntry node importName localName r =>
    obtain ⟨requests, eq, grows, -⟩ := scope.module.addModuleRequest_eq r
    simpa [Action.apply, ModuleScope.update, SourceTextModuleRecord.addImportEntry, eq]
  | starImportEntry node localName r =>
    obtain ⟨requests, eq, grows, -⟩ := scope.module.addModuleRequest_eq r
    simpa [Action.apply, ModuleScope.update, SourceTextModuleRecord.addStarImportEntry, eq]
  | indirectExportEntry node importName exportName r =>
    obtain ⟨requests, eq, grows, -⟩ := scope.module.addModuleRequest_eq r
    simpa [Action.apply, ModuleScope.update, SourceTextModuleRecord.addIndirectExportEntry, eq]
  | starExportEntry node r =>
    obtain ⟨requests, eq, grows, -⟩ := scope.module.addModuleRequest_eq r
    simpa [Action.apply, ModuleScope.update, SourceTextModuleRecord.addStarExportEntry, eq]

attribute [local simp] Action.toImport Action.toNamespaceImport Action.toLocalExport
  Action.toIndirectExport Action.toStarExport List.filterMap_cons

/-- The tables of the record, when these actions are done. -/
structure Tables (requests : List String) (actions : List Action) (m : SourceTextModuleRecord) :
    Prop where
  regularImportEntries : m.regularImportEntries.map (Prod.map id (Entry.toImport requests)) =
    actions.filterMap Action.toImport
  namespaceImportEntries : m.namespaceImportEntries.map (Entry.toImport requests) =
    actions.filterMap Action.toNamespaceImport
  indirectExportEntries : m.indirectExportEntries.map (Entry.toExport requests) =
    actions.filterMap Action.toIndirectExport
  starExportEntries : m.starExportEntries.map (Entry.toExport requests) =
    actions.filterMap Action.toStarExport
  localExportEntries : (m.localExportEntries.flatMap Prod.snd).map (Entry.toExport requests) ~
    actions.filterMap Action.toLocalExport
  /-- A local name has entries, which are for it. -/
  keyed : ∀ p ∈ m.localExportEntries, p.2 ≠ [] ∧ ∀ e ∈ p.2, e.localName = p.1

theorem tables_empty (requests : List String) : Tables requests [] .empty := by
  constructor <;> simp [SourceTextModuleRecord.empty]

/-- What an action adds to one table leaves the others as they are. -/
theorem Tables.apply {requests : List String} {actions : List Action} {scope : ModuleScope}
    (tables : Tables requests actions scope.module) (a : Action)
    (fresh : ∀ i ∈ a.toImport, i.1 ∉ (actions.filterMap Action.toImport).map Prod.fst)
    (h : (a.apply scope).module.moduleRequests <+: requests) :
    Tables requests (actions ++ [a]) (a.apply scope).module := by
  obtain ⟨regular, namespaces, indirect, star, locals, keyed⟩ := tables
  cases a with
  | decl d => constructor <;> simpa [-Prod.forall, Action.apply, ModuleScope.setDecls]
  | request r =>
    obtain ⟨next, eq, -, -⟩ := scope.module.addModuleRequest_eq r
    constructor <;> simpa [-Prod.forall, Action.apply, ModuleScope.update, eq,
      SourceTextModuleRecord.addEmptyImportEntry]
  | importEntry node importName localName r =>
    obtain ⟨next, eq, -, found⟩ := scope.module.addModuleRequest_eq r
    have keys := congrArg (List.map Prod.fst) regular
    simp only [List.map_map] at keys
    have added := mapSet_of_notMem localName ⟨node, none, some localName, some importName,
      some (scope.module.addModuleRequest r).1⟩ scope.module.regularImportEntries
      (by simpa [← keys] using fresh _ rfl)
    clear fresh
    simp only [Action.apply, ModuleScope.update, SourceTextModuleRecord.addImportEntry, eq] at h
    have found := getElem?_of_prefix h found
    constructor <;> simpa [-Prod.forall, Action.apply, ModuleScope.update, eq,
      SourceTextModuleRecord.addImportEntry, added, Entry.toImport, found]
  | starImportEntry node localName r =>
    obtain ⟨next, eq, -, found⟩ := scope.module.addModuleRequest_eq r
    simp only [Action.apply, ModuleScope.update, SourceTextModuleRecord.addStarImportEntry, eq] at h
    have found := getElem?_of_prefix h found
    constructor <;> simpa [-Prod.forall, Action.apply, ModuleScope.update, eq,
      SourceTextModuleRecord.addStarImportEntry, Entry.toImport, found]
  | localExportEntry node exportName localName =>
    constructor
    case localExportEntries =>
      have added := (flatMap_mapSet_perm localName ⟨node, exportName, localName, none, none⟩
        scope.module.localExportEntries).map (Entry.toExport requests)
      rw [List.map_append] at added
      have both := added.trans (locals.append_right _)
      simpa [Action.apply, ModuleScope.update, SourceTextModuleRecord.addLocalExportEntry,
        Entry.toExport] using both
    case keyed =>
      intro p hp
      rcases mem_of_mem_mapSet hp with rfl | hp
      · refine ⟨by simp, fun e he => ?_⟩
        rcases List.mem_append.1 he with he | he
        · cases old : scope.module.localExportEntries.lookup localName with
          | none => simp [old] at he
          | some entries =>
            have he : e ∈ entries := by simpa [old] using he
            exact (keyed _ (mem_of_lookup_eq_some old)).2 e he
        · grind
      · exact keyed p hp
    all_goals simpa [Action.apply, ModuleScope.update, SourceTextModuleRecord.addLocalExportEntry]
  | indirectExportEntry node importName exportName r =>
    obtain ⟨next, eq, -, found⟩ := scope.module.addModuleRequest_eq r
    simp only [Action.apply, ModuleScope.update, SourceTextModuleRecord.addIndirectExportEntry, eq] at h
    have found := getElem?_of_prefix h found
    constructor <;> simpa [-Prod.forall, Action.apply, ModuleScope.update, eq,
      SourceTextModuleRecord.addIndirectExportEntry, Entry.toExport, found]
  | starExportEntry node r =>
    obtain ⟨next, eq, -, found⟩ := scope.module.addModuleRequest_eq r
    simp only [Action.apply, ModuleScope.update, SourceTextModuleRecord.addStarExportEntry, eq] at h
    have found := getElem?_of_prefix h found
    constructor <;> simpa [-Prod.forall, Action.apply, ModuleScope.update, eq,
      SourceTextModuleRecord.addStarExportEntry, Entry.toExport, found]

theorem tables_run (actions : List Action)
    (nodup : ((actions.filterMap Action.toImport).map Prod.fst).Nodup) {requests : List String}
    (h : (run .empty actions).module.moduleRequests <+: requests) :
    Tables requests actions (run .empty actions).module := by
  induction actions using List.reverseRecOn with
  | nil => exact tables_empty requests
  | append_singleton actions a ih =>
    rw [run_append] at h ⊢
    rw [List.filterMap_append, List.map_append, List.nodup_append] at nodup
    refine (ih nodup.1 ((prefix_apply _ a).trans h)).apply a (fun i hi mem => ?_) h
    have added : List.filterMap Action.toImport [a] = [i] := List.filterMap_cons_some hi
    exact nodup.2.2 _ mem i.1 (by simp [added]) rfl

theorem decls_run (actions : List Action) :
    (run .empty actions).decls = actions.filterMap Action.toDecl := by
  induction actions using List.reverseRecOn with
  | nil => rfl
  | append_singleton actions a ih =>
    rw [run_append, List.filterMap_append, ← ih]
    cases a <;>
      simp [Action.apply, ModuleScope.update, ModuleScope.setDecls, Action.toDecl, List.filterMap_cons]

end ArkTs2abc.Ts2panda.EcmaModule
