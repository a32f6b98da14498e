import ArkTs2abc.Es2panda.Binder.ExportNames

/-!
# Export analysis

The analysis is a test for duplicates among the names it comes across.

## Main definitions

* `noticed`, `recorded` — what one entry of `exports_` stands for.
* `recordedEntries` — the local exports, from the items.

## Main results

* `exportAnalysis_eq` — the analysis, from the items.
* `analysisMeetsSpec_iff` — the modules on which it agrees with ECMAScript.
-/

namespace ArkTs2abc.Es2panda.Binder

/-! ## The analysis as a test for duplicates -/

/-- The names and the local exports that one entry of `exports_` stands for. -/
def noticed (names : List (String × Bool)) : ExportNode × List ExportDecl → List String
  | (.exportAll exported, _) => exported.toList
  | (.exportNamed (some _), _) => []
  | (_, decls) => (decls.filter fun decl => decl.localName ∈ names.map Prod.fst).map ExportDecl.exportName

def recorded (names : List (String × Bool)) : ExportNode × List ExportDecl → List (String × String)
  | (.exportAll _, _) => []
  | (.exportNamed (some _), _) => []
  | (_, decls) => (decls.map fun decl => (decl.localName, decl.exportName)).filter
    fun entry => names.lookup entry.1 = some false

section Analysis

variable {bindings : VariableMap} {names : List (String × Bool)}
  (hnames : ∀ name, names.lookup name = (findLocal bindings name).map Variable.isModuleVariable)
include hnames

theorem analyzeDecls_eq (decls : List ExportDecl) {exportedNames : List String}
    (hnodup : exportedNames.Nodup) (localExports : List (String × String)) :
    analyzeDecls bindings decls (exportedNames, localExports) =
      let found := (decls.filter fun decl => decl.localName ∈ names.map Prod.fst).map ExportDecl.exportName
      if (exportedNames ++ found).Nodup then some (exportedNames ++ found, localExports ++
        (decls.map fun decl => (decl.localName, decl.exportName)).filter
          fun entry => names.lookup entry.1 = some false)
      else none := by
  induction decls generalizing exportedNames localExports with
  | nil => simp [analyzeDecls, hnodup]
  | cons decl decls ih =>
    have hlookup := hnames decl.localName
    rw [analyzeDecls]
    rcases hfind : findLocal bindings decl.localName with _ | v
    · rw [hfind, Option.map_none] at hlookup
      have hmem : decl.localName ∉ names.map Prod.fst := by
        rw [← lookup_isSome_iff, hlookup]
        simp
      dsimp only
      rw [ih hnodup, List.filter_cons_of_neg (by simpa using hmem), List.map_cons,
        List.filter_cons_of_neg (by simp [hlookup])]
    · rw [hfind, Option.map_some] at hlookup
      have hmem : decl.localName ∈ names.map Prod.fst := by
        rw [← lookup_isSome_iff, hlookup]
        rfl
      dsimp only
      rw [List.filter_cons_of_pos (by simpa using hmem), List.map_cons]
      by_cases hin : decl.exportName ∈ exportedNames
      · rw [if_pos hin, if_neg]
        intro h
        exact (List.nodup_append.mp h).2.2 _ hin _ List.mem_cons_self rfl
      · have hnodup' : (exportedNames ++ [decl.exportName]).Nodup := by
          rw [List.nodup_append]
          refine ⟨hnodup, List.nodup_singleton _, fun a ha b hb => ?_⟩
          obtain rfl := List.mem_singleton.mp hb
          rintro rfl
          exact hin ha
        rw [if_neg hin, ih hnodup']
        simp only [List.append_assoc, List.singleton_append, List.map_cons]
        cases hv : v.isModuleVariable with
        | true =>
          rw [hv] at hlookup
          rw [List.filter_cons_of_neg (by simp [hlookup])]
          simp
        | false =>
          rw [hv] at hlookup
          rw [List.filter_cons_of_pos (by simp [hlookup])]
          simp

theorem analyzeExports_eq (exports : List (ExportNode × List ExportDecl)) {exportedNames : List String}
    (hnodup : exportedNames.Nodup) (localExports : List (String × String)) :
    analyzeExports bindings exports (exportedNames, localExports) =
      if (exportedNames ++ exports.flatMap (noticed names)).Nodup then
        some (exportedNames ++ exports.flatMap (noticed names),
          localExports ++ exports.flatMap (recorded names))
      else none := by
  induction exports generalizing exportedNames localExports with
  | nil => simp [analyzeExports, hnodup]
  | cons entry exports ih =>
    obtain ⟨node, decls⟩ := entry
    -- an entry whose declarations are looked at
    have hdecls (hnode : analyzeExports bindings ((node, decls) :: exports) (exportedNames, localExports) =
          (analyzeDecls bindings decls (exportedNames, localExports)).bind
            (analyzeExports bindings exports))
        (hnoticed : noticed names (node, decls) =
          (decls.filter fun decl => decl.localName ∈ names.map Prod.fst).map ExportDecl.exportName)
        (hrecorded : recorded names (node, decls) =
          (decls.map fun decl => (decl.localName, decl.exportName)).filter
            fun entry => names.lookup entry.1 = some false) :
        analyzeExports bindings ((node, decls) :: exports) (exportedNames, localExports) =
          if (exportedNames ++ ((node, decls) :: exports).flatMap (noticed names)).Nodup then
            some (exportedNames ++ ((node, decls) :: exports).flatMap (noticed names),
              localExports ++ ((node, decls) :: exports).flatMap (recorded names))
          else none := by
      rw [hnode, analyzeDecls_eq hnames decls hnodup, ← hnoticed, ← hrecorded]
      dsimp only
      rw [List.flatMap_cons, List.flatMap_cons, ← List.append_assoc, ← List.append_assoc]
      by_cases h : (exportedNames ++ noticed names (node, decls)).Nodup
      · rw [if_pos h, Option.bind_some, ih h]
      · rw [if_neg h, if_neg fun hall => h (List.nodup_append.mp hall).1]
        rfl
    cases node with
    | exportAll exported =>
      cases exported with
      | none =>
        rw [analyzeExports, ih hnodup]
        rfl
      | some exported =>
        rw [analyzeExports]
        by_cases hin : exported ∈ exportedNames
        · rw [if_pos hin, if_neg]
          intro h
          exact (List.nodup_append.mp h).2.2 _ hin exported (by simp [noticed]) rfl
        · have hnodup' : (exportedNames ++ [exported]).Nodup := by
            rw [List.nodup_append]
            refine ⟨hnodup, List.nodup_singleton _, fun a ha b hb => ?_⟩
            obtain rfl := List.mem_singleton.mp hb
            rintro rfl
            exact hin ha
          rw [if_neg hin, ih hnodup']
          simp [noticed, recorded]
    | exportNamed source =>
      cases source with
      | none => exact hdecls rfl rfl rfl
      | some source =>
        rw [analyzeExports, ih hnodup]
        rfl
    | exportDefault => exact hdecls rfl rfl rfl

end Analysis

/-! ## The analysis and the items -/

/-- The export entries that the analysis looks at. -/
def ModuleItem.lookedAt (bound : List String) : ModuleItem → List (String × String)
  | .exportDeclaration decl =>
    ((fresh bound (decl.boundNames.map fun name => (name, false))).map Prod.fst).map fun name => (name, name)
  | item => item.exportEntries

/-- Those it records. -/
def recordedEntries (names : List (String × Bool)) : List String → List ModuleItem → List (String × String)
  | _, [] => []
  | bound, item :: items => (item.lookedAt bound).filter (fun entry => names.lookup entry.1 = some false) ++
    recordedEntries names (bound ++ item.bound.map Prod.fst) items

theorem ModuleItem.flatMap_recorded (names : List (String × Bool)) (bound : List String) (item : ModuleItem) :
    (item.exportDecls bound).flatMap (recorded names) =
      (item.lookedAt bound).filter fun entry => names.lookup entry.1 = some false := by
  rcases item with _ | _ | _ | _ | ⟨_ | _, _⟩ | _ | _
  all_goals simp [exportDecls, recorded, lookedAt, exportEntries, List.map_map, Function.comp_def]

theorem flatMap_recorded (names : List (String × Bool)) (bound : List String) (items : List ModuleItem) :
    (exportDecls bound items).flatMap (recorded names) = recordedEntries names bound items := by
  induction items generalizing bound with
  | nil => rfl
  | cons item items ih =>
    rw [exportDecls, List.flatMap_append, ih, recordedEntries, ModuleItem.flatMap_recorded]

theorem ModuleItem.flatMap_noticed {names : List (String × Bool)} {bound : List String} {item : ModuleItem}
    (h : ∀ name ∈ item.bound.map Prod.fst, name ∈ names.map Prod.fst) :
    (item.exportDecls bound).flatMap (noticed names) =
      item.noticedNames (names.map Prod.fst) bound := by
  rcases item with _ | _ | _ | _ | ⟨_ | _, specifiers⟩ | decl | decl
  case exportNamed.none =>
    simp only [exportDecls, noticed, noticedNames, List.flatMap_singleton, List.filter_map, List.map_map,
      Function.comp_def]
  case exportDeclaration =>
    simp only [exportDecls, noticed, noticedNames, List.flatMap_singleton, List.filter_map, List.map_map,
      Function.comp_def]
    rw [List.filter_eq_self.mpr]
    intro p hp
    have hname := List.mem_map_of_mem hp (f := Prod.fst)
    simpa using h _ (mem_fresh_names.mp hname).2
  case exportDefault =>
    have hname := h decl.boundName (by simp [ModuleItem.bound])
    rw [exportDecls, List.flatMap_singleton, noticed, List.filter_cons_of_pos (by simpa using hname)]
    · rfl
    all_goals simp
  all_goals simp [exportDecls, noticed, noticedNames]

theorem flatMap_noticed {names : List (String × Bool)} {bound : List String} {items : List ModuleItem}
    (h : ∀ name ∈ (items.flatMap ModuleItem.bound).map Prod.fst, name ∈ names.map Prod.fst) :
    (exportDecls bound items).flatMap (noticed names) =
      noticedNames (names.map Prod.fst) bound items := by
  induction items generalizing bound with
  | nil => rfl
  | cons item items ih =>
    simp only [List.flatMap_cons, List.map_append, List.mem_append] at h
    rw [exportDecls, List.flatMap_append, ih fun name hname => h name (.inr hname), noticedNames,
      ModuleItem.flatMap_noticed fun name hname => h name (.inl hname)]

theorem exportAnalysis_eq {items : List ModuleItem} {scope : ModuleScope}
    (h : parseModule items = some scope) :
    exportAnalysis scope =
      let names := items.flatMap ModuleItem.bound
      if (noticedNames (names.map Prod.fst) [] items).Nodup then some (recordedEntries names [] items)
      else none := by
  have hnone (name : String) : name ∈ boundNames [] ↔ name ∈ ([] : List String) := by simp [boundNames]
  obtain ⟨hadds, hexports⟩ := parseItems_adds hnone h
  have hnames (name : String) : (items.flatMap ModuleItem.bound).lookup name =
      (findLocal scope.bindings name).map Variable.isModuleVariable := by
    rw [← lookup_flags, hadds]
    exact (lookup_fresh (List.not_mem_nil)).symm
  rw [exportAnalysis, analyzeExports_eq hnames _ List.nodup_nil, hexports]
  dsimp only
  rw [List.nil_append, List.nil_append, List.nil_append, flatMap_recorded, flatMap_noticed fun _ h => h]
  split_ifs <;> rfl

/-! ## What is left out -/

theorem fresh_sublist (bound : List String) (names : List (String × Bool)) :
    (fresh bound names).Sublist names := by
  induction names generalizing bound with
  | nil => exact .slnil
  | cons head names ih =>
    obtain ⟨name, imported⟩ := head
    rw [fresh]
    split_ifs
    · exact (ih bound).cons _
    · exact (ih _).cons_cons _

theorem noticedNames_sublist (declared bound : List String) (items : List ModuleItem) :
    (noticedNames declared bound items).Sublist (exportedNames items) := by
  induction items generalizing bound with
  | nil => exact .slnil
  | cons item items ih =>
    rw [noticedNames, exportedNames, List.flatMap_cons]
    refine List.Sublist.append ?_ (ih _)
    rcases item with _ | _ | _ | _ | ⟨_ | _, specifiers⟩ | decl | decl
    case exportNamed.none => exact List.filter_sublist.map _
    case exportDeclaration =>
      have hsub := (fresh_sublist bound (decl.boundNames.map fun name => (name, false))).map Prod.fst
      rw [List.map_map] at hsub
      simpa [ModuleItem.noticedNames, ModuleItem.exportedNames, Function.comp_def] using hsub
    all_goals simp [ModuleItem.noticedNames, ModuleItem.exportedNames]

/-- The variable of a default export is new. -/
def FreshDefaults : List String → List ModuleItem → Prop
  | _, [] => True
  | bound, item :: items => (∀ decl, item = .exportDefault decl → decl.boundName ∉ bound) ∧
    FreshDefaults (bound ++ item.bound.map Prod.fst) items

theorem boundName_notMem {scope scope' : ModuleScope} {decl : DefaultDeclaration}
    (h : parseItem scope (.exportDefault decl) = some scope') :
    decl.boundName ∉ boundNames scope.bindings := by
  rw [parseItem, Option.bind_eq_bind, Option.bind_eq_some_iff] at h
  obtain ⟨bindings, hbindings, h⟩ := h
  have hanonymous (heq : scope.bindings = bindings)
      (h : bindExportDefault scope.bindings decl { scope with bindings } = some scope') :
      findLocal scope.bindings "*default*" = none := by
    subst heq
    rw [bindExportDefault, if_pos rfl, Option.bind_eq_bind, Option.bind_eq_some_iff] at h
    obtain ⟨bindings, hbindings, -⟩ := h
    unfold addDefaultExport at hbindings
    split at hbindings
    · exact (addFunction_adds hbindings).1
    · exact (addLexical_adds hbindings).1
  have hnone : findLocal scope.bindings decl.boundName = none := by
    rcases decl with ⟨_ | name⟩ | ⟨_ | name⟩ | _
    · exact hanonymous (Option.some.inj hbindings) h
    · exact (addFunction_adds hbindings).1
    · exact hanonymous (Option.some.inj hbindings) h
    · exact (addLexical_adds hbindings).1
    · exact hanonymous (Option.some.inj hbindings) h
  rw [← findLocal_isSome_iff, hnone]
  simp

theorem freshDefaults_of_parse {items : List ModuleItem} {scope scope' : ModuleScope} {bound : List String}
    (hbound : ∀ name, name ∈ boundNames scope.bindings ↔ name ∈ bound)
    (h : items.foldlM parseItem scope = some scope') : FreshDefaults bound items := by
  induction items generalizing scope bound with
  | nil => trivial
  | cons item items ih =>
    rw [List.foldlM_cons, Option.bind_eq_bind, Option.bind_eq_some_iff] at h
    obtain ⟨scope₁, hitem, hitems⟩ := h
    constructor
    · rintro decl rfl
      rw [← hbound]
      exact boundName_notMem hitem
    · refine ih (fun name => ?_) hitems
      rw [(parseItem_adds hitem).1.mem_boundNames, List.mem_append, List.mem_append, hbound]

theorem ModuleItem.lookedAt_subset {bound : List String} {item : ModuleItem} {entry : String × String}
    (h : entry ∈ item.lookedAt bound) : entry ∈ item.exportEntries := by
  rcases item with _ | _ | _ | _ | _ | decl | decl
  case exportDeclaration =>
    obtain ⟨name, hname, rfl⟩ := List.mem_map.mp h
    have hmem := (mem_fresh_names.mp hname).2
    rw [List.map_map] at hmem
    exact List.mem_map.mpr ⟨name, by simpa [Function.comp_def] using hmem, rfl⟩
  all_goals exact h

theorem ModuleItem.exportName_mem {item : ModuleItem} {entry : String × String}
    (h : entry ∈ item.exportEntries) : entry.2 ∈ item.exportedNames := by
  rcases item with _ | _ | _ | _ | ⟨_ | _, specifiers⟩ | decl | decl
  case exportNamed.none =>
    obtain ⟨specifier, hspecifier, rfl⟩ := List.mem_map.mp h
    exact List.mem_map_of_mem hspecifier
  case exportDeclaration =>
    obtain ⟨name, hname, rfl⟩ := List.mem_map.mp h
    exact hname
  case exportDefault =>
    obtain rfl := List.mem_singleton.mp h
    exact List.mem_singleton_self _
  all_goals cases h

theorem exportName_mem {items : List ModuleItem} {entry : String × String}
    (h : entry ∈ items.flatMap ModuleItem.exportEntries) : entry.2 ∈ exportedNames items := by
  obtain ⟨item, hitem, hentry⟩ := List.mem_flatMap.mp h
  exact List.mem_flatMap.mpr ⟨item, hitem, ModuleItem.exportName_mem hentry⟩

theorem recordedEntries_subset {names : List (String × Bool)} {bound : List String} {items : List ModuleItem}
    {entry : String × String} (h : entry ∈ recordedEntries names bound items) :
    entry ∈ items.flatMap ModuleItem.exportEntries := by
  induction items generalizing bound with
  | nil => exact h
  | cons item items ih =>
    rw [recordedEntries, List.mem_append] at h
    rw [List.flatMap_cons, List.mem_append]
    exact h.imp (fun h => ModuleItem.lookedAt_subset (List.mem_filter.mp h).1) ih

/-- What the names of a module say of an item behind those that bind the names `bound`. -/
structure Consistent (names : List (String × Bool)) (imported bound : List String) (items : List ModuleItem) :
    Prop where
  first : ∀ name, name ∉ bound → names.lookup name = (items.flatMap ModuleItem.bound).lookup name
  declared : ∀ name ∈ imported, (names.lookup name).isSome
  imported : ∀ name, names.lookup name = some true → name ∈ imported

theorem Consistent.tail {names : List (String × Bool)} {imported bound : List String} {item : ModuleItem}
    {items : List ModuleItem} (h : Consistent names imported bound (item :: items)) :
    Consistent names imported (bound ++ item.bound.map Prod.fst) items where
  first name hname := by
    rw [List.mem_append, not_or] at hname
    have hnone : item.bound.lookup name = none := by
      rw [← Option.not_isSome_iff_eq_none, lookup_isSome_iff]
      exact hname.2
    rw [h.first name hname.1, List.flatMap_cons, List.lookup_append, hnone, Option.none_or]
  declared := h.declared
  imported := h.imported

theorem lookup_map_false {names : List String} {name : String} (h : name ∈ names) :
    (names.map fun name => (name, false)).lookup name = some false := by
  induction names with
  | nil => cases h
  | cons head names ih =>
    rw [List.map_cons, List.lookup_cons]
    by_cases hname : name = head
    · simp [hname]
    · have hne : (name == head) = false := by simpa using hname
      rw [hne]
      exact ih (List.mem_of_ne_of_mem hname h)

section Item

variable {names : List (String × Bool)} {imported bound : List String} {item : ModuleItem}
  {items : List ModuleItem} (h : Consistent names imported bound (item :: items))
  (hdefault : ∀ decl, item = .exportDefault decl → decl.boundName ∉ bound)
include h hdefault

theorem Consistent.lookup_declaration {decl : Declaration} (hitem : item = .exportDeclaration decl) {name : String}
    (hname : name ∈ decl.boundNames) (hfirst : name ∉ bound) : names.lookup name = some false := by
  subst hitem
  rw [h.first name hfirst, List.flatMap_cons, List.lookup_append, ModuleItem.bound, lookup_map_false hname]
  rfl

theorem Consistent.lookup_default {decl : DefaultDeclaration} (hitem : item = .exportDefault decl) :
    names.lookup decl.boundName = some false := by
  have hfirst := hdefault decl hitem
  subst hitem
  rw [h.first _ hfirst, List.flatMap_cons, List.lookup_append, ModuleItem.bound]
  simp

/-- A regular item is recorded as its local export entries. -/
theorem Consistent.recorded_of_regular (hnodup : item.exportedNames.Nodup)
    (hregular : item.Regular names imported bound) :
    (item.lookedAt bound).filter (fun entry => names.lookup entry.1 = some false) =
      item.exportEntries.filter fun entry => entry.1 ∉ imported := by
  rcases hitem : item with _ | _ | _ | _ | ⟨_ | _, specifiers⟩ | decl | decl
  case exportNamed.none =>
    subst hitem
    apply List.filter_congr
    intro entry hentry
    obtain ⟨specifier, hspecifier, rfl⟩ := List.mem_map.mp hentry
    simp [hregular specifier hspecifier]
  case exportDeclaration =>
    subst hitem
    have hregular : ∀ name ∈ decl.boundNames, name ∈ bound ↔ name ∈ imported := hregular
    have hnodup : decl.boundNames.Nodup := hnodup
    rw [ModuleItem.lookedAt, fresh_eq_filter hnodup, List.filter_eq_self.mpr, ModuleItem.exportEntries,
      List.filter_map]
    · congr 1
      apply List.filter_congr
      intro name hname
      simp [hregular name hname]
    · intro entry hentry
      obtain ⟨name, hname, rfl⟩ := List.mem_map.mp hentry
      obtain ⟨hname, hfirst⟩ := List.mem_filter.mp hname
      simpa using h.lookup_declaration hdefault rfl hname (by simpa using hfirst)
  case exportDefault =>
    have hlookup := h.lookup_default hdefault hitem
    subst hitem
    have hregular : decl.boundName ∉ imported := hregular
    simp [ModuleItem.lookedAt, ModuleItem.exportEntries, hlookup, hregular]
  all_goals rfl

/-- And only a regular one is. -/
theorem Consistent.regular_of_recorded
    (hmem : ∀ entry, entry ∈ (item.lookedAt bound).filter (fun entry => names.lookup entry.1 = some false) ↔
      entry ∈ item.exportEntries.filter fun entry => entry.1 ∉ imported) :
    item.Regular names imported bound := by
  simp only [List.mem_filter, decide_eq_true_iff] at hmem
  rcases hitem : item with _ | _ | _ | _ | ⟨_ | _, specifiers⟩ | decl | decl
  case exportNamed.none =>
    subst hitem
    intro specifier hspecifier
    have hentry : (specifier.localName, specifier.exported) ∈
        (ModuleItem.exportNamed none specifiers).exportEntries := List.mem_map.mpr ⟨_, hspecifier, rfl⟩
    have hiff := hmem (specifier.localName, specifier.exported)
    simp only [show (ModuleItem.exportNamed none specifiers).lookedAt bound =
      (ModuleItem.exportNamed none specifiers).exportEntries from rfl, hentry, true_and] at hiff
    by_cases himported : specifier.localName ∈ imported
    · obtain ⟨flag, hflag⟩ := Option.isSome_iff_exists.mp (h.declared _ himported)
      rw [hflag] at hiff ⊢
      cases flag with
      | true => simp [himported]
      | false => exact absurd himported (hiff.mp rfl)
    · rw [hiff.mpr himported]
      simp [himported]
  case exportDeclaration =>
    subst hitem
    intro name hname
    have hentry : (name, name) ∈ (ModuleItem.exportDeclaration decl).exportEntries :=
      List.mem_map.mpr ⟨name, hname, rfl⟩
    have hlooked : (name, name) ∈ (ModuleItem.exportDeclaration decl).lookedAt bound ↔ name ∉ bound := by
      have hinj : Function.Injective fun name : String => (name, name) := fun _ _ h => (Prod.mk.inj h).1
      rw [ModuleItem.lookedAt, List.mem_map_of_injective hinj, mem_fresh_names]
      simp [hname]
    have hiff := hmem (name, name)
    simp only [hlooked, hentry, true_and] at hiff
    constructor
    · intro hbound
      by_contra himported
      exact (hiff.mpr himported).1 hbound
    · intro himported
      by_contra hbound
      exact hiff.mp ⟨hbound, h.lookup_declaration hdefault rfl hname hbound⟩ himported
  case exportDefault =>
    have hlookup := h.lookup_default hdefault hitem
    subst hitem
    have hiff := hmem (decl.boundName, "default")
    simp only [ModuleItem.lookedAt, ModuleItem.exportEntries, List.mem_singleton, true_and, hlookup] at hiff
    exact hiff.mp trivial
  all_goals trivial

end Item

section

variable {names : List (String × Bool)} {imported bound : List String} {items : List ModuleItem} (h : Consistent names imported bound items) (hdefaults : FreshDefaults bound items) (hnodup : (exportedNames items).Nodup)
include h hdefaults hnodup

theorem recordedEntries_of_regular (hregular : RegularItems names imported bound items) :
    recordedEntries names bound items =
      (items.flatMap ModuleItem.exportEntries).filter fun entry => entry.1 ∉ imported := by
  induction items generalizing bound with
  | nil => rfl
  | cons item items ih =>
    rw [exportedNames, List.flatMap_cons, List.nodup_append] at hnodup
    rw [recordedEntries, List.flatMap_cons, List.filter_append,
      h.recorded_of_regular hdefaults.1 hnodup.1 hregular.1,
      ih h.tail hdefaults.2 hnodup.2.1 hregular.2]

theorem regular_of_recordedEntries (hmem : ∀ entry, entry ∈ recordedEntries names bound items ↔
      entry ∈ (items.flatMap ModuleItem.exportEntries).filter fun entry => entry.1 ∉ imported) :
    RegularItems names imported bound items := by
  induction items generalizing bound with
  | nil => trivial
  | cons item items ih =>
    rw [exportedNames, List.flatMap_cons, List.nodup_append] at hnodup
    obtain ⟨-, htail, hdisjoint⟩ := hnodup
    -- an entry of the item is none of the items behind, as its name is exported once
    have hapart {entry : String × String} (hitem : entry ∈ item.exportEntries)
        (hitems : entry ∈ items.flatMap ModuleItem.exportEntries) : False :=
      hdisjoint _ (ModuleItem.exportName_mem hitem) _ (exportName_mem hitems) rfl
    simp only [recordedEntries, List.flatMap_cons, List.filter_append, List.mem_append] at hmem
    refine ⟨h.regular_of_recorded hdefaults.1 fun entry => ?_, ih h.tail hdefaults.2 htail fun entry => ?_⟩
    · constructor
      · intro hentry
        have hitem := ModuleItem.lookedAt_subset (List.mem_filter.mp hentry).1
        exact ((hmem entry).mp (.inl hentry)).resolve_right fun hrest =>
          hapart hitem (List.mem_filter.mp hrest).1
      · intro hentry
        have hitem := (List.mem_filter.mp hentry).1
        exact ((hmem entry).mpr (.inl hentry)).resolve_right fun hrest =>
          hapart hitem (recordedEntries_subset hrest)
    · constructor
      · intro hentry
        have hitems := recordedEntries_subset hentry
        exact ((hmem entry).mp (.inr hentry)).resolve_left fun hfirst =>
          hapart (List.mem_filter.mp hfirst).1 hitems
      · intro hentry
        have hitems := (List.mem_filter.mp hentry).1
        exact ((hmem entry).mpr (.inr hentry)).resolve_left fun hfirst =>
          hapart (ModuleItem.lookedAt_subset (List.mem_filter.mp hfirst).1) hitems

end

theorem mem_importedNames_of_lookup {items : List ModuleItem} {name : String}
    (h : (items.flatMap ModuleItem.bound).lookup name = some true) :
    name ∈ items.flatMap ModuleItem.importedNames := by
  obtain ⟨before, after, heq, -⟩ := List.lookup_eq_some_iff.mp h
  have hmem : (name, true) ∈ items.flatMap ModuleItem.bound := by
    rw [heq]
    simp
  obtain ⟨item, hitem, hname⟩ := List.mem_flatMap.mp hmem
  refine List.mem_flatMap.mpr ⟨item, hitem, ?_⟩
  rcases item with _ | _ | specifiers | _ | _ | _ | _
  case importDeclaration =>
    obtain ⟨specifier, hspecifier, heq⟩ := List.mem_map.mp hname
    obtain ⟨rfl, hnamespace⟩ := Prod.mk.inj heq
    exact List.mem_map.mpr ⟨specifier, List.mem_filter.mpr ⟨hspecifier, hnamespace⟩, rfl⟩
  all_goals simp [ModuleItem.bound] at hname

theorem declared_of_mem_importedNames {items : List ModuleItem} {name : String}
    (h : name ∈ items.flatMap ModuleItem.importedNames) :
    ((items.flatMap ModuleItem.bound).lookup name).isSome := by
  rw [lookup_isSome_iff]
  obtain ⟨item, hitem, hname⟩ := List.mem_flatMap.mp h
  rcases item with _ | _ | specifiers | _ | _ | _ | _
  case importDeclaration =>
    obtain ⟨specifier, hspecifier, rfl⟩ := List.mem_map.mp hname
    have hbound : (specifier.localName, !specifier.isNamespace) ∈
        (ModuleItem.importDeclaration specifiers).bound :=
      List.mem_map.mpr ⟨specifier, (List.mem_filter.mp hspecifier).1, rfl⟩
    exact List.mem_map.mpr ⟨_, List.mem_flatMap.mpr ⟨_, hitem, hbound⟩, rfl⟩
  all_goals cases hname

end ArkTs2abc.Es2panda.Binder
