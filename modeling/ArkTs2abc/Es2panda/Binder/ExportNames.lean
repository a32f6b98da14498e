import ArkTs2abc.Es2panda.Binder.ModuleScope
import Mathlib.Data.List.Nodup
import Mathlib.Tactic.Common

/-!
# The names that a module binds

A declaration binds the names that have no variable yet. What a scope holds at the end is told by the first
declaration of each name.

## Main definitions

* `fresh` — the names that come in for the first time.
* `noticedNames`, `Regular` — which exports the analysis comes across, and when these are all.
* `Adds` — what a declaration does to the bindings.

## Main results

* `parseItem_adds`, `parseItems_adds` — what an item and a module do to the scope.
-/

namespace ArkTs2abc.Es2panda.Binder

/-! ## What the analysis comes across -/

/-- The names an item binds, and whether it imports them by name. -/
def ModuleItem.bound : ModuleItem → List (String × Bool)
  | .declaration decl => decl.boundNames.map fun name => (name, false)
  | .blockVar name => [(name, false)]
  | .importDeclaration specifiers =>
    specifiers.map fun specifier => (specifier.localName, !specifier.isNamespace)
  | .exportDeclaration decl => decl.boundNames.map fun name => (name, false)
  | .exportDefault decl => [(decl.boundName, false)]
  | _ => []

/-- The names that are not bound yet, at their first occurrence. -/
def fresh : List String → List (String × Bool) → List (String × Bool)
  | _, [] => []
  | bound, (name, imported) :: names =>
    if name ∈ bound then fresh bound names else (name, imported) :: fresh (bound ++ [name]) names

/-- The names of an item that are found exported: not those of another module, nor those of local names
without a declaration, nor what was declared before. -/
def ModuleItem.noticedNames (declared bound : List String) : ModuleItem → List String
  | .exportAll exported => exported.toList
  | .exportNamed none specifiers =>
    (specifiers.filter fun specifier => specifier.localName ∈ declared).map ExportSpecifier.exported
  | .exportDeclaration decl => (fresh bound (decl.boundNames.map fun name => (name, false))).map Prod.fst
  | .exportDefault _ => ["default"]
  | _ => []

/-- The same for a list of items, behind those that bind the names `bound`. -/
def noticedNames (declared : List String) : List String → List ModuleItem → List String
  | _, [] => []
  | bound, item :: items => item.noticedNames declared bound ++
    noticedNames declared (bound ++ item.bound.map Prod.fst) items

/-- The first declaration of a local name in a list of exports is an import just if the name is imported,
exported declarations are the first ones of just the names that are not, and so is the default export. -/
def ModuleItem.Regular (names : List (String × Bool)) (imported bound : List String) : ModuleItem → Prop
  | .exportNamed none specifiers => ∀ specifier ∈ specifiers,
    names.lookup specifier.localName = some (decide (specifier.localName ∈ imported))
  | .exportDeclaration decl => ∀ name ∈ decl.boundNames, name ∈ bound ↔ name ∈ imported
  | .exportDefault decl => decl.boundName ∉ imported
  | _ => True

/-- This for the items behind those that bind the names `bound`. -/
def RegularItems (names : List (String × Bool)) (imported : List String) :
    List String → List ModuleItem → Prop
  | _, [] => True
  | bound, item :: items => item.Regular names imported bound ∧
    RegularItems names imported (bound ++ item.bound.map Prod.fst) items

def Regular (items : List ModuleItem) : Prop :=
  RegularItems (items.flatMap ModuleItem.bound) (items.flatMap ModuleItem.importedNames) [] items

/-! ## Names that are bound for the first time -/

variable {bound : List String} {name : String} {names : List (String × Bool)}

attribute [local simp] fresh in
theorem fresh_congr {bound' : List String} (h : ∀ name, name ∈ bound ↔ name ∈ bound')
    (names : List (String × Bool)) : fresh bound names = fresh bound' names := by
  induction names generalizing bound bound' with
  | nil => rfl
  | cons head names ih =>
    obtain ⟨name, imported⟩ := head
    have hname (n : String) : n ∈ bound ++ [name] ↔ n ∈ bound' ++ [name] := by simp [h]
    rw [fresh, fresh, ih h, ih hname]
    simp only [h]

theorem mem_fresh_names :
    name ∈ (fresh bound names).map Prod.fst ↔ name ∉ bound ∧ name ∈ names.map Prod.fst := by
  induction names generalizing bound with
  | nil => simp [fresh]
  | cons head names ih =>
    obtain ⟨n, imported⟩ := head
    rw [fresh]
    split_ifs with hn
    · rw [ih]
      grind
    · rw [List.map_cons, List.mem_cons, ih]
      grind

theorem fresh_append (bound : List String) (names names' : List (String × Bool)) :
    fresh bound (names ++ names') = fresh bound names ++ fresh (bound ++ names.map Prod.fst) names' := by
  induction names generalizing bound with
  | nil => simp [fresh]
  | cons head names ih =>
    obtain ⟨n, imported⟩ := head
    rw [List.cons_append, fresh, fresh]
    split_ifs with hn
    · rw [ih]
      congr 1
      apply fresh_congr
      grind
    · rw [ih, List.cons_append]
      simp

theorem lookup_fresh (h : name ∉ bound) : (fresh bound names).lookup name = names.lookup name := by
  induction names generalizing bound with
  | nil => rfl
  | cons head names ih =>
    obtain ⟨n, imported⟩ := head
    rw [fresh, List.lookup_cons]
    by_cases hn : name = n
    · subst hn
      rw [if_neg h, List.lookup_cons]
      simp
    · have hne : (name == n) = false := by simpa using hn
      rw [hne]
      split_ifs
      · exact ih h
      · rw [List.lookup_cons, hne]
        exact ih (by simp [h, hn])

theorem fresh_eq_filter {names : List String} (h : names.Nodup) :
    (fresh bound (names.map fun name => (name, false))).map Prod.fst = names.filter (· ∉ bound) := by
  induction names generalizing bound with
  | nil => rfl
  | cons name names ih =>
    obtain ⟨hname, hnames⟩ := List.nodup_cons.mp h
    rw [List.map_cons, fresh]
    split_ifs with hbound
    · rw [ih hnames, List.filter_cons_of_neg (by simpa using hbound)]
    · rw [List.map_cons, ih hnames, List.filter_cons_of_pos (by simpa using hbound)]
      congr 1
      apply List.filter_congr
      intro n hn
      have hne : n ≠ name := by
        rintro rfl
        exact hname hn
      simp [hne]

/-! ## The bindings of a scope -/

def boundNames (bindings : VariableMap) : List String := bindings.map Prod.fst

/-- The names with what the analysis asks of their variables. -/
def flags (bindings : VariableMap) : List (String × Bool) :=
  bindings.map fun (name, v) => (name, v.isModuleVariable)

theorem flags_names (bindings : VariableMap) : (flags bindings).map Prod.fst = boundNames bindings := by
  rw [flags, List.map_map]
  rfl

theorem lookup_flags (bindings : VariableMap) (name : String) :
    (flags bindings).lookup name = (findLocal bindings name).map Variable.isModuleVariable := by
  induction bindings with
  | nil => rfl
  | cons head bindings ih =>
    obtain ⟨n, v⟩ := head
    rw [flags] at ih ⊢
    rw [findLocal] at ih ⊢
    rw [List.map_cons, List.lookup_cons, List.lookup_cons]
    cases name == n
    · exact ih
    · rfl

theorem lookup_isSome_iff :
    (names.lookup name).isSome ↔ name ∈ names.map Prod.fst := by
  induction names with
  | nil => simp
  | cons head names ih =>
    obtain ⟨n, imported⟩ := head
    rw [List.lookup_cons, List.map_cons, List.mem_cons]
    by_cases hn : name = n
    · simp [hn]
    · have hne : (name == n) = false := by simpa using hn
      rw [hne]
      simp [hn, ih]

variable {bindings : VariableMap}

theorem findLocal_isSome_iff :
    (findLocal bindings name).isSome ↔ name ∈ boundNames bindings := by
  rw [← flags_names, ← lookup_isSome_iff, lookup_flags, Option.isSome_map]

theorem flags_resetVariable (bindings : VariableMap) (name : String) (declType : DeclType) :
    flags (resetVariable bindings name declType) = flags bindings := by
  rw [flags, flags, resetVariable, List.map_map]
  apply List.map_congr_left
  rintro ⟨n, v⟩ -
  dsimp only [Function.comp]
  split <;> rfl

/-- A name comes in with its variable, unless it has one. -/
def Adds (bindings bindings' : VariableMap) (names : List (String × Bool)) : Prop :=
  flags bindings' = flags bindings ++ fresh (boundNames bindings) names

theorem adds_of_none (h : findLocal bindings name = none) (v : Variable) :
    Adds bindings (insertVariable bindings name v) [(name, v.isModuleVariable)] := by
  have hname : name ∉ boundNames bindings := by
    rw [← findLocal_isSome_iff, h]
    simp
  rw [Adds, fresh, if_neg hname, flags, insertVariable, List.map_append]
  rfl

variable {bindings' : VariableMap}

theorem adds_of_some {v : Variable} (h : findLocal bindings name = some v)
    (hflags : flags bindings' = flags bindings) (imported : Bool) :
    Adds bindings bindings' [(name, imported)] := by
  have hname : name ∈ boundNames bindings := by
    rw [← findLocal_isSome_iff, h]
    rfl
  rw [Adds, fresh, if_pos hname, hflags, fresh, List.append_nil]

theorem addVar_adds (h : addVar bindings name = some bindings') :
    Adds bindings bindings' [(name, false)] := by
  unfold addVar at h
  split at h
  next hnone =>
    cases h
    exact adds_of_none hnone _
  next v hv =>
    split at h
    · cases h
      exact adds_of_some hv (flags_resetVariable _ _ _) false
    · cases h
      exact adds_of_some hv rfl false
    · cases h

theorem addLocalVar_adds (h : addLocalVar bindings name = some bindings') :
    Adds bindings bindings' [(name, false)] := by
  unfold addLocalVar at h
  split at h
  next hnone =>
    cases h
    exact adds_of_none hnone _
  next v hv =>
    split at h
    · cases h
      exact adds_of_some hv (flags_resetVariable _ _ _) false
    · cases h
      exact adds_of_some hv (flags_resetVariable _ _ _) false
    · cases h

theorem addFunction_adds (h : addFunction bindings name = some bindings') :
    findLocal bindings name = none ∧ Adds bindings bindings' [(name, false)] := by
  unfold addFunction at h
  split at h
  next hnone =>
    cases h
    exact ⟨hnone, adds_of_none hnone _⟩
  next => cases h

theorem addLexical_adds (h : addLexical bindings name = some bindings') :
    findLocal bindings name = none ∧ Adds bindings bindings' [(name, false)] := by
  unfold addLexical at h
  split at h
  next hnone =>
    cases h
    exact ⟨hnone, adds_of_none hnone _⟩
  next => cases h

theorem addImport_adds {specifier : ImportSpecifier}
    (h : addImport bindings specifier = some bindings') :
    Adds bindings bindings' [(specifier.localName, !specifier.isNamespace)] := by
  unfold addImport at h
  split at h
  next hnone =>
    cases h
    exact adds_of_none hnone _
  next v hv =>
    split at h
    · cases h
      exact adds_of_some hv rfl _
    · cases h

theorem Adds.mem_boundNames (h : Adds bindings bindings' names) (name : String) :
    name ∈ boundNames bindings' ↔ name ∈ boundNames bindings ++ names.map Prod.fst := by
  rw [← flags_names bindings', h, List.map_append, flags_names, List.mem_append, List.mem_append,
    mem_fresh_names]
  tauto

theorem Adds.trans {bindings'' : VariableMap} {names' : List (String × Bool)}
    (h : Adds bindings bindings' names) (h' : Adds bindings' bindings'' names') :
    Adds bindings bindings'' (names ++ names') := by
  rw [Adds, h', h, fresh_append, List.append_assoc, fresh_congr h.mem_boundNames]

theorem adds_nil (bindings : VariableMap) : Adds bindings bindings [] := by
  rw [Adds, fresh, List.append_nil]

theorem adds_of_foldlM {α : Type} {add : VariableMap → α → Option VariableMap}
    {name : α → String × Bool}
    (hadd : ∀ bindings x bindings', add bindings x = some bindings' → Adds bindings bindings' [name x])
    {xs : List α} (h : xs.foldlM add bindings = some bindings') :
    Adds bindings bindings' (xs.map name) := by
  induction xs generalizing bindings with
  | nil =>
    obtain rfl : bindings = bindings' := by simpa using h
    exact adds_nil bindings
  | cons x xs ih =>
    rw [List.foldlM_cons, Option.bind_eq_bind, Option.bind_eq_some_iff] at h
    obtain ⟨bindings₁, hx, hxs⟩ := h
    exact (hadd _ _ _ hx).trans (ih hxs)

theorem addDeclaration_adds {decl : Declaration} (h : addDeclaration bindings decl = some bindings') :
    Adds bindings bindings' (decl.boundNames.map fun name => (name, false)) := by
  cases decl with
  | var names => exact adds_of_foldlM (fun _ _ _ hadd => addVar_adds hadd) h
  | function name => exact (addFunction_adds h).2
  | lexical names =>
    have hadd (bindings : VariableMap) (name : String) (bindings' : VariableMap)
        (h : addLexical bindings name = some bindings') := (addLexical_adds h).2
    exact adds_of_foldlM hadd h

theorem Adds.newNames (h : Adds bindings bindings' names) :
    newNames bindings bindings' = (fresh (boundNames bindings) names).map Prod.fst := by
  have hnew (name : String) : (findLocal bindings name).isNone = decide (name ∉ boundNames bindings) := by
    rw [Bool.eq_iff_iff, decide_eq_true_iff, ← findLocal_isSome_iff, Option.isNone_iff_eq_none,
      Option.not_isSome_iff_eq_none]
  have hnames : bindings'.map Prod.fst =
      boundNames bindings ++ (fresh (boundNames bindings) names).map Prod.fst := by
    have hflags := congrArg (List.map Prod.fst) h
    rwa [flags_names, List.map_append, flags_names] at hflags
  rw [Binder.newNames, hnames, List.filter_append]
  simp only [hnew]
  rw [List.filter_eq_nil_iff.mpr (by simp), List.nil_append, List.filter_eq_self.mpr]
  intro name hname
  simpa using (mem_fresh_names.mp hname).1

/-! ## What the items leave -/

/-- What an item adds to `exports_`. -/
def ModuleItem.exportDecls (bound : List String) : ModuleItem → List (ExportNode × List ExportDecl)
  | .exportAll exported => [(.exportAll exported, [⟨exported.getD "*", "*"⟩])]
  | .exportNamed source specifiers =>
    [(.exportNamed source, specifiers.map fun specifier => ⟨specifier.exported, specifier.localName⟩)]
  | .exportDeclaration decl =>
    [(.exportNamed none, ((fresh bound (decl.boundNames.map fun name => (name, false))).map Prod.fst).map
      fun name => ⟨name, name⟩)]
  | .exportDefault decl => [(.exportDefault, [⟨"default", decl.boundName⟩])]
  | _ => []

def exportDecls : List String → List ModuleItem → List (ExportNode × List ExportDecl)
  | _, [] => []
  | bound, item :: items => item.exportDecls bound ++ exportDecls (bound ++ item.bound.map Prod.fst) items

theorem Adds.length (h : Adds bindings bindings' names) :
    bindings'.length = bindings.length + (fresh (boundNames bindings) names).length := by
  have hlength := congrArg List.length h
  rwa [List.length_append, flags, flags, List.length_map, List.length_map] at hlength

theorem fresh_of_none (h : findLocal bindings name = none) :
    fresh (boundNames bindings) [(name, false)] = [(name, false)] := by
  have hname : name ∉ boundNames bindings := by
    rw [← findLocal_isSome_iff, h]
    simp
  rw [fresh, if_neg hname, fresh]

variable {scope scope' : ModuleScope}

theorem bindExportDefault_named {saved : VariableMap} {decl : DefaultDeclaration}
    (hnone : findLocal saved name = none) (hadds : Adds saved scope.bindings [(name, false)])
    (h : bindExportDefault saved decl scope = some scope') :
    Adds saved scope'.bindings [(name, false)] ∧
      scope'.exports = scope.exports ++ [(ExportNode.exportDefault, [⟨"default", name⟩])] := by
  have hlength : scope.bindings.length ≠ saved.length := by
    rw [hadds.length, fresh_of_none hnone]
    simp
  rw [bindExportDefault, if_neg hlength] at h
  cases h
  refine ⟨hadds, ?_⟩
  rw [addExportDecl, hadds.newNames, fresh_of_none hnone]
  rfl

theorem bindExportDefault_anonymous {decl : DefaultDeclaration}
    (h : bindExportDefault scope.bindings decl scope = some scope') :
    Adds scope.bindings scope'.bindings [("*default*", false)] ∧
      scope'.exports = scope.exports ++ [(ExportNode.exportDefault, [⟨"default", "*default*"⟩])] := by
  rw [bindExportDefault, if_pos rfl, Option.bind_eq_bind, Option.bind_eq_some_iff] at h
  obtain ⟨bindings, hbindings, h⟩ := h
  cases h
  have hadds : findLocal scope.bindings "*default*" = none ∧
      Adds scope.bindings bindings [("*default*", false)] := by
    unfold addDefaultExport at hbindings
    split at hbindings
    · exact addFunction_adds hbindings
    · exact addLexical_adds hbindings
  refine ⟨hadds.2, ?_⟩
  rw [addExportDecl, hadds.2.newNames, fresh_of_none hadds.1]
  rfl

/-- What one item does to the scope. -/
theorem parseItem_adds {item : ModuleItem} (h : parseItem scope item = some scope') :
    Adds scope.bindings scope'.bindings item.bound ∧
      scope'.exports = scope.exports ++ item.exportDecls (boundNames scope.bindings) := by
  cases item with
  | declaration decl =>
    rw [parseItem, Option.bind_eq_bind, Option.bind_eq_some_iff] at h
    obtain ⟨bindings, hbindings, h⟩ := h
    cases h
    exact ⟨addDeclaration_adds hbindings, (List.append_nil _).symm⟩
  | blockVar name =>
    rw [parseItem, Option.bind_eq_bind, Option.bind_eq_some_iff] at h
    obtain ⟨bindings, hbindings, h⟩ := h
    cases h
    exact ⟨addLocalVar_adds hbindings, (List.append_nil _).symm⟩
  | importDeclaration specifiers =>
    rw [parseItem, Option.bind_eq_bind, Option.bind_eq_some_iff] at h
    obtain ⟨bindings, hbindings, h⟩ := h
    cases h
    exact ⟨adds_of_foldlM (fun _ _ _ hadd => addImport_adds hadd) hbindings, (List.append_nil _).symm⟩
  | exportAll exported =>
    cases h
    exact ⟨adds_nil _, rfl⟩
  | exportNamed source specifiers =>
    cases h
    exact ⟨adds_nil _, rfl⟩
  | exportDeclaration decl =>
    rw [parseItem, Option.bind_eq_bind, Option.bind_eq_some_iff] at h
    obtain ⟨bindings, hbindings, h⟩ := h
    cases h
    have hadds := addDeclaration_adds hbindings
    refine ⟨hadds, ?_⟩
    rw [bindExportDecl, addExportDecl, hadds.newNames]
    rfl
  | exportDefault decl =>
    rw [parseItem, Option.bind_eq_bind, Option.bind_eq_some_iff] at h
    obtain ⟨bindings, hbindings, h⟩ := h
    rcases decl with ⟨_ | name⟩ | ⟨_ | name⟩ | _
    · cases hbindings
      exact bindExportDefault_anonymous h
    · obtain ⟨hnone, hadds⟩ := addFunction_adds hbindings
      have hbind := bindExportDefault_named hnone hadds h
      exact hbind
    · cases hbindings
      exact bindExportDefault_anonymous h
    · obtain ⟨hnone, hadds⟩ := addLexical_adds hbindings
      have hbind := bindExportDefault_named hnone hadds h
      exact hbind
    · cases hbindings
      exact bindExportDefault_anonymous h

theorem ModuleItem.exportDecls_congr {bound' : List String}
    (h : ∀ name, name ∈ bound ↔ name ∈ bound') (item : ModuleItem) :
    item.exportDecls bound = item.exportDecls bound' := by
  cases item with
  | exportDeclaration decl => rw [exportDecls, exportDecls, fresh_congr h]
  | _ => rfl

theorem parseItems_adds {items : List ModuleItem}
    (hbound : ∀ name, name ∈ boundNames scope.bindings ↔ name ∈ bound)
    (h : items.foldlM parseItem scope = some scope') :
    Adds scope.bindings scope'.bindings (items.flatMap ModuleItem.bound) ∧
      scope'.exports = scope.exports ++ exportDecls bound items := by
  induction items generalizing scope bound with
  | nil =>
    obtain rfl : scope = scope' := by simpa using h
    exact ⟨adds_nil _, (List.append_nil _).symm⟩
  | cons item items ih =>
    rw [List.foldlM_cons, Option.bind_eq_bind, Option.bind_eq_some_iff] at h
    obtain ⟨scope₁, hitem, hitems⟩ := h
    obtain ⟨hadds, hexports⟩ := parseItem_adds hitem
    have hbound₁ (name : String) :
        name ∈ boundNames scope₁.bindings ↔ name ∈ bound ++ item.bound.map Prod.fst := by
      rw [hadds.mem_boundNames, List.mem_append, List.mem_append, hbound]
    obtain ⟨hadds', hexports'⟩ := ih hbound₁ hitems
    refine ⟨hadds.trans hadds', ?_⟩
    rw [hexports', hexports, exportDecls, List.append_assoc, ModuleItem.exportDecls_congr hbound]

end ArkTs2abc.Es2panda.Binder
