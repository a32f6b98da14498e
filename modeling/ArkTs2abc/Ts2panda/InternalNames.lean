import ArkTs2abc.Ts2panda.FunctionNames
import Mathlib.Data.List.Perm.Basic

/-!
# Which internal names are distinct

The place that defines a function always uses the name that the code is emitted under. Two
functions have two names unless one of them has a name in the program that the driver makes
up for another one: `default`, or a number between two `#` with or without a name after it.

## Main definitions

* `Program.plainName` — the name in the program, of a function that goes by it.
* `Program.InternalNames` — that names are distinct, and found again.
* `Program.NotMadeUp` — that no function goes by a name that is made up for another one.

## Main results

* `internalNames_iff` — the names are distinct exactly when none goes by a made up one.
* `not_internalNames_default` — a property `default` beside a default export without a name.
-/

namespace ArkTs2abc.Ts2panda.FunctionNames

open scoped List

section Driver

namespace CompilerDriver

/-- The driver when these functions have got their numbers. -/
def after (functions : List FunctionLike) : CompilerDriver :=
  ⟨functions.length + 1, ((functions.map FunctionLike.node).zipIdx 1).reverse⟩

theorem after_nil : after [] = init := rfl

theorem lookup_zipIdx_reverse_none {nodes : List ℕ} {node : ℕ} (h : node ∉ nodes) (n : ℕ) :
    (nodes.zipIdx n).reverse.lookup node = none := by
  rw [List.lookup_eq_none_iff]
  rintro ⟨m, k⟩ mem
  have mem : m ∈ nodes := List.fst_mem_of_mem_zipIdx (List.mem_reverse.1 mem)
  rw [bne_iff_ne]
  rintro rfl
  exact h mem

theorem lookup_zipIdx_reverse {nodes : List ℕ} (nodup : nodes.Nodup) {node k : ℕ}
    (h : nodes[k]? = some node) (n : ℕ) :
    (nodes.zipIdx n).reverse.lookup node = some (n + k) := by
  induction nodes generalizing n k with
  | nil => simp at h
  | cons a nodes ih =>
    rw [List.nodup_cons] at nodup
    rw [List.zipIdx_cons, List.reverse_cons, List.lookup_append]
    cases k with
    | zero =>
      obtain rfl : a = node := by simpa using h
      simp [lookup_zipIdx_reverse_none nodup.1]
    | succ k =>
      rw [List.getElem?_cons_succ] at h
      rw [ih nodup.2 h, Option.some_or, Nat.add_assoc, Nat.add_comm 1]

theorem getFuncId_after_of_notMem {functions : List FunctionLike} {f : FunctionLike}
    (h : f.node ∉ functions.map FunctionLike.node) :
    (after functions).getFuncId f.node = (functions.length + 1, after (functions ++ [f])) := by
  rw [getFuncId, after, lookup_zipIdx_reverse_none h]
  simp [after, List.zipIdx_append, Nat.add_comm]

theorem getFuncId_after {functions : List FunctionLike}
    (nodup : (functions.map FunctionLike.node).Nodup) {f : FunctionLike} {k : ℕ}
    (h : functions[k]? = some f) :
    (after functions).getFuncId f.node = (k + 1, after functions) := by
  have found : (functions.map FunctionLike.node)[k]? = some f.node := by simp [h]
  rw [getFuncId, after, lookup_zipIdx_reverse nodup found, Nat.add_comm]

theorem getFuncId_getFuncId (driver : CompilerDriver) (node : ℕ) :
    (driver.getFuncId node).2.getFuncId node = driver.getFuncId node := by
  unfold getFuncId
  cases h : driver.funcIdMap.lookup node <;> simp [h]

end CompilerDriver

end Driver

section Numbered

theorem toList_numbered (id : ℕ) (name : String) :
    (numbered id name).toList = '#' :: (toString id).toList ++ '#' :: name.toList := by
  simp [numbered]

theorem isDigit_of_mem_toString {id : ℕ} {c : Char} (h : c ∈ (toString id).toList) : c.isDigit := by
  have h : c ∈ id.repr.toList := h
  rw [Nat.toList_repr] at h
  exact Nat.isDigit_of_mem_toDigits (by omega) (by omega) h

theorem toString_nat_inj {id id' : ℕ} (h : toString id = toString id') : id = id' := by
  have digits : Nat.toDigits 10 id = Nat.toDigits 10 id' := by
    rw [← Nat.toList_repr, ← Nat.toList_repr]
    exact congrArg String.toList h
  rw [← @Nat.ofDigitChars_toDigits 10 id (by omega) (by omega), digits,
    Nat.ofDigitChars_toDigits (by omega) (by omega)]

/-- The number is what stands before the second `#`. -/
theorem takeWhile_numbered (id : ℕ) (name : String) :
    (numbered id name).toList.tail.takeWhile (· ≠ '#') = (toString id).toList := by
  have digits : ∀ c ∈ (toString id).toList, decide (c ≠ '#') = true := by
    intro c hc
    have := isDigit_of_mem_toString hc
    rw [decide_eq_true_iff]
    rintro rfl
    exact absurd this (by decide)
  rw [toList_numbered, List.cons_append, List.tail_cons, List.takeWhile_append_of_pos digits]
  simp

theorem numbered_inj {id id' : ℕ} {name name' : String}
    (h : numbered id name = numbered id' name') : id = id' := by
  have digits := takeWhile_numbered id name
  rw [h, takeWhile_numbered] at digits
  exact toString_nat_inj (String.toList_inj.1 digits.symm)

theorem hasChar_numbered {c : Char} (digit : c.isDigit = false) (hash : c ≠ '#') (id : ℕ)
    (name : String) : hasChar c (numbered id name) = hasChar c name := by
  have other : c ∉ Nat.toDigits 10 id := by
    intro mem
    simp [Nat.isDigit_of_mem_toDigits (by omega) (by omega) mem] at digit
  simp [hasChar, toList_numbered, hash, other]

theorem numbered_ne {id : ℕ} {name other : String} (h : other.toList.head? ≠ some '#') :
    numbered id name ≠ other := by
  rintro rfl
  simp [toList_numbered] at h

end Numbered

namespace Program

variable (p : Program)

/-- How often a name is counted; `main` is once before the program is looked at. -/
def frequency (name : String) : ℕ :=
  p.functions.countP (fun f => funcName f = name) + if name = "main" then 1 else 0

/-- The name in the program, if the function goes by it. -/
def plainName (f : FunctionLike) : Option String :=
  match f.kind with
  | .constructor _ => none
  | .function _ _ _ _ =>
    if funcName f = "" ∨ funcName f = mainName ∨ 1 < p.frequency (funcName f) ∨
      hasChar '.' (funcName f) ∨ hasChar '\\' (funcName f) then none
    else some (funcName f)

end Program

/-- The name with a number that is made up for a function. -/
def numberedName (id : ℕ) (f : FunctionLike) : String :=
  match f.kind with
  | .constructor _ => numbered id (if hasChar '.' (funcName f) then "" else funcName f)
  | .function _ _ _ _ =>
    numbered id (if hasChar '.' (funcName f) ∨ hasChar '\\' (funcName f) then "" else funcName f)

namespace Program

variable (p : Program)

/-- Whether a function gets a number. -/
def isNumbered (f : FunctionLike) : Bool := (p.plainName f).isNone && !f.isDefault

/-- The functions that get a number, in their order. -/
def numberedFunctions : List FunctionLike := p.functions.filter p.isNumbered

/-- The number that is made up for a function. -/
def number (f : FunctionLike) : ℕ := p.numberedFunctions.idxOf f + 1

/-- The internal name. -/
def internalName (f : FunctionLike) : String :=
  (p.plainName f).getD (if f.isDefault then "default" else numberedName (p.number f) f)

section Frequency

theorem funcNameMap_recordFuncName (recorder : Recorder) (f : FunctionLike) {name : String}
    (hname : name ≠ "") :
    (recorder.recordFuncName f).funcNameMap name =
      if funcName f = name then some ((recorder.funcNameMap name).getD 0 + 1)
      else recorder.funcNameMap name := by
  unfold Recorder.recordFuncName
  by_cases h : funcName f = name
  · subst h
    cases old : recorder.funcNameMap (funcName f) <;> simp [hname, old]
  · rw [if_neg h]
    by_cases empty : funcName f = ""
    · simp [empty]
    · cases old : recorder.funcNameMap (funcName f) <;> simp [empty, old, Ne.symm h]

theorem funcNameMap_foldl (functions : List FunctionLike) (recorder : Recorder) {name : String}
    (hname : name ≠ "") :
    (functions.foldl Recorder.recordFuncName recorder).funcNameMap name =
      if functions.countP (fun f => funcName f = name) = 0 then recorder.funcNameMap name
      else some ((recorder.funcNameMap name).getD 0 +
        functions.countP fun f => funcName f = name) := by
  induction functions generalizing recorder with
  | nil => simp
  | cons f functions ih =>
    rw [List.foldl_cons, ih, List.countP_cons, funcNameMap_recordFuncName _ _ hname]
    by_cases h : funcName f = name
    · simp only [h, if_true, decide_true]
      split <;> simp_all
      omega
    · simp [h]

theorem funcNameMap_eq {f : FunctionLike} (mem : f ∈ p.functions) (hname : funcName f ≠ "") :
    p.recorder.funcNameMap (funcName f) = some (p.frequency (funcName f)) := by
  have found : p.functions.countP (fun g => funcName g = funcName f) ≠ 0 := by
    rw [← Nat.pos_iff_ne_zero, List.countP_pos_iff]
    exact ⟨f, mem, by simp⟩
  rw [recorder, funcNameMap_foldl _ _ hname, if_neg found, frequency, Nat.add_comm]
  by_cases main : funcName f = "main" <;> simp [Recorder.init, main]

theorem one_lt_frequency {f g : FunctionLike} (hf : f ∈ p.functions) (hg : g ∈ p.functions)
    (ne : f ≠ g) (same : funcName f = funcName g) : 1 < p.frequency (funcName f) := by
  have hg' : g ∈ p.functions.erase f := (List.mem_erase_of_ne (Ne.symm ne)).2 hg
  have both := (List.perm_cons_erase hf).trans ((List.perm_cons_erase hg').cons f)
  have count := both.countP_eq fun h => funcName h = funcName f
  rw [List.countP_cons, List.countP_cons] at count
  simp only [same, decide_true, if_true] at count
  rw [frequency, same, count]
  omega

end Frequency

section Names

variable {p} {f : FunctionLike}

attribute [simp] getFuncInternalName

/-- The internal name of a function of the program, which changes the driver only if the
function gets a number. -/
theorem getFuncInternalName_eq (mem : f ∈ p.functions) (driver : CompilerDriver) :
    getFuncInternalName p.recorder driver f =
      .ok (if p.isNumbered f then
          (numberedName (driver.getFuncId f.node).1 f, (driver.getFuncId f.node).2)
        else ((p.plainName f).getD "default", driver)) := by
  have dot (id : ℕ) := hasChar_numbered (c := '.') (by decide) (by decide) id (funcName f)
  have slash (id : ℕ) := hasChar_numbered (c := '\\') (by decide) (by decide) id (funcName f)
  have again := driver.getFuncId_getFuncId f.node
  rcases get : driver.getFuncId f.node with ⟨id, next⟩
  rw [get] at again
  cases kind : f.kind with
  | constructor parent =>
    have name : funcName f = getClassNameForConstructor parent := by simp [funcName, kind]
    rw [name] at dot
    by_cases period : hasChar '.' (getClassNameForConstructor parent) <;>
      simp_all [getInternalNameForCtor, isNumbered, plainName, FunctionLike.isDefault, numberedName]
  | function isDeclaration exportDefault name outerNode =>
    by_cases empty : funcName f = ""
    · cases default : isDefaultExport isDeclaration exportDefault outerNode <;>
        simp [kind, isNumbered, plainName, FunctionLike.isDefault, numberedName, empty, default, get, hasChar]
    · have freq := p.funcNameMap_eq mem empty
      by_cases main : funcName f = "func_main_0"
      · have noDot : hasChar '.' "func_main_0" = false := by decide
        have noSlash : hasChar '\\' "func_main_0" = false := by decide
        simp [kind, isNumbered, plainName, FunctionLike.isDefault, numberedName, main, mainName, get, noDot, noSlash]
      · by_cases often : 1 < p.frequency (funcName f) <;>
          by_cases period : hasChar '.' (funcName f) <;>
          by_cases backslash : hasChar '\\' (funcName f) <;>
          simp [kind, isNumbered, plainName, FunctionLike.isDefault, numberedName, empty, main, mainName, freq, often, get, again, dot, slash, period, backslash]

theorem getDefinitionName_eq (driver : CompilerDriver) (f : FunctionLike) :
    getDefinitionName p.recorder driver f = getFuncInternalName p.recorder driver f := by
  unfold getDefinitionName getFuncInternalName
  split <;> simp_all

theorem mem_numberedFunctions : f ∈ p.numberedFunctions ↔
    f ∈ p.functions ∧ p.isNumbered f :=
  List.mem_filter

theorem isNumbered_iff :
    p.isNumbered f ↔ p.plainName f = none ∧ f.isDefault = false := by
  simp [isNumbered]

theorem internalName_of_isNumbered (h : p.isNumbered f) :
    p.internalName f = numberedName (p.number f) f := by
  rw [isNumbered_iff] at h
  simp [internalName, h.1, h.2]

theorem internalName_of_not (h : ¬ p.isNumbered f) :
    p.internalName f = (p.plainName f).getD "default" := by
  rw [isNumbered_iff] at h
  rw [internalName]
  cases plain : p.plainName f <;> simp_all

theorem number_eq {before rest : List FunctionLike} (eq : p.functions = before ++ f :: rest)
    (h : p.isNumbered f) :
    p.number f = (before.filter p.isNumbered).length + 1 := by
  have nodup := p.nodup
  rw [eq, List.map_append, List.map_cons, List.nodup_middle, List.nodup_cons] at nodup
  have fresh : f ∉ before.filter p.isNumbered := fun mem =>
    nodup.1 (List.mem_append_left _ (List.mem_map_of_mem (List.mem_filter.1 mem).1))
  have functions : p.numberedFunctions =
      (before.filter p.isNumbered) ++ f :: rest.filter p.isNumbered := by
    rw [numberedFunctions, eq, List.filter_append]
    congr 1
    exact List.filter_cons_of_pos h
  rw [number, functions, List.idxOf_append_of_notMem fresh, List.idxOf_cons_self, Nat.add_zero]

/-- The code of the functions is emitted under their internal names, in their order. -/
theorem getNames_emit (before rest : List FunctionLike) (eq : p.functions = before ++ rest) :
    getNames (getFuncInternalName p.recorder) (.after (before.filter p.isNumbered)) rest =
      .ok (rest.map p.internalName, .after p.numberedFunctions) := by
  induction rest generalizing before with
  | nil =>
    rw [List.append_nil] at eq
    rw [← eq]
    rfl
  | cons f rest ih =>
    have mem : f ∈ p.functions := by simp [eq]
    have rest_eq := ih (before ++ [f]) (by simp [eq])
    rw [List.filter_append] at rest_eq
    rw [getNames, getFuncInternalName_eq mem]
    by_cases h : p.isNumbered f
    · have nodup := p.nodup
      rw [eq, List.map_append, List.map_cons, List.nodup_middle, List.nodup_cons] at nodup
      have fresh : f.node ∉ (before.filter p.isNumbered).map FunctionLike.node := by
        intro mem
        obtain ⟨g, hg, same⟩ := List.mem_map.1 mem
        exact nodup.1 (List.mem_append_left _ (same ▸ List.mem_map_of_mem (List.mem_filter.1 hg).1))
      have name : numberedName ((before.filter p.isNumbered).length + 1) f =
          p.internalName f := by
        rw [internalName_of_isNumbered h, number_eq eq h]
      rw [List.filter_cons_of_pos h, List.filter_nil] at rest_eq
      rw [if_pos h, CompilerDriver.getFuncId_after_of_notMem fresh, name]
      simp only [bind, Except.bind]
      rw [rest_eq]
      rfl
    · rw [List.filter_cons_of_neg h, List.filter_nil, List.append_nil] at rest_eq
      rw [if_neg h, ← internalName_of_not h]
      simp only [bind, Except.bind]
      rw [rest_eq]
      rfl

theorem getNames_define (uses : List FunctionLike) (mem : ∀ f ∈ uses, f ∈ p.functions) :
    p.define (.after p.numberedFunctions) uses =
      .ok (uses.map p.internalName, .after p.numberedFunctions) := by
  induction uses with
  | nil => rfl
  | cons f uses ih =>
    have rest_eq := ih fun g hg => mem g (List.mem_cons_of_mem f hg)
    rw [define] at rest_eq ⊢
    rw [getNames, getDefinitionName_eq, getFuncInternalName_eq (mem f List.mem_cons_self)]
    by_cases h : p.isNumbered f
    · have found : p.numberedFunctions[p.numberedFunctions.idxOf f]? = some f :=
        List.getElem?_idxOf (mem_numberedFunctions.2 ⟨mem f List.mem_cons_self, h⟩)
      have nodup : (p.numberedFunctions.map FunctionLike.node).Nodup :=
        p.nodup.sublist (List.filter_sublist.map _)
      rw [if_pos h, CompilerDriver.getFuncId_after nodup found, ← number,
        ← internalName_of_isNumbered h]
      simp only [bind, Except.bind]
      rw [rest_eq]
      rfl
    · rw [if_neg h, ← internalName_of_not h]
      simp only [bind, Except.bind]
      rw [rest_eq]
      rfl

/-- The names are distinct, and those that the places of definition use. -/
def InternalNames (p : Program) : Prop :=
  ∃ emitted driver, p.emit = .ok (emitted, driver) ∧ emitted.Nodup ∧
    ∀ uses : List FunctionLike, (∀ f ∈ uses, f ∈ p.functions) →
      ∃ used driver', p.define driver uses = .ok (used, driver') ∧
        ∀ (i j : ℕ) (f : FunctionLike), uses[i]? = some f → p.functions[j]? = some f →
          used[i]? = emitted[j]? ∧ used[i]?.isSome

/-- No function goes by a name in the program that is made up for another function. -/
structure NotMadeUp (p : Program) : Prop where
  default : ∀ f ∈ p.functions, ∀ g ∈ p.functions, g.isDefault → p.plainName f ≠ some "default"
  numbered : ∀ f ∈ p.functions, ∀ g ∈ p.functions, p.isNumbered g →
    p.plainName f ≠ some (numberedName (p.number g) g)

theorem emit_eq : p.emit =
    .ok (p.functions.map p.internalName ++ [mainName], .after p.numberedFunctions) := by
  have functions := getNames_emit [] p.functions rfl
  rw [List.filter_nil, CompilerDriver.after_nil] at functions
  rw [emit, functions]
  rfl

theorem internalNames_iff_nodup :
    p.InternalNames ↔ (p.functions.map p.internalName ++ [mainName]).Nodup := by
  constructor
  · rintro ⟨emitted, driver, eq, nodup, -⟩
    rw [emit_eq] at eq
    obtain ⟨rfl, -⟩ := Prod.mk.inj (Except.ok.inj eq)
    exact nodup
  · intro nodup
    refine ⟨_, _, emit_eq, nodup, fun uses mem => ⟨_, _, getNames_define uses mem, ?_⟩⟩
    intro i j f hi hj
    have bound : j < (p.functions.map p.internalName).length := by
      simpa using (List.getElem?_eq_some_iff.1 hj).1
    rw [List.getElem?_append_left bound]
    simp [hi, hj]

theorem plainName_eq_some {name : String} (h : p.plainName f = some name) :
    funcName f = name ∧ name ≠ mainName ∧ p.frequency name ≤ 1 := by
  unfold plainName at h
  split at h
  · cases h
  · split at h
    · cases h
    · grind

theorem exists_numberedName (id : ℕ) (f : FunctionLike) : ∃ name, numberedName id f = numbered id name := by
  unfold numberedName
  split <;> exact ⟨_, rfl⟩

theorem numberedName_ne (id : ℕ) (f : FunctionLike) {other : String}
    (h : other.toList.head? ≠ some '#') : numberedName id f ≠ other := by
  obtain ⟨name, eq⟩ := exists_numberedName id f
  rw [eq]
  exact numbered_ne h

theorem internalName_cases (f : FunctionLike) :
    (∃ name, p.plainName f = some name ∧ p.internalName f = name) ∨
    (p.plainName f = none ∧ f.isDefault ∧ p.internalName f = "default") ∨
    (p.isNumbered f ∧ p.internalName f = numberedName (p.number f) f) := by
  cases plain : p.plainName f with
  | some name => exact .inl ⟨name, rfl, by simp [internalName, plain]⟩
  | none =>
    cases default : f.isDefault with
    | true => exact .inr (.inl ⟨rfl, rfl, by simp [internalName, plain, default]⟩)
    | false =>
      have h : p.isNumbered f := isNumbered_iff.2 ⟨plain, default⟩
      exact .inr (.inr ⟨h, internalName_of_isNumbered h⟩)

theorem internalName_ne_mainName (f : FunctionLike) : p.internalName f ≠ mainName := by
  rcases p.internalName_cases f with ⟨name, plain, eq⟩ | ⟨-, -, eq⟩ | ⟨-, eq⟩
  · rw [eq]
    exact (plainName_eq_some plain).2.1
  · rw [eq]
    decide
  · rw [eq]
    exact numberedName_ne _ _ (by decide)

theorem plainName_of_isDefault (h : f.isDefault) : p.plainName f = none := by
  unfold FunctionLike.isDefault at h
  unfold plainName
  split at h
  · cases h
  · next kind =>
    rw [decide_eq_true_iff] at h
    simp [kind, h.1]

theorem number_inj {g : FunctionLike} (hf : f ∈ p.functions) (numbered : p.isNumbered f)
    (same : p.number f = p.number g) : f = g :=
  (List.idxOf_inj (mem_numberedFunctions.2 ⟨hf, numbered⟩)).1 (Nat.succ.inj same)

theorem NotMadeUp.internalName_inj (h : p.NotMadeUp) {g : FunctionLike} (hf : f ∈ p.functions)
    (hg : g ∈ p.functions) (same : p.internalName f = p.internalName g) : f = g := by
  rcases p.internalName_cases f with ⟨name, plain, eq⟩ | ⟨plain, default, eq⟩ | ⟨numbered, eq⟩ <;>
    rcases p.internalName_cases g with
      ⟨name', plain', eq'⟩ | ⟨plain', default', eq'⟩ | ⟨numbered', eq'⟩
  · -- a name that is found once belongs to one function
    by_contra ne
    obtain ⟨hname, -, once⟩ := plainName_eq_some plain
    obtain ⟨hname', -, -⟩ := plainName_eq_some plain'
    have often := p.one_lt_frequency hf hg ne (by rw [hname, hname', ← eq, ← eq', same])
    rw [hname] at often
    omega
  · exact absurd (by rw [plain, ← eq, same, eq']) (h.default f hf g hg default')
  · exact absurd (by rw [plain, ← eq, same, eq']) (h.numbered f hf g hg numbered')
  · exact absurd (by rw [plain', ← eq', ← same, eq]) (h.default g hg f hf default)
  · exact p.default f hf g hg default default'
  · exact absurd (by rw [← eq', ← same, eq]) (numberedName_ne (p.number g) g (by decide))
  · exact absurd (by rw [plain', ← eq', ← same, eq]) (h.numbered g hg f hf numbered)
  · exact absurd (by rw [← eq, same, eq']) (numberedName_ne (p.number f) f (by decide))
  · obtain ⟨name, hname⟩ := exists_numberedName (p.number f) f
    obtain ⟨name', hname'⟩ := exists_numberedName (p.number g) g
    have same_numbered : FunctionNames.numbered (p.number f) name =
        FunctionNames.numbered (p.number g) name' := by
      rw [← hname, ← hname', ← eq, ← eq', same]
    exact number_inj hf numbered (numbered_inj same_numbered)

end Names

/-- The internal names are distinct exactly when no function goes by a name that is made up. -/
theorem internalNames_iff (p : Program) : p.InternalNames ↔ p.NotMadeUp := by
  rw [internalNames_iff_nodup]
  have functions : p.functions.Nodup := p.nodup.of_map _
  constructor
  · intro nodup
    have distinct := List.inj_on_of_nodup_map (List.nodup_append.1 nodup).1
    refine ⟨fun f hf g hg default plain => ?_, fun f hf g hg numbered plain => ?_⟩
    · have name : p.internalName f = p.internalName g := by
        simp [internalName, plain, plainName_of_isDefault default, default]
      rw [distinct hf hg name, plainName_of_isDefault default] at plain
      cases plain
    · have name : p.internalName f = p.internalName g := by
        rw [internalName, plain, internalName_of_isNumbered numbered]
        rfl
      rw [distinct hf hg name, (isNumbered_iff.1 numbered).1] at plain
      cases plain
  · intro h
    refine List.nodup_append.2 ⟨?_, List.nodup_singleton _, ?_⟩
    · exact functions.map_on fun f hf g hg => h.internalName_inj hf hg
    · intro a ha b hb
      obtain ⟨f, -, rfl⟩ := List.mem_map.1 ha
      obtain rfl := List.mem_singleton.1 hb
      exact internalName_ne_mainName f

/-- `export default function () {}  ({ default: function () {} });` -/
def defaults : Program where
  functions := [⟨1, .function false false none (.propertyAssignment (some "default"))⟩,
    ⟨0, .function true true none .other⟩]
  nodup := by decide
  default := by decide

theorem not_internalNames_default : ¬ ∀ p : Program, p.InternalNames := by
  intro h
  obtain ⟨emitted, driver, eq, nodup, -⟩ := h defaults
  have names : defaults.emit.toOption.map Prod.fst =
      some ["default", "default", "func_main_0"] := by decide +kernel
  rw [eq] at names
  rw [show emitted = _ from Option.some.inj names] at nodup
  exact absurd nodup (by decide)

end Program

end ArkTs2abc.Ts2panda.FunctionNames
