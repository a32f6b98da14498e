import ArkTs2abc.Es2panda.ObjectLiteral.Code

/-!
# Runs of the code of an object literal

The code of a property evaluates it as ECMAScript does, but for a computed key, which is converted to a
property key behind the value. What a run leaves behind is the definitions of its properties one after
the other.

## Main definitions

* `Property.lateEvaluation` — the evaluation of a property by its code.
* `gather` — the definitions of each property.
* `Reached` — the properties the first pass looks at.

## Main results

* `exec_compileRemaining` — the run of the code in these terms.
* `staticLoop_spec` — what the first pass leaves.
-/

namespace ArkTs2abc.Es2panda.ObjectLiteral

open PropertyTable (Side Change Slot)

variable {u : UserCode}

/-! ## The code of a property -/

/-- The key of a property definition. -/
def Property.key? : Property → Option Key
  | init _ key _ | accessor _ _ key => some key
  | spread _ | proto _ _ => none

/-- Numbers are written as ECMAScript writes them. -/
def Key.Canonical : Key → Prop
  | numberLiteral text name _ _ => text = name
  | identifier _ | stringLiteral _ _ | bigIntLiteral _ | booleanLiteral _ | nullLiteral | expression => True

def Property.Canonical (p : Property) : Prop := ∀ key ∈ p.key?, key.Canonical

def Key.isBigInt : Key → Bool
  | bigIntLiteral _ => true
  | identifier _ | stringLiteral _ _ | numberLiteral _ _ _ _ | booleanLiteral _ | nullLiteral
  | expression => false

/-- The evaluation of a property by its code: a computed key is converted behind the value. -/
def Property.lateEvaluation (u : UserCode) : Property → Evaluation
  | init node .expression value =>
    ⟨.evaluateKey node :: value.events node ++ [.toPropertyKey node], fun h =>
      [(.own (u.name (h ++ (.evaluateKey node :: value.events node ++ [.toPropertyKey node]))),
        .data (value.result u node (h ++ .evaluateKey node :: value.events node)))]⟩
  | p => p.evaluation u

/-- The history of a run, and its object if it is through. -/
def outcome (r : Machine × Bool) : List Event × Option Object :=
  match r with
  | (m, true) => (m.history, some m.object)
  | (m, false) => (m.history, none)

theorem Compiled.run_eq (u : UserCode) (c : Compiled) :
    c.run u = outcome (Machine.exec u { object := createObject c.buf c.hasMethod } c.code) := by
  rfl

theorem perform_append (u : UserCode) (h : List Event) (es es' : List Event) :
    u.perform h (es ++ es') =
      match u.perform h es with
      | (h', true) => u.perform h' es'
      | (h', false) => (h', false) := by
  induction es generalizing h with
  | nil => rfl
  | cons e es ih =>
    simp only [List.cons_append, UserCode.perform]
    split
    · exact ih _
    · rfl

theorem history_of_perform {h h' es : List Event} (hp : u.perform h es = (h', true)) : h' = h ++ es := by
  induction es generalizing h with
  | nil =>
    cases hp
    simp
  | cons e es ih =>
    unfold UserCode.perform at hp
    split at hp
    · rw [ih hp]
      simp
    · cases hp

variable {code : List Ins} {key : Key}

theorem compileKey_spec {node : ℕ} (h : compileKey node key = some code) :
    (key = .expression ∧ code = [.evaluateKey node]) ∨
      ∃ name, key.name = some name ∧ code = [.loadKey name] := by
  cases key with
  | identifier name | bigIntLiteral name => cases h
  | expression =>
    cases h
    exact .inl ⟨rfl, rfl⟩
  | stringLiteral str isComputed | numberLiteral text name isIndex isComputed | booleanLiteral b
  | nullLiteral =>
    cases h
    exact .inr ⟨_, rfl, rfl⟩

theorem name_of_toNamedPropertyKey {name : Name} (hkey : key.Canonical)
    (h : toNamedPropertyKey key = .name name) : key.name = some name := by
  unfold toNamedPropertyKey at h
  split at h
  case h_1 => exact congrArg some (Operand.name.inj h)
  case h_2 =>
    split at h
    · cases h
    · exact congrArg some (Operand.name.inj h)
  case h_3 text name' isIndex =>
    obtain rfl : text = name' := hkey
    rw [ite_self] at h
    exact congrArg some (Operand.name.inj h)
  all_goals cases h

theorem loadPropertyKey_spec {node : ℕ} (hkey : key.Canonical)
    (h : loadPropertyKey node key = some code) :
    (key = .expression ∧ code = [.evaluateKey node]) ∨
      ∃ name, key.name = some name ∧ code = [.loadKey name] := by
  unfold loadPropertyKey at h
  split at h
  next name hname =>
    cases h
    exact .inr ⟨name, name_of_toNamedPropertyKey hkey hname, rfl⟩
  next => exact compileKey_spec h

theorem toPropertyKey_spec {node : ℕ} {r : Operand × List Ins} (hkey : key.Canonical)
    (h : toPropertyKey node key = some r) :
    (key = .expression ∧ r = (.register, [.evaluateKey node])) ∨
      ∃ name, key.name = some name ∧ (r = (.name name, []) ∨ r = (.register, [.loadKey name])) := by
  unfold toPropertyKey at h
  split at h
  next name hname =>
    cases h
    exact .inr ⟨name, name_of_toNamedPropertyKey hkey hname, .inl rfl⟩
  next =>
    obtain ⟨code, hcode, rfl⟩ := Option.map_eq_some_iff.mp h
    rcases compileKey_spec hcode with ⟨hkey, rfl⟩ | ⟨name, hname, rfl⟩
    · exact .inl ⟨hkey, rfl⟩
    · exact .inr ⟨name, hname, .inr rfl⟩

theorem outcome_exec_cons (m : Machine) (ins : Ins) (rest : List Ins) :
    outcome (m.exec u (ins :: rest)) =
      match m.step u ins with
      | (m', true) => outcome (Machine.exec u m' rest)
      | (m', false) => (m'.history, none) := by
  rw [Machine.exec]
  cases m.step u ins with
  | mk m' ok => cases ok <;> rfl

theorem exec_compileValue (m : Machine) (node : ℕ) (value : Value) (rest : List Ins) :
    outcome (m.exec u (.compileValue node value :: rest)) =
      match u.perform m.history (value.events node) with
      | (h', true) => outcome (Machine.exec u
          { m with history := h', acc := value.result u node h' } rest)
      | (h', false) => (h', none) := by
  cases value with
  | expression =>
    simp only [Value.events, UserCode.perform, Machine.exec, Machine.step, Machine.perform]
    cases hc : u.completes (m.history ++ [Event.evaluateValue node]) <;> simp [Value.result, outcome]
  | constant l | method isGenerator isAsync | function => rfl

/-- The code of a property evaluates it, and the code behind it goes on from there, whatever the registers
hold. -/
theorem exec_compileProperty {p : Property} {rest : List Ins} (hp : p.Canonical)
    (hcode : compileProperty p = some code) {F : List Event → Object → List Event × Option Object}
    (hrest : ∀ m, outcome (Machine.exec u m rest) = F m.history m.object) (m : Machine) :
    outcome (m.exec u (code ++ rest)) =
      match u.perform m.history (p.lateEvaluation u).events with
      | (h', true) => F h' (m.object.defineAll ((p.lateEvaluation u).definitions m.history))
      | (h', false) => (h', none) := by
  cases p with
  | spread node =>
    cases hcode
    cases h₁ : u.completes (m.history ++ [Event.evaluateSpread node])
    · simp [Machine.exec, Machine.step, Machine.perform, Property.lateEvaluation, Property.evaluation,
        UserCode.perform, h₁, outcome]
    · cases h₂ : u.completes (m.history ++ [Event.evaluateSpread node, .copyProperties node])
      · simp [Machine.exec, Machine.step, Machine.perform, Property.lateEvaluation,
          Property.evaluation, UserCode.perform, h₁, h₂, outcome]
      · simp [Machine.exec, Machine.step, Machine.perform, Property.lateEvaluation,
          Property.evaluation, UserCode.perform, h₁, h₂, hrest]
  | accessor node side key =>
    obtain ⟨keyCode, hkeyCode, rfl⟩ := Option.map_eq_some_iff.mp hcode
    rcases loadPropertyKey_spec (hp key rfl) hkeyCode with ⟨rfl, rfl⟩ | ⟨name, hname, rfl⟩
    · cases h₁ : u.completes (m.history ++ [Event.evaluateKey node])
      · simp [Machine.exec, Machine.step, Machine.perform, Property.lateEvaluation,
          Property.evaluation, UserCode.perform, Key.events, h₁, outcome]
      · cases h₂ : u.completes (m.history ++ [Event.evaluateKey node, .toPropertyKey node])
        · simp [Machine.exec, Machine.step, Machine.perform, Machine.defineByValue,
            Property.lateEvaluation, Property.evaluation, UserCode.perform, Key.events, h₁, h₂, outcome]
        · simp [Machine.exec, Machine.step, Machine.perform, Machine.defineByValue,
            Property.lateEvaluation, Property.evaluation, UserCode.perform, Key.events, h₁, h₂, hrest,
            Key.place, Key.name, PropertyTable.Table.defineAll]
    · have hevents : key.events node = [] := by cases key <;> first | rfl | cases hname
      simp [Machine.exec, Machine.step, Machine.defineByValue, Property.lateEvaluation,
        Property.evaluation, UserCode.perform, hevents, hrest, Key.place, hname,
        PropertyTable.Table.defineAll]
  | init node key value =>
    obtain ⟨r, hr, rfl⟩ := Option.map_eq_some_iff.mp hcode
    rcases toPropertyKey_spec (hp key rfl) hr with ⟨rfl, rfl⟩ | ⟨name, hname, hr⟩
    · simp only [List.cons_append, List.nil_append, outcome_exec_cons m, Machine.step, Machine.perform,
        Property.lateEvaluation, UserCode.perform, perform_append]
      cases h₁ : u.completes (m.history ++ [Event.evaluateKey node])
      · simp
      · simp only [exec_compileValue, if_true]
        cases hperf : u.perform (m.history ++ [Event.evaluateKey node]) (value.events node) with
        | mk h' ok =>
          cases ok with
          | false => rfl
          | true =>
            obtain rfl := history_of_perform hperf
            cases h₂ : u.completes (m.history ++ [Event.evaluateKey node] ++ value.events node ++
                [.toPropertyKey node]) <;>
              simp_all [outcome_exec_cons, Machine.step, Machine.perform, Machine.defineByValue,
                PropertyTable.Table.defineAll]
    · have hevents : key.events node = [] := by cases key <;> first | rfl | cases hname
      have hlate : (Property.init node key value).lateEvaluation u =
          (Property.init node key value).evaluation u := by
        cases key <;> first | rfl | cases hname
      -- the store, where the register holds the name if it is used
      have hstore : ∀ m' : Machine, (r.1 = .register → m'.key = .name name) →
          outcome (m'.exec u (.storeOwnProperty r.1 :: rest)) =
            F m'.history (m'.object.define (.own name, .data m'.acc)) := by
        intro m' hkey
        rcases hr with rfl | rfl
        · exact hrest _
        · simp only [outcome_exec_cons, Machine.step, Machine.defineByValue, hkey rfl]
          exact hrest _
      have hvalue : ∀ m' : Machine, (r.1 = .register → m'.key = .name name) →
          outcome (m'.exec u (.compileValue node value :: .storeOwnProperty r.1 :: rest)) =
            match u.perform m'.history (value.events node) with
            | (h', true) => F h' (m'.object.define (.own name, .data (value.result u node h')))
            | (h', false) => (h', none) := by
        intro m' hkey
        rw [exec_compileValue]
        cases u.perform m'.history (value.events node) with
        | mk h' ok =>
          cases ok with
          | false => rfl
          | true => exact hstore _ hkey
      have hload : outcome (m.exec u (r.2 ++ [.compileValue node value, .storeOwnProperty r.1] ++ rest)) =
          match u.perform m.history (value.events node) with
          | (h', true) => F h' (m.object.define (.own name, .data (value.result u node h')))
          | (h', false) => (h', none) := by
        rcases hr with rfl | rfl
        · exact hvalue m (by simp)
        · exact hvalue { m with key := .name name } fun _ => rfl
      rw [hload, hlate]
      simp only [Property.evaluation, hevents, List.nil_append, List.append_nil, Key.place, hname,
        Option.getD_some]
      cases hperf : u.perform m.history (value.events node) with
      | mk h' ok =>
        cases ok with
        | false => rfl
        | true =>
          obtain rfl := history_of_perform hperf
          rfl
  | proto node value =>
    cases hcode
    simp only [List.cons_append, exec_compileValue, Property.lateEvaluation, Property.evaluation]
    cases hperf : u.perform m.history (value.events node) with
    | mk h' ok =>
      cases ok with
      | false => rfl
      | true =>
        obtain rfl := history_of_perform hperf
        simp [Machine.exec, Machine.step, hrest, PropertyTable.Table.defineAll]

/-! ## The code of the other properties -/

/-- The properties whose bit is not set. -/
def remaining (fs : List (Property × Bool)) : List Property := (fs.filter fun f => !f.2).map Prod.fst

theorem remaining_cons_false (p : Property) (fs : List (Property × Bool)) :
    remaining ((p, false) :: fs) = p :: remaining fs := rfl

variable {fs : List (Property × Bool)}

theorem exec_compileRemaining (hfs : ∀ f ∈ fs, f.1.Canonical)
    (hcode : compileRemaining fs = some code) (m : Machine) :
    outcome (m.exec u code) =
      evaluateAll u m.history m.object ((remaining fs).map (Property.lateEvaluation u)) := by
  induction fs generalizing code m with
  | nil =>
    cases hcode
    rfl
  | cons f fs ih =>
    rw [List.forall_mem_cons] at hfs
    obtain ⟨p, compiled⟩ := f
    cases compiled with
    | true => exact ih hfs.2 hcode m
    | false =>
      obtain ⟨pcode, hp, hcode⟩ := Option.bind_eq_some_iff.mp hcode
      obtain ⟨rest, hrest, hcode⟩ := Option.bind_eq_some_iff.mp hcode
      cases hcode
      rw [remaining_cons_false, List.map_cons, evaluateAll]
      exact exec_compileProperty (F := fun history object => evaluateAll u history object
        ((remaining fs).map (Property.lateEvaluation u))) hfs.1 hp (ih hfs.2 hrest) m

theorem compileKey_isSome {node : ℕ} (h : toNamedPropertyKey key = .register) :
    (compileKey node key).isSome = !key.isBigInt := by
  cases key with
  | identifier name => cases h
  | stringLiteral str isComputed | numberLiteral text name isIndex isComputed | bigIntLiteral name
  | booleanLiteral b | nullLiteral | expression => rfl

theorem compileProperty_isSome (p : Property) :
    (compileProperty p).isSome = p.key?.all (!·.isBigInt) := by
  cases p with
  | spread node | proto node value => rfl
  | accessor node side key | init node key value =>
    cases hop : toNamedPropertyKey key with
    | register =>
      simp [compileProperty, loadPropertyKey, toPropertyKey, hop, Property.key?, compileKey_isSome hop]
    | name name =>
      have hkey : key.isBigInt = false := by cases key <;> first | rfl | cases hop
      simp [compileProperty, loadPropertyKey, toPropertyKey, hop, Property.key?, hkey]

theorem compileRemaining_isSome (fs : List (Property × Bool)) :
    (compileRemaining fs).isSome ↔ ∀ p ∈ remaining fs, (compileProperty p).isSome := by
  induction fs with
  | nil => simp [compileRemaining, remaining]
  | cons f fs ih =>
    obtain ⟨p, compiled⟩ := f
    cases compiled with
    | true => exact ih
    | false =>
      rw [remaining_cons_false, List.forall_mem_cons, ← ih, compileRemaining]
      cases compileProperty p <;> cases compileRemaining fs <;> simp

/-! ## Definitions property by property -/

/-- The history behind some properties, and the definitions of each. -/
def gather (u : UserCode) (history : List Event) :
    List (Property × Bool) → List Event × Option (List ((Property × Bool) × List Definition))
  | [] => (history, some [])
  | f :: fs =>
    match u.perform history (f.1.evaluation u).events with
    | (history', true) =>
      ((gather u history' fs).1,
        (gather u history' fs).2.map ((f, (f.1.evaluation u).definitions history) :: ·))
    | (history', false) => (history', none)

theorem evaluateAll_eq (u : UserCode) (history : List Event) (object : Object)
    (fs : List (Property × Bool)) :
    evaluateAll u history object (fs.map fun f => f.1.evaluation u) =
      ((gather u history fs).1,
        (gather u history fs).2.map fun bs => object.defineAll (bs.flatMap Prod.snd)) := by
  induction fs generalizing history object with
  | nil => rfl
  | cons f fs ih =>
    rw [List.map_cons, evaluateAll, gather]
    cases u.perform history (f.1.evaluation u).events with
    | mk history' ok =>
      cases ok with
      | false => rfl
      | true =>
        simp only [ih, Option.map_map]
        congr 1
        refine congrArg (Option.map · _) (funext fun bs => ?_)
        simp [PropertyTable.Table.defineAll_append]

theorem gather_filter (u : UserCode) (history : List Event)
    (h : ∀ f ∈ fs, f.2 → (f.1.evaluation u).events = []) :
    gather u history (fs.filter fun f => !f.2) =
      ((gather u history fs).1, (gather u history fs).2.map (List.filter fun b => !b.1.2)) := by
  induction fs generalizing history with
  | nil => rfl
  | cons f fs ih =>
    rw [List.forall_mem_cons] at h
    obtain ⟨p, compiled⟩ := f
    cases compiled with
    | true =>
      have hevents := h.1 rfl
      simp only [gather, hevents, UserCode.perform, Option.map_map]
      rw [List.filter_cons_of_neg (by simp), ih history h.2]
      rfl
    | false =>
      rw [List.filter_cons_of_pos (by simp), gather, gather]
      cases u.perform history (p.evaluation u).events with
      | mk history' ok =>
        cases ok with
        | false => rfl
        | true =>
          simp only [ih history' h.2, Option.map_map]
          rfl

theorem blocks_of_gather {history : List Event} {bs : List ((Property × Bool) × List Definition)}
    (h : (gather u history fs).2 = some bs) :
    bs.map Prod.fst = fs ∧ ∀ b ∈ bs, ∃ h', b.2 = (b.1.1.evaluation u).definitions h' := by
  induction fs generalizing history bs with
  | nil =>
    cases h
    simp
  | cons f fs ih =>
    rw [gather] at h
    cases hperf : u.perform history (f.1.evaluation u).events with
    | mk history' ok =>
      rw [hperf] at h
      cases ok with
      | false => cases h
      | true =>
        obtain ⟨bs', hbs', rfl⟩ := Option.map_eq_some_iff.mp h
        obtain ⟨hmap, hblocks⟩ := ih hbs'
        refine ⟨by rw [List.map_cons, hmap], ?_⟩
        rw [List.forall_mem_cons]
        exact ⟨⟨history, rfl⟩, hblocks⟩

end ArkTs2abc.Es2panda.ObjectLiteral
