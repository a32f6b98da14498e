import ArkTs2abc.Es2panda.Destructuring.Evaluation

/-!
# What the evaluation of a pattern changes

An evaluation adds actions to the trace. They are about the iterator of the pattern and about those
that are opened inside. What is known about the other iterators stays as it is.

## Main definitions

* `Evolves`, `Uses` — what an evaluation does to a store.

## Main results

* `Uses.assign`, `Uses.assignElements` — the patterns.
-/

namespace ArkTs2abc.Es2panda.Destructuring

open StructuredCode Exits

variable {V : Type}

/-- The iterator that an action is about. -/
def Action.iterator? : Action V → Option ℕ
  | getNext i | next _ i | getReturn i | callReturn _ i => some i
  | _ => none

/-- The iterator that is asked for a value. -/
def Action.asked? : Action V → Option ℕ
  | next _ i => some i
  | _ => none

theorem Action.iterator?_of_asked? {a : Action V} {i : ℕ} (h : a.asked? = some i) :
    a.iterator? = some i := by
  cases a <;> simp_all [Action.asked?, Action.iterator?]

/-! ### What an evaluation does to a store -/

/-- The actions `as` are about iterators in `own` and new ones. The field [[Done]] changes only when
an iterator is looked at, and no iterator is asked that is exhausted, if the rules say so. -/
structure Evolves (rules : Rules) (own : ℕ → Prop) (d : Store V) (as : List (Action V)) (d' : Store V) :
    Prop where
  trace : d'.trace = d.trace ++ as
  own : ∀ a ∈ as, ∀ j, a.iterator? = some j → own j ∨ d.trace.length ≤ j
  done : ∀ j < d.trace.length, d'.done j = d.done j ∨ ∃ a ∈ as, a.iterator? = some j
  stops : rules.skips = true → ∀ j < d.trace.length, d.done j = true →
    d'.done j = true ∧ ∀ a ∈ as, a.asked? ≠ some j
  differs : d.differs = true → d'.differs = true

namespace Evolves

variable {rules : Rules} {own own' : ℕ → Prop} {d d' d'' : Store V} {as as' : List (Action V)}

theorem refl (rules : Rules) (own : ℕ → Prop) (d : Store V) : Evolves rules own d [] d where
  trace := by simp
  own := by simp
  done := by simp
  stops := by simp
  differs := id

section

variable (h : Evolves rules own d as d')
include h

theorem length_le : d.trace.length ≤ d'.trace.length := by
  rw [h.trace, List.length_append]
  omega

theorem mono (hown : ∀ j < d.trace.length, own j → own' j) :
    Evolves rules own' d as d' where
  trace := h.trace
  own := by
    intro a ha j hj
    by_cases hlt : j < d.trace.length
    · rcases h.own a ha j hj with hown' | hle
      · exact .inl (hown j hlt hown')
      · omega
    · exact .inr (Nat.le_of_not_lt hlt)
  done := h.done
  stops := h.stops
  differs := h.differs

theorem trans (h' : Evolves rules own d' as' d'') :
    Evolves rules own d (as ++ as') d'' where
  trace := by rw [h'.trace, h.trace, List.append_assoc]
  own := by
    have hle := h.length_le
    intro a ha j hj
    rcases List.mem_append.mp ha with ha | ha
    · exact h.own a ha j hj
    · exact (h'.own a ha j hj).imp_right (Nat.le_trans hle)
  done := by
    have hle := h.length_le
    intro j hj
    rcases h'.done j (Nat.lt_of_lt_of_le hj hle) with heq | ⟨a, ha, haj⟩
    · rcases h.done j hj with heq' | ⟨a, ha, haj⟩
      · exact .inl (heq.trans heq')
      · exact .inr ⟨a, List.mem_append_left _ ha, haj⟩
    · exact .inr ⟨a, List.mem_append_right _ ha, haj⟩
  stops := by
    have hle := h.length_le
    intro hskips j hj hdone
    obtain ⟨hdone', hno⟩ := h.stops hskips j hj hdone
    obtain ⟨hdone'', hno'⟩ := h'.stops hskips j (Nat.lt_of_lt_of_le hj hle) hdone'
    refine ⟨hdone'', ?_⟩
    intro a ha
    rcases List.mem_append.mp ha with ha | ha
    · exact hno a ha
    · exact hno' a ha
  differs := fun hd => h'.differs (h.differs hd)

theorem done_eq {j : ℕ} (hj : j < d.trace.length) (hown : ¬ own j) :
    d'.done j = d.done j := by
  rcases h.done j hj with heq | ⟨a, ha, haj⟩
  · exact heq
  · rcases h.own a ha j haj with hj' | hle
    · exact absurd hj' hown
    · omega

end

end Evolves

/-- An evaluation that uses the iterators in `own` and new ones. -/
def Uses (rules : Rules) (own : ℕ → Prop) {α : Type} (m : Evaluation V α) : Prop :=
  ∀ d, ∃ as, Evolves rules own d as (m d).2

namespace Uses

variable {rules : Rules} {own : ℕ → Prop} {α β : Type} {m : Evaluation V α}

theorem pure (a : α) : Uses rules own (Pure.pure a : Evaluation V α) := fun d => ⟨[], .refl _ _ d⟩

theorem throwing (e : JsValue V) : Uses rules own (.throwing e : Evaluation V α) :=
  fun d => ⟨[], .refl _ _ d⟩

theorem noFuel : Uses rules own (.noFuel : Evaluation V α) := fun d => ⟨[], .refl _ _ d⟩

theorem after_bind (m : Evaluation V α) {f : α → Evaluation V β} (hf : ∀ a, Uses rules own (f a))
    (d : Store V) : ∃ as, Evolves rules own (m d).2 as ((m >>= f) d).2 := by
  refine Process.bind_induction (P := fun d' => ∃ as, Evolves rules own (m d).2 as d')
    ⟨[], .refl _ _ _⟩ ?_
  rintro a d' ⟨as, hd'⟩
  obtain ⟨as', hd''⟩ := hf a d'
  exact ⟨as ++ as', hd'.trans hd''⟩

theorem after_handle (m : Evaluation V α) {f : JsValue V → Evaluation V α}
    (hf : ∀ e, Uses rules own (f e)) (d : Store V) :
    ∃ as, Evolves rules own (m d).2 as (m.handle f d).2 := by
  refine Process.handle_induction (P := fun d' => ∃ as, Evolves rules own (m d).2 as d')
    ⟨[], .refl _ _ _⟩ ?_
  rintro e d' ⟨as, hd'⟩
  obtain ⟨as', hd''⟩ := hf e d'
  exact ⟨as ++ as', hd'.trans hd''⟩

theorem bind (h : Uses rules own m) {f : α → Evaluation V β} (hf : ∀ a, Uses rules own (f a)) :
    Uses rules own (m >>= f) := by
  intro d
  obtain ⟨as, has⟩ := h d
  obtain ⟨as', has'⟩ := after_bind m hf d
  exact ⟨as ++ as', has.trans has'⟩

theorem handle (h : Uses rules own m) {f : JsValue V → Evaluation V α}
    (hf : ∀ e, Uses rules own (f e)) : Uses rules own (m.handle f) := by
  intro d
  obtain ⟨as, has⟩ := h d
  obtain ⟨as', has'⟩ := after_handle m hf d
  exact ⟨as ++ as', has.trans has'⟩

end Uses

section World

variable (w : World V) {rules : Rules} {own : ℕ → Prop}

theorem perform_cases (a : Action V) (d : Store V) :
    (∃ v, perform w a d = (.value v, d.log a)) ∨ ∃ e, perform w a d = (.thrown e, d.log a) := by
  unfold perform
  split
  · exact .inl ⟨_, rfl⟩
  · exact .inr ⟨_, rfl⟩

theorem perform_store (a : Action V) (d : Store V) : (perform w a d).2 = d.log a := by
  rcases perform_cases w a d with ⟨v, h⟩ | ⟨e, h⟩ <;> rw [h]

variable {d d' : Store V}

theorem Evolves.perform {a : Action V} (hown : ∀ j, a.iterator? = some j → own j)
    (hasked : rules.skips = true → ∀ j, a.asked? = some j → d.done j = false) :
    Evolves rules own d [a] (perform w a d).2 := by
  rw [perform_store]
  refine ⟨rfl, ?_, fun j _ => .inl rfl, ?_, id⟩
  · intro a' ha' j hj
    rw [List.mem_singleton.mp ha'] at hj
    exact .inl (hown j hj)
  · intro hskips j _ hdone
    refine ⟨hdone, ?_⟩
    intro a' ha' hj
    rw [List.mem_singleton.mp ha'] at hj
    rw [hasked hskips j hj] at hdone
    cases hdone

theorem Uses.perform {a : Action V} (hown : ∀ j, a.iterator? = some j → own j)
    (hasked : a.asked? = none) : Uses rules own (perform w a) := by
  intro d
  refine ⟨[a], .perform w hown ?_⟩
  intro _ j hj
  rw [hasked] at hj
  cases hj

theorem Uses.requireObject (v : JsValue V) : Uses rules own (requireObject w v) := by
  unfold Destructuring.requireObject
  split
  · exact .pure _
  · exact .throwing _

theorem Evolves.setDone {as : List (Action V)} {i : ℕ} (b : Bool) (h : Evolves rules own d as d')
    (hlooked : ∃ a ∈ as, a.iterator? = some i) (hdone : rules.skips = true → d.done i = false) :
    Evolves rules own d as (d'.setDone i b) where
  trace := h.trace
  own := h.own
  done := by
    intro j hj
    by_cases hij : j = i
    · exact .inr (hij ▸ hlooked)
    · rw [Store.setDone_done_of_ne _ _ hij]
      exact h.done j hj
  stops := by
    intro hskips j hj hj'
    have hij : j ≠ i := by
      rintro rfl
      rw [hdone hskips] at hj'
      cases hj'
    rw [Store.setDone_done_of_ne _ _ hij]
    exact h.stops hskips j hj hj'
  differs := h.differs

/-- A step looks at the iterator first. -/
def Looks (rules : Rules) (own : ℕ → Prop) (r : IteratorRecord V) (d d' : Store V) : Prop :=
  ∃ as, Evolves rules own d (.next r.next r.iterator :: as) d'

variable {r : IteratorRecord V}

theorem Looks.uses (h : Looks rules own r d d') {α : Type} {m : Evaluation V α}
    (hm : Uses rules own m) : Looks rules own r d (m d').2 := by
  obtain ⟨as, hd'⟩ := h
  obtain ⟨as', hm⟩ := hm d'
  exact ⟨as ++ as', hd'.trans hm⟩

theorem Looks.setDone (h : Looks rules own r d d') (b : Bool)
    (hdone : rules.skips = true → d.done r.iterator = false) :
    Looks rules own r d (d'.setDone r.iterator b) := by
  obtain ⟨as, hd'⟩ := h
  exact ⟨as, hd'.setDone b ⟨_, List.mem_cons_self, rfl⟩ hdone⟩

theorem ask_looks (hown : own r.iterator) (hdone : rules.skips = true → d.done r.iterator = false) :
    Looks rules own r d (ask w r d).2 := by
  unfold ask
  refine Process.bind_induction (P := Looks rules own r d) ?_ ?_
  · refine ⟨[], .perform w ?_ ?_⟩
    · rintro j ⟨⟩
      exact hown
    · rintro hskips j ⟨⟩
      exact hdone hskips
  · intro result d' hd'
    refine Process.bind_induction (P := Looks rules own r d) (hd'.uses (.requireObject w result)) ?_
    intro _ d' hd'
    refine Process.bind_induction (P := Looks rules own r d) (hd'.uses (.perform w nofun rfl)) ?_
    intro done d' hd'
    rw [Process.modify_bind]
    split
    · exact hd'.setDone _ hdone
    · exact (hd'.setDone _ hdone).uses (.bind (.perform w nofun rfl) fun v => .pure _)

theorem attempt_looks (hown : own r.iterator)
    (hdone : rules.skips = true → d.done r.iterator = false) :
    Looks rules own r d (attempt w r d).2 := by
  refine Process.handle_induction (P := Looks rules own r d) (ask_looks w hown hdone) ?_
  intro e d' hd'
  exact hd'.setDone true hdone

theorem Evolves.note (rules : Rules) (own : ℕ → Prop) (d : Store V) (b : Bool) :
    Evolves rules own d [] (d.note b) where
  trace := by simp
  own := by simp
  done := by simp
  stops := by simp
  differs := by simp +contextual

theorem Uses.step (hown : own r.iterator) : Uses rules own (rules.step w r) := by
  intro d
  have hnote := Evolves.note rules own d (d.done r.iterator)
  unfold Rules.step
  rw [Process.get_bind, Process.modify_bind]
  split
  · exact ⟨[], hnote⟩
  · next hskips =>
    have hdone : rules.skips = true → (d.note (d.done r.iterator)).done r.iterator = false := by
      intro h
      rw [Store.note_done]
      simpa [h] using hskips
    obtain ⟨as, has⟩ := attempt_looks w hown hdone
    exact ⟨_, hnote.trans has⟩

theorem Uses.close (hown : own r.iterator) : Uses rules own (close w r) := by
  refine .bind (.perform w ?_ rfl) fun method => ?_
  · rintro j ⟨⟩
    exact hown
  · split
    · exact .pure _
    · refine .bind (.perform w ?_ rfl) fun result => .requireObject w result
      rintro j ⟨⟩
      exact hown

theorem Uses.get_bind {α : Type} {f : Store V → Evaluation V α} (h : ∀ d, Uses rules own (f d)) :
    Uses rules own (.get >>= f) := fun d => h d d

theorem Uses.closeAbrupt (hown : own r.iterator) (e : JsValue V) :
    Uses rules own (closeAbrupt w r e) :=
  .bind (.handle (.close w hown) fun _ => .pure _) fun _ => .throwing e

theorem Uses.reference (target : Target) : Uses rules own (reference w target) := by
  cases target with
  | member object property =>
    exact .bind (.perform w nofun rfl) fun o => .bind (.perform w nofun rfl) fun k => .pure _
  | _ => exact .pure _

theorem Uses.initialized (init : Option ℕ) (v : JsValue V) : Uses rules own (initialized w init v) := by
  unfold Destructuring.initialized
  split
  · exact .perform w nofun rfl
  · exact .pure _

theorem Uses.collect (hown : own r.iterator) (fuel : ℕ) (vs : List (JsValue V)) :
    Uses rules own (rules.collect w r fuel vs) := by
  induction fuel generalizing vs with
  | zero => exact .noFuel
  | succ fuel ih =>
    refine .bind (.step w hown) fun v => ?_
    cases v with
    | none => exact .pure _
    | some v => exact ih _

theorem Uses.closeThrown (hown : own r.iterator) (e : JsValue V) :
    Uses rules own (closeThrown w r e) := by
  refine .get_bind fun d => ?_
  split
  · exact .throwing _
  · exact .closeAbrupt w hown e

theorem Uses.closeNormal (hown : own r.iterator) :
    Uses rules own (closeNormal w r) := by
  refine .get_bind fun d => ?_
  split
  · exact .pure _
  · exact .close w hown

theorem Uses.closing (hown : own r.iterator) {elements : Evaluation V Unit}
    (h : Uses rules own elements) : Uses rules own (closing w r elements) :=
  .bind (.handle h (.closeThrown w hown)) fun _ => .closeNormal w hown

theorem Evolves.setDone_new {as : List (Action V)} {i : ℕ} (b : Bool)
    (h : Evolves rules own d as d') (hi : d.trace.length ≤ i) :
    Evolves rules own d as (d'.setDone i b) where
  trace := h.trace
  own := h.own
  done := by
    intro j hj
    rw [Store.setDone_done_of_ne _ _ (by omega)]
    exact h.done j hj
  stops := by
    intro hskips j hj hj'
    rw [Store.setDone_done_of_ne _ _ (by omega)]
    exact h.stops hskips j hj hj'
  differs := h.differs

theorem Uses.checkNext (next : JsValue V) : Uses rules own (rules.checkNext w next) := by
  unfold Rules.checkNext
  split
  · exact .requireObject w next
  · exact .pure _

theorem requireObject_store (v : JsValue V) (d : Store V) : (requireObject w v d).2 = d := by
  unfold requireObject
  split <;> rfl

theorem checkNext_store (rules : Rules) (next : JsValue V) (d : Store V) : (rules.checkNext w next d).2 = d := by
  unfold Rules.checkNext
  split
  · exact requireObject_store w next d
  · rfl

/-- What is done with a new iterator is about that one. -/
theorem getIterator_evolves (rules : Rules) (v : JsValue V) (d : Store V) :
    ∃ as, Evolves rules (Eq d.trace.length) d as (rules.getIterator w v d).2 := by
  have hstep : ∀ {β : Type} {m : Evaluation V β}, Uses rules (Eq d.trace.length) m → ∀ d',
      (∃ as, Evolves rules (Eq d.trace.length) d as d') →
      ∃ as, Evolves rules (Eq d.trace.length) d as (m d').2 := by
    rintro β m hm d' ⟨as, hd'⟩
    obtain ⟨as', hm⟩ := hm d'
    exact ⟨as ++ as', hd'.trans hm⟩
  unfold Rules.getIterator
  rw [Process.get_bind]
  refine Process.bind_induction
    (P := fun d' => ∃ as, Evolves rules (Eq d.trace.length) d as d') ?_ ?_
  · refine hstep (.perform w ?_ rfl) d ⟨[], .refl _ _ d⟩
    rintro j ⟨⟩
  · intro _ d' hd'
    refine Process.bind_induction
      (P := fun d' => ∃ as, Evolves rules (Eq d.trace.length) d as d') ?_ ?_
    · refine hstep (.perform w ?_ rfl) d' hd'
      intro j hj
      exact Option.some.inj hj
    · rintro next d' ⟨as, hd'⟩
      have hnote := hd'.trans (.note rules _ d' (!w.isObject next))
      rw [Process.modify_bind]
      refine Process.bind_induction
        (P := fun d' => ∃ as, Evolves rules (Eq d.trace.length) d as d') ?_ ?_
      · exact hstep (.checkNext w next) _ ⟨_, hnote⟩
      · rintro _ d' ⟨as, hd'⟩
        exact ⟨as, hd'.setDone_new false (Nat.le_refl _)⟩

theorem getIterator_value {v : JsValue V} (h : rules.getIterator w v d = (.value r, d')) :
    r.iterator = d.trace.length ∧ d'.done r.iterator = false ∧ d.trace.length < d'.trace.length := by
  unfold Rules.getIterator at h
  rw [Process.get_bind] at h
  obtain ⟨_, d₁, hopen, h⟩ := Process.of_bind_value h
  obtain ⟨next, d₂, hnext, h⟩ := Process.of_bind_value h
  rw [Process.modify_bind] at h
  obtain ⟨_, d₃, hcheck, h⟩ := Process.of_bind_value h
  have hd₁ := perform_store w (.getIterator v) d
  have hd₂ := perform_store w (.getNext d.trace.length) d₁
  have hd₃ := checkNext_store w rules next (d₂.note (!w.isObject next))
  rw [hopen] at hd₁
  rw [hnext] at hd₂
  rw [hcheck] at hd₃
  simp only at hd₁ hd₂ hd₃
  cases h
  refine ⟨rfl, by simp, ?_⟩
  rw [Store.setDone_trace, hd₃, Store.note_trace, hd₂, hd₁]
  simp

theorem Uses.getIterator {α : Type} (v : JsValue V) {f : IteratorRecord V → Evaluation V α}
    (hf : ∀ r : IteratorRecord V, Uses rules (Eq r.iterator) (f r)) :
    Uses rules own (rules.getIterator w v >>= f) := by
  intro d
  suffices h : ∃ as, Evolves rules (Eq d.trace.length) d as ((rules.getIterator w v >>= f) d).2 by
    obtain ⟨as, has⟩ := h
    exact ⟨as, has.mono fun j hj heq => absurd heq.symm (Nat.ne_of_lt hj)⟩
  have hopen := getIterator_evolves w rules v d
  cases hget : rules.getIterator w v d with
  | mk o d' =>
    rw [hget] at hopen
    cases o with
    | value r =>
      obtain ⟨hr, -, -⟩ := getIterator_value w hget
      obtain ⟨as, has⟩ := hopen
      obtain ⟨as', has'⟩ := hf r d'
      rw [Process.bind_value hget]
      rw [hr] at has'
      exact ⟨as ++ as', has.trans has'⟩
    | thrown e =>
      rw [Process.bind_thrown hget]
      exact hopen
    | outOfFuel =>
      rw [Process.bind_outOfFuel hget]
      exact hopen

mutual

theorem Uses.assign {own : ℕ → Prop} (fuel : ℕ) (target : Target) (lref : Reference V) (v : JsValue V) :
    Uses rules own (rules.assign w fuel target lref v) := by
  cases target with
  | identifier name =>
    unfold Rules.assign
    exact .bind (.perform w nofun rfl) fun _ => .pure _
  | member object property =>
    cases lref with
    | unresolved =>
      unfold Rules.assign
      exact .pure _
    | member o k =>
      unfold Rules.assign
      exact .bind (.perform w nofun rfl) fun _ => .pure _
  | object pattern =>
    unfold Rules.assign
    exact .bind (.perform w nofun rfl) fun _ => .pure _
  | array elements =>
    unfold Rules.assign
    refine .getIterator w v fun r => .closing w ?_ ?_
    · rfl
    · exact .assignElements fuel r rfl elements

theorem Uses.assignElements {own : ℕ → Prop} (fuel : ℕ) (r : IteratorRecord V) (hown : own r.iterator)
    (elements : Elements) : Uses rules own (rules.assignElements w fuel r elements) := by
  cases elements with
  | nil =>
    unfold Rules.assignElements
    exact .pure _
  | hole elements =>
    unfold Rules.assignElements
    exact .bind (.step w hown) fun _ => .assignElements fuel r hown elements
  | element target init elements =>
    unfold Rules.assignElements
    refine .bind (.reference w target) fun lref => .bind (.step w hown) fun v =>
      .bind (.initialized w init _) fun v => .bind (.assign fuel target lref v) fun _ =>
      .assignElements fuel r hown elements
  | rest target =>
    unfold Rules.assignElements
    exact .bind (.reference w target) fun lref => .bind (.collect w hown fuel []) fun vs =>
      .assign fuel target lref _

end

end World

end ArkTs2abc.Es2panda.Destructuring
