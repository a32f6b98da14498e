import ArkTs2abc.Es2panda.Destructuring.Evolution
import Mathlib.Data.List.Count

/-!
# The two evaluations of array patterns

The evaluation of ECMAScript and that of the generated code are the same until one of the two rules
is applied in which they differ. From there on they part: an iterator is asked once more by the
generated code, or is looked at by ECMAScript only, and it stays so.

## Main definitions

* `Parted` — two stores that can be told apart by an iterator that is not used any more.
* `Parts` — two evaluations are the same, or part.

## Main results

* `evaluate_parts` — ECMAScript's evaluation and that of the generated code.
-/

namespace ArkTs2abc.Es2panda.Destructuring

open StructuredCode Exits

variable {V : Type}

def askings (j : ℕ) (trace : List (Action V)) : ℕ := trace.countP fun a => a.asked? = some j

def looks (j : ℕ) (trace : List (Action V)) : ℕ := trace.countP fun a => a.iterator? = some j

theorem askings_append (j : ℕ) (t u : List (Action V)) :
    askings j (t ++ u) = askings j t + askings j u :=
  List.countP_append

theorem looks_append (j : ℕ) (t u : List (Action V)) : looks j (t ++ u) = looks j t + looks j u :=
  List.countP_append

/-- An iterator was asked once too often on the one side, or looked at on the other side only, and
neither side comes back to it. -/
inductive Parted (n : ℕ) (own : ℕ → Prop) (d d' : Store V) : Prop where
  | asked (j : ℕ) (hn : n ≤ j) (hlt : j < d.trace.length) (hown : own j → d.done j = true)
    (h : askings j d.trace < askings j d'.trace)
  | looked (j : ℕ) (hn : n ≤ j) (hlt : j < d'.trace.length) (hown : ¬ own j)
    (h : looks j d'.trace < looks j d.trace)

namespace Parted

variable {n n' : ℕ} {own own' : ℕ → Prop} {d d' e e' : Store V} {as bs : List (Action V)}

theorem trace_ne (h : Parted n own d d') : d.trace ≠ d'.trace := by
  intro heq
  cases h with
  | asked j hn hlt hown h =>
    rw [heq] at h
    exact Nat.lt_irrefl _ h
  | looked j hn hlt hown h =>
    rw [heq] at h
    exact Nat.lt_irrefl _ h

theorem mono (h : Parted n own d d') (hn : n' ≤ n) (hown : ∀ j, n ≤ j → own' j → own j) :
    Parted n' own' d d' := by
  cases h with
  | asked j hj hlt hdone h => exact .asked j (Nat.le_trans hn hj) hlt (fun h => hdone (hown j hj h)) h
  | looked j hj hlt hno h => exact .looked j (Nat.le_trans hn hj) hlt (fun h => hno (hown j hj h)) h

theorem evolves (h : Parted n own d e) (hd : Evolves ecma own d as d')
    (he : Evolves generated own e bs e') : Parted n own d' e' := by
  cases h with
  | asked j hn hlt hown h =>
    refine .asked j hn (Nat.lt_of_lt_of_le hlt hd.length_le) ?_ ?_
    · exact fun hj => (hd.stops rfl j hlt (hown hj)).1
    · have hzero : askings j as = 0 := by
        rw [askings, List.countP_eq_zero]
        intro a ha hasked
        have hasked : a.asked? = some j := of_decide_eq_true hasked
        rcases hd.own a ha j (Action.iterator?_of_asked? hasked) with hj | hle
        · exact (hd.stops rfl j hlt (hown hj)).2 a ha hasked
        · omega
      rw [hd.trace, he.trace, askings_append, askings_append, hzero]
      omega
  | looked j hn hlt hown h =>
    refine .looked j hn (Nat.lt_of_lt_of_le hlt he.length_le) hown ?_
    have hzero : looks j bs = 0 := by
      rw [looks, List.countP_eq_zero]
      intro a ha hlooked
      rcases he.own a ha j (of_decide_eq_true hlooked) with hj | hle
      · exact hown hj
      · omega
    rw [hd.trace, he.trace, looks_append, looks_append, hzero]
    omega

end Parted

/-- Two evaluations part when the rules differ, or one is out of fuel. -/
def Separate {α : Type} (n : ℕ) (own : ℕ → Prop) (r r' : Ending (JsValue V) α × Store V) : Prop :=
  r.2.differs = true ∧ (r.1 = .outOfFuel ∨ r'.1 = .outOfFuel ∨ Parted n own r.2 r'.2)

/-- They are the same while the rules do not differ. -/
def Parts {α : Type} (n : ℕ) (own : ℕ → Prop) (m m' : Evaluation V α) : Prop :=
  ∀ d : Store V, d.differs = false → n ≤ d.trace.length →
    (∀ j, own j → n ≤ j ∧ j < d.trace.length) →
    (m d).2.differs = false ∧ m' d = m d ∨ Separate n own (m d) (m' d)

section Separate

variable {n : ℕ} {own : ℕ → Prop} {α β : Type} {m m' : Evaluation V α} {d d' : Store V}

theorem Separate.after {r r' : Ending (JsValue V) α × Store V} {s s' : Ending (JsValue V) β × Store V}
    (h : Separate n own r r') (hs : ∃ as, Evolves ecma own r.2 as s.2)
    (hs' : ∃ as, Evolves generated own r'.2 as s'.2) (hfuel : r.1 = .outOfFuel → s.1 = .outOfFuel)
    (hfuel' : r'.1 = .outOfFuel → s'.1 = .outOfFuel) : Separate n own s s' := by
  obtain ⟨as, has⟩ := hs
  obtain ⟨bs, hbs⟩ := hs'
  obtain ⟨hdiffers, h⟩ := h
  refine ⟨has.differs hdiffers, ?_⟩
  rcases h with h | h | h
  · exact .inl (hfuel h)
  · exact .inr (.inl (hfuel' h))
  · exact .inr (.inr (h.evolves has hbs))

theorem Separate.bind {f f' : α → Evaluation V β} (h : Separate n own (m d) (m' d'))
    (hf : ∀ a, Uses ecma own (f a)) (hf' : ∀ a, Uses generated own (f' a)) :
    Separate n own ((m >>= f) d) ((m' >>= f') d') :=
  h.after (Uses.after_bind m hf d) (Uses.after_bind m' hf' d') (fun h => Process.outOfFuel_of_bind h f)
    fun h => Process.outOfFuel_of_bind h f'

theorem Separate.handle {f f' : JsValue V → Evaluation V α} (h : Separate n own (m d) (m' d'))
    (hf : ∀ e, Uses ecma own (f e)) (hf' : ∀ e, Uses generated own (f' e)) :
    Separate n own (m.handle f d) (m'.handle f' d') :=
  h.after (Uses.after_handle m hf d) (Uses.after_handle m' hf' d') (fun h => Process.outOfFuel_of_handle h f)
    fun h => Process.outOfFuel_of_handle h f'

end Separate

/-- An evaluation in which no rule is applied that differs. -/
def Plain {α : Type} (m : Evaluation V α) : Prop := ∀ d, (m d).2.differs = d.differs

namespace Plain

variable {α β : Type} {m : Evaluation V α}

theorem pure (a : α) : Plain (Pure.pure a : Evaluation V α) := fun _ => rfl

theorem throwing (e : JsValue V) : Plain (.throwing e : Evaluation V α) := fun _ => rfl

theorem setDone (i : ℕ) (b : Bool) : Plain (.modify (·.setDone i b) : Evaluation V Unit) := fun _ => rfl

theorem bind (h : Plain m) {f : α → Evaluation V β} (hf : ∀ a, Plain (f a)) : Plain (m >>= f) := by
  intro d
  refine Process.bind_induction (P := fun d' : Store V => d'.differs = d.differs) (h d) ?_
  intro a d' hd'
  exact (hf a d').trans hd'

theorem handle (h : Plain m) {f : JsValue V → Evaluation V α} (hf : ∀ e, Plain (f e)) :
    Plain (m.handle f) := by
  intro d
  refine Process.handle_induction (P := fun d' : Store V => d'.differs = d.differs) (h d) ?_
  intro e d' hd'
  exact (hf e d').trans hd'

variable (w : World V)

theorem perform (a : Action V) : Plain (perform w a) := by
  intro d
  rw [perform_store, Store.log_differs]

theorem requireObject (v : JsValue V) : Plain (requireObject w v) := by
  intro d
  rw [requireObject_store]

section

variable (r : IteratorRecord V)
include r

theorem ask : Plain (ask w r) := by
  refine .bind (.perform w _) fun result => .bind (.requireObject w result) fun _ =>
    .bind (.perform w _) fun done => .bind (.setDone _ _) fun _ => ?_
  split
  · exact .pure _
  · exact .bind (.perform w _) fun v => .pure _

theorem attempt : Plain (attempt w r) :=
  .handle (.ask w r) fun e => .bind (.setDone _ _) fun _ => .throwing e

theorem close : Plain (close w r) := by
  refine .bind (.perform w _) fun method => ?_
  split
  · exact .pure _
  · exact .bind (.perform w _) fun result => .requireObject w result

theorem closeAbrupt (e : JsValue V) : Plain (closeAbrupt w r e) :=
  .bind (.handle (.close w r) fun _ => .pure _) fun _ => .throwing e

theorem closeThrown (e : JsValue V) : Plain (closeThrown w r e) := by
  intro d
  unfold Destructuring.closeThrown
  rw [Process.get_bind]
  split
  · rfl
  · exact closeAbrupt w r e d

theorem closeNormal : Plain (closeNormal w r) := by
  intro d
  unfold Destructuring.closeNormal
  rw [Process.get_bind]
  split
  · rfl
  · exact close w r d

end

theorem reference (target : Target) : Plain (reference w target) := by
  cases target with
  | member object property =>
    exact .bind (.perform w _) fun o => .bind (.perform w _) fun k => .pure _
  | _ => exact .pure _

theorem initialized (init : Option ℕ) (v : JsValue V) : Plain (initialized w init v) := by
  unfold Destructuring.initialized
  split
  · exact .perform w _
  · exact .pure _

end Plain

namespace Parts

variable {n : ℕ} {own : ℕ → Prop} {α β : Type} {m m' : Evaluation V α}

theorem same (h : Plain m) : Parts n own m m :=
  fun d hd _ _ => .inl ⟨(h d).trans hd, rfl⟩

theorem bind {f f' : α → Evaluation V β} (h : Parts n own m m') (hm : Uses ecma own m)
    (hparts : ∀ a, Parts n own (f a) (f' a)) (hf : ∀ a, Uses ecma own (f a))
    (hf' : ∀ a, Uses generated own (f' a)) : Parts n own (m >>= f) (m' >>= f') := by
  intro d hd hn hown
  rcases h d hd hn hown with ⟨hdiffers, heq⟩ | hseparate
  · obtain ⟨as, has⟩ := hm d
    cases hr : m d with
    | mk r e =>
      rw [hr] at hdiffers heq has
      cases r with
      | value a =>
        rw [Process.bind_value hr, Process.bind_value heq]
        refine hparts a e hdiffers (Nat.le_trans hn has.length_le) ?_
        intro j hj
        exact (hown j hj).imp_right fun hlt => Nat.lt_of_lt_of_le hlt has.length_le
      | thrown v =>
        rw [Process.bind_thrown hr, Process.bind_thrown heq]
        exact .inl ⟨hdiffers, rfl⟩
      | outOfFuel =>
        rw [Process.bind_outOfFuel hr, Process.bind_outOfFuel heq]
        exact .inl ⟨hdiffers, rfl⟩
  · exact .inr (hseparate.bind hf hf')

theorem handle {f f' : JsValue V → Evaluation V α} (h : Parts n own m m') (hm : Uses ecma own m)
    (hparts : ∀ e, Parts n own (f e) (f' e)) (hf : ∀ e, Uses ecma own (f e))
    (hf' : ∀ e, Uses generated own (f' e)) : Parts n own (m.handle f) (m'.handle f') := by
  intro d hd hn hown
  rcases h d hd hn hown with ⟨hdiffers, heq⟩ | hseparate
  · obtain ⟨as, has⟩ := hm d
    unfold Process.handle
    rw [heq]
    cases hr : m d with
    | mk r e =>
      rw [hr] at hdiffers has
      cases r with
      | value a => exact .inl ⟨hdiffers, rfl⟩
      | thrown v =>
        refine hparts v e hdiffers (Nat.le_trans hn has.length_le) ?_
        intro j hj
        exact (hown j hj).imp_right fun hlt => Nat.lt_of_lt_of_le hlt has.length_le
      | outOfFuel => exact .inl ⟨hdiffers, rfl⟩
  · exact .inr (hseparate.handle hf hf')

end Parts

/-- Two evaluations that part as they should, and keep to their iterators. -/
structure Compares {α : Type} (n : ℕ) (own : ℕ → Prop) (m m' : Evaluation V α) : Prop where
  parts : Parts n own m m'
  uses : Uses ecma own m
  uses' : Uses generated own m'

namespace Compares

variable {n : ℕ} {own : ℕ → Prop} {α β : Type} {m m' : Evaluation V α}

theorem pure (a : α) : Compares n own (Pure.pure a : Evaluation V α) (Pure.pure a) :=
  ⟨.same (.pure a), .pure a, .pure a⟩

theorem noFuel : Compares n own (.noFuel : Evaluation V α) .noFuel :=
  ⟨.same fun _ => rfl, .noFuel, .noFuel⟩

theorem bind {f f' : α → Evaluation V β} (h : Compares n own m m')
    (hf : ∀ a, Compares n own (f a) (f' a)) : Compares n own (m >>= f) (m' >>= f') where
  parts := h.parts.bind h.uses (fun a => (hf a).parts) (fun a => (hf a).uses) fun a => (hf a).uses'
  uses := .bind h.uses fun a => (hf a).uses
  uses' := .bind h.uses' fun a => (hf a).uses'

theorem handle {f f' : JsValue V → Evaluation V α} (h : Compares n own m m')
    (hf : ∀ e, Compares n own (f e) (f' e)) : Compares n own (m.handle f) (m'.handle f') where
  parts := h.parts.handle h.uses (fun a => (hf a).parts) (fun a => (hf a).uses) fun a => (hf a).uses'
  uses := .handle h.uses fun a => (hf a).uses
  uses' := .handle h.uses' fun a => (hf a).uses'

end Compares

section World

variable (w : World V) {n : ℕ} {own : ℕ → Prop} {r : IteratorRecord V}

theorem Parts.step (hown : own r.iterator) :
    Parts n own (ecma.step w r) (generated.step w r) := by
  intro d hd hn hlt
  unfold Rules.step
  rw [Process.get_bind, Process.get_bind, Process.modify_bind, Process.modify_bind]
  cases hdone : d.done r.iterator with
  | false =>
    left
    refine ⟨(Plain.attempt w r _).trans ?_, rfl⟩
    rw [Store.note_differs, hd]
    rfl
  | true =>
    right
    have hlooks : Looks generated own r (d.note true) (attempt w r (d.note true)).2 :=
      attempt_looks w hown nofun
    obtain ⟨as, has⟩ := hlooks
    refine ⟨?_, .inr (.inr (.asked r.iterator (hlt _ hown).1 (hlt _ hown).2 (fun _ => hdone) ?_))⟩
    · change (d.differs || true) = true
      exact Bool.or_true _
    · change askings r.iterator d.trace < askings r.iterator (attempt w r (d.note true)).2.trace
      rw [has.trace, askings_append, Store.note_trace]
      simp [askings, Action.asked?]

theorem Compares.step (hown : own r.iterator) :
    Compares n own (ecma.step w r) (generated.step w r) :=
  ⟨.step w hown, .step w hown, .step w hown⟩

theorem Compares.collect (hown : own r.iterator) (fuel : ℕ) (vs : List (JsValue V)) :
    Compares n own (ecma.collect w r fuel vs) (generated.collect w r fuel vs) := by
  induction fuel generalizing vs with
  | zero => exact .noFuel
  | succ fuel ih =>
    refine .bind (.step w hown) fun v => ?_
    cases v with
    | none => exact .pure _
    | some v => exact ih _

theorem Compares.closing (hown : own r.iterator) {m m' : Evaluation V Unit}
    (h : Compares n own m m') : Compares n own (closing w r m) (closing w r m') :=
  .bind (.handle h fun e => ⟨.same (.closeThrown w r e), .closeThrown w hown e, .closeThrown w hown e⟩)
    fun _ => ⟨.same (.closeNormal w r), .closeNormal w hown, .closeNormal w hown⟩

theorem Evolves.looks_le {rules : Rules} {d d' : Store V} {as : List (Action V)}
    (h : Evolves rules own d as d') (j : ℕ) : looks j d.trace ≤ looks j d'.trace := by
  rw [h.trace, looks_append]
  omega

theorem looks_close (r : IteratorRecord V) (d : Store V) :
    looks r.iterator d.trace < looks r.iterator (close w r d).2.trace := by
  have hmethod : looks r.iterator d.trace <
      looks r.iterator (perform w (.getReturn r.iterator) d).2.trace := by
    rw [perform_store, Store.log_trace, looks_append]
    simp [looks, Action.iterator?]
  refine Process.bind_induction
    (P := fun d' : Store V => looks r.iterator d.trace < looks r.iterator d'.trace) hmethod ?_
  intro method d' hd'
  split
  · exact hd'
  · have huses : Uses ecma (Eq r.iterator) (do
        let result ← perform w (.callReturn method r.iterator)
        requireObject w result) := by
      refine .bind (.perform w ?_ rfl) fun result => .requireObject w result
      intro j hj
      exact Option.some.inj hj
    obtain ⟨as, has⟩ := huses d'
    exact Nat.lt_of_lt_of_le hd' (has.looks_le _)

theorem looks_closeAbrupt (r : IteratorRecord V) (e : JsValue V) (d : Store V) :
    looks r.iterator d.trace < looks r.iterator (closeAbrupt w r e d).2.trace := by
  refine Process.bind_induction
    (P := fun d' : Store V => looks r.iterator d.trace < looks r.iterator d'.trace) ?_ ?_
  · refine Process.handle_induction
      (P := fun d' : Store V => looks r.iterator d.trace < looks r.iterator d'.trace)
      (looks_close w r d) ?_
    intro e d' hd'
    exact hd'
  · intro _ d' hd'
    exact hd'

/-- An iterator that has been opened is looked at before a pattern is left. -/
theorem looks_closing {m : Evaluation V Unit} (hm : Uses ecma (Eq r.iterator) m) {d : Store V}
    (hlt : r.iterator < d.trace.length) (hdone : d.done r.iterator = false) :
    (closing w r m d).1 = .outOfFuel ∨
      looks r.iterator d.trace < looks r.iterator (closing w r m d).2.trace := by
  obtain ⟨as, has⟩ := hm d
  have hthrown : ∀ e, Uses ecma (Eq r.iterator) (closeThrown w r e) := .closeThrown w rfl
  have hnormal : Uses ecma (Eq r.iterator) (closeNormal w r) := .closeNormal w rfl
  obtain ⟨bs, hbs⟩ := Uses.after_handle m hthrown d
  obtain ⟨cs, hcs⟩ := Uses.after_bind (m.handle (closeThrown w r)) (fun _ => hnormal) d
  by_cases hlooked : ∃ a ∈ as, a.iterator? = some r.iterator
  · right
    have hpos : 0 < looks r.iterator as := by
      rw [looks, List.countP_pos_iff]
      obtain ⟨a, ha, hai⟩ := hlooked
      exact ⟨a, ha, decide_eq_true hai⟩
    refine Nat.lt_of_lt_of_le ?_ (Nat.le_trans (hbs.looks_le _) (hcs.looks_le _))
    rw [has.trace, looks_append]
    omega
  · have hdone' : (m d).2.done r.iterator = false := by
      rcases has.done _ hlt with heq | h
      · rw [heq, hdone]
      · exact absurd h hlooked
    have hle := has.looks_le r.iterator
    unfold closing
    cases hr : m d with
    | mk o d' =>
      rw [hr] at hdone' hle
      cases o with
      | value _ =>
        right
        rw [Process.bind_value (Process.handle_value hr _), closeNormal, Process.get_bind, hdone']
        exact Nat.lt_of_le_of_lt hle (looks_close w r d')
      | thrown e =>
        right
        have habrupt : closeThrown w r e d' = closeAbrupt w r e d' := by
          rw [closeThrown, Process.get_bind, hdone']
          rfl
        refine Nat.lt_of_lt_of_le ?_ (hcs.looks_le _)
        rw [Process.handle_thrown hr, habrupt]
        exact Nat.lt_of_le_of_lt hle (looks_closeAbrupt w r e d')
      | outOfFuel =>
        left
        refine Process.outOfFuel_of_bind (Process.outOfFuel_of_handle ?_ _) _
        rw [hr]

theorem checkNext_of_isObject (rules : Rules) {next : JsValue V} (h : w.isObject next = true)
    (d : Store V) : rules.checkNext w next d = (.value (), d) := by
  unfold Rules.checkNext requireObject
  rw [if_pos h, ite_self]
  rfl

theorem generated_checkNext {next : JsValue V} (h : w.isObject next = false) (d : Store V) :
    generated.checkNext w next d = (.thrown w.typeError, d) := by
  unfold Rules.checkNext requireObject
  rw [h]
  rfl

/-- An iterator is opened, or its opening throws. Where its `next` is no object, the generated code
throws. -/
theorem getIterator_cases (v : JsValue V) (d : Store V) :
    (∃ e d', d'.differs = d.differs ∧ ∀ rules : Rules, rules.getIterator w v d = (.thrown e, d')) ∨
    ∃ next d', d'.differs = d.differs ∧ d'.done d.trace.length = false ∧
      d.trace.length < d'.trace.length ∧
      ((∀ rules : Rules, rules.getIterator w v d = (.value ⟨d.trace.length, next⟩, d')) ∨
        ecma.getIterator w v d = (.value ⟨d.trace.length, next⟩, d'.note true) ∧
          ∃ e d'', generated.getIterator w v d = (.thrown e, d'') ∧ d''.trace = d'.trace) := by
  unfold Rules.getIterator
  simp only [Process.get_bind]
  rcases perform_cases w (.getIterator v) d with ⟨_, hopen⟩ | ⟨e, hopen⟩
  · simp only [Process.bind_value hopen]
    rcases perform_cases w (.getNext d.trace.length) (d.log (.getIterator v)) with
      ⟨next, hnext⟩ | ⟨e, hnext⟩
    · right
      simp only [Process.bind_value hnext, Process.modify_bind]
      refine ⟨next, ((d.log (.getIterator v)).log (.getNext d.trace.length)).setDone d.trace.length
        false, rfl, by simp, by simp, ?_⟩
      generalize (d.log (.getIterator v)).log (.getNext d.trace.length) = d'
      cases hobject : w.isObject next with
      | true =>
        left
        intro rules
        rw [Process.bind_value (checkNext_of_isObject w rules hobject _), Bool.not_true,
          Store.note_false]
        rfl
      | false =>
        right
        refine ⟨rfl, w.typeError, d'.note true, ?_, rfl⟩
        exact Process.bind_thrown (generated_checkNext w hobject _) _
    · left
      refine ⟨e, (d.log (.getIterator v)).log (.getNext d.trace.length), rfl, ?_⟩
      exact fun rules => Process.bind_thrown hnext _
  · left
    exact ⟨e, d.log (.getIterator v), rfl, fun rules => Process.bind_thrown hopen _⟩

/-- An iterator whose `next` is no object is refused by the generated code. -/
theorem Parts.getIterator (v : JsValue V) {f f' : IteratorRecord V → Evaluation V Unit}
    (h : ∀ r : IteratorRecord V, Compares r.iterator (Eq r.iterator) (f r) (f' r))
    (hlooks : ∀ (r : IteratorRecord V) (d : Store V), r.iterator < d.trace.length →
      d.done r.iterator = false →
      (f r d).1 = .outOfFuel ∨ looks r.iterator d.trace < looks r.iterator (f r d).2.trace) :
    Parts n own (ecma.getIterator w v >>= f) (generated.getIterator w v >>= f') := by
  intro d hd hn hown
  rcases getIterator_cases w v d with ⟨e, d', hdiffers, hthrown⟩ | ⟨next, d', hdiffers, hdone, hlt, hopen⟩
  · left
    rw [Process.bind_thrown (hthrown ecma), Process.bind_thrown (hthrown generated)]
    exact ⟨hdiffers.trans hd, rfl⟩
  · rcases hopen with hopen | ⟨hopen, e, d'', hrefused, htrace⟩
    · rw [Process.bind_value (hopen ecma), Process.bind_value (hopen generated)]
      refine ((h ⟨d.trace.length, next⟩).parts d' (hdiffers.trans hd) (Nat.le_of_lt hlt) ?_).imp_right ?_
      · rintro j rfl
        exact ⟨Nat.le_refl _, hlt⟩
      · rintro ⟨hdiffers', hseparate⟩
        refine ⟨hdiffers', hseparate.imp_right (Or.imp_right fun hparted => ?_)⟩
        refine hparted.mono hn ?_
        intro j hj hownj
        exact absurd (hown j hownj).2 (Nat.not_lt_of_le hj)
    · right
      rw [Process.bind_value hopen, Process.bind_thrown hrefused]
      obtain ⟨as, has⟩ := (h ⟨d.trace.length, next⟩).uses (d'.note true)
      refine ⟨has.differs (Bool.or_true _), ?_⟩
      rcases hlooks ⟨d.trace.length, next⟩ (d'.note true) hlt hdone with hfuel | hlooks
      · exact .inl hfuel
      · right; right
        refine .looked d.trace.length hn ?_ ?_ ?_
        · rw [htrace]
          exact hlt
        · exact fun hj => Nat.lt_irrefl _ (hown _ hj).2
        · rw [htrace]
          exact hlooks

theorem Compares.plain {α : Type} {m : Evaluation V α} (h : Plain m)
    (hm : ∀ rules, Uses rules own m) : Compares n own m m :=
  ⟨.same h, hm _, hm _⟩

mutual

theorem Compares.assign {n : ℕ} {own : ℕ → Prop} (fuel : ℕ) (target : Target) (lref : Reference V)
    (v : JsValue V) :
    Compares n own (ecma.assign w fuel target lref v) (generated.assign w fuel target lref v) := by
  refine ⟨?_, .assign w fuel target lref v, .assign w fuel target lref v⟩
  cases target with
  | identifier name =>
    unfold Rules.assign
    exact .same (.bind (.perform w _) fun _ => .pure _)
  | member object property =>
    cases lref with
    | unresolved =>
      unfold Rules.assign
      exact .same (.pure _)
    | member o k =>
      unfold Rules.assign
      exact .same (.bind (.perform w _) fun _ => .pure _)
  | object pattern =>
    unfold Rules.assign
    exact .same (.bind (.perform w _) fun _ => .pure _)
  | array elements =>
    unfold Rules.assign
    refine .getIterator w v (fun r => ?_) fun r d hlt hdone => ?_
    · exact .closing w rfl (.assignElements fuel r rfl elements)
    · exact looks_closing w (.assignElements w fuel r rfl elements) hlt hdone

theorem Compares.assignElements {n : ℕ} {own : ℕ → Prop} (fuel : ℕ) (r : IteratorRecord V)
    (hown : own r.iterator) (elements : Elements) :
    Compares n own (ecma.assignElements w fuel r elements)
      (generated.assignElements w fuel r elements) := by
  cases elements with
  | nil =>
    unfold Rules.assignElements
    exact .pure _
  | hole elements =>
    unfold Rules.assignElements
    exact .bind (.step w hown) fun _ => .assignElements fuel r hown elements
  | element target init elements =>
    unfold Rules.assignElements
    refine .bind (.plain (.reference w target) fun _ => .reference w target) fun lref => ?_
    refine .bind (.step w hown) fun v => ?_
    refine .bind (.plain (.initialized w init _) fun _ => .initialized w init _) fun v => ?_
    exact .bind (.assign fuel target lref v) fun _ => .assignElements fuel r hown elements
  | rest target =>
    unfold Rules.assignElements
    refine .bind (.plain (.reference w target) fun _ => .reference w target) fun lref => ?_
    exact .bind (.collect w hown fuel []) fun vs => .assign fuel target lref _

end

/-- The generated code evaluates a pattern as ECMAScript does unless a rule is applied in which they
differ; then they can be told apart at the end. -/
theorem evaluate_parts (fuel : ℕ) (elements : Elements) (v : JsValue V) (trace : List (Action V)) :
    let r := ecma.evaluate w fuel elements v (.start trace)
    let r' := generated.evaluate w fuel elements v (.start trace)
    r.2.differs = false ∧ r' = r ∨
      r.2.differs = true ∧ (r.1 = .outOfFuel ∨ r'.1 = .outOfFuel ∨ r.2.trace ≠ r'.2.trace) := by
  have hparts : Parts 0 (fun _ => False) (ecma.evaluate w fuel elements v)
      (generated.evaluate w fuel elements v) := by
    refine .getIterator w v (fun r => ?_) fun r d hlt hdone => ?_
    · exact .closing w rfl (.assignElements w fuel r rfl elements)
    · exact looks_closing w (.assignElements w fuel r rfl elements) hlt hdone
  refine (hparts (.start trace) rfl (Nat.zero_le _) nofun).imp_right ?_
  rintro ⟨hdiffers, h⟩
  exact ⟨hdiffers, h.imp_right (Or.imp_right Parted.trace_ne)⟩

end World

end ArkTs2abc.Es2panda.Destructuring
