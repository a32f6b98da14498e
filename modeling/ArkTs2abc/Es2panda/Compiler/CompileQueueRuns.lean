import Mathlib.Tactic.Abel
import ArkTs2abc.Es2panda.Compiler.CompileQueue

/-!
# What holds of the compile queue in every interleaving

The counters of the queue say where the threads stand: `activeWorkers` counts those in
the loop of `Consume`, and a job that has been started and has not finished is with one
of them. What a step does in `Consume` is said once, for whichever thread takes it.

## Main definitions

* `Inv` — the invariant of the configurations.

## Main results

* `Reachable.inv` — it holds in all that are reachable.
-/

namespace ArkTs2abc.Es2panda.Queue

variable {F Err : Type} {k : ℕ} {outcome : F → Option Err}

namespace Consume

/-- Whether `activeWorkers_` counts the thread. -/
def active : Consume F Err → ℕ
  | .start | .enter => 0
  | _ => 1

/-- The job that the thread runs. -/
def jobs : Consume F Err → Multiset (CompileJob F)
  | .run job => {job}
  | _ => 0

/-- The error that the thread has caught and not recorded. -/
def errors : Consume F Err → Multiset Err
  | .caught e | .record e => {e}
  | _ => 0

/-- The thread has the mutex. -/
def Holds : Consume F Err → Prop
  | .enter | .loop | .record _ => True
  | _ => False

end Consume

@[simp]
def Main.consuming : Main F Err → Option (Consume F Err)
  | .consume p => some p
  | _ => none

@[simp]
def Main.Holds : Main F Err → Prop
  | .scheduling _ | .check | .terminating => True
  | .consume p => p.Holds
  | _ => False

/-- No job is scheduled. -/
@[simp]
def Main.Drained : Main F Err → Prop
  | .scheduled | .consume _ => False
  | _ => True

/-- Outside of what `compile` starts. -/
@[simp]
def Main.Settled : Main F Err → Prop
  | .scheduled | .consume _ | .wait | .check | .waiting => False
  | _ => True

@[simp]
def Worker.consuming : Worker F Err → Option (Consume F Err)
  | .consume p => some p
  | _ => none

@[simp]
def Worker.Holds : Worker F Err → Prop
  | .check => True
  | .consume p => p.Holds
  | _ => False

namespace Config

variable (c : Config F Err k)

/-- Where the thread stands in `Consume`, if it does. -/
def consuming : Thread k → Option (Consume F Err)
  | none => c.main.consuming
  | some i => (c.worker i).consuming

def Holds : Thread k → Prop
  | none => c.main.Holds
  | some i => (c.worker i).Holds

/-- The sum over the threads in `Consume`. -/
def tally {M : Type} [AddCommMonoid M] (f : Consume F Err → M) : M :=
  ∑ t, (c.consuming t).elim 0 f

end Config

/-- The invariant of the configurations. -/
structure Inv (outcome : F → Option Err) (c : Config F Err k) : Prop where
  holder : ∀ t, c.queue.holder = some t ↔ c.Holds t
  active : c.queue.activeWorkers = c.tally Consume.active
  jobsCount_le : c.queue.jobsCount ≤ c.queue.jobs.length
  pending : ((c.queue.jobs.take c.queue.jobsCount : List (CompileJob F)) : Multiset (CompileJob F)) +
    c.queue.started = c.queue.scheduled
  running : (c.queue.finished : Multiset (CompileJob F)) + c.tally Consume.jobs = c.queue.started
  errors : (c.queue.errors : Multiset Err) + c.tally Consume.errors =
    (c.queue.finished.filterMap fun job => outcome job.function : List Err)
  ids : c.queue.scheduled.map CompileJob.id = List.range c.queue.scheduled.length
  drained : c.main.Drained → c.queue.jobsCount = 0
  settled : c.main.Settled → c.tally Consume.jobs = 0 ∧ c.tally Consume.errors = 0
  returned : ∀ r, c.main = .returned r → r = c.queue.errors.head?

namespace Consume

/-- What a step in `Consume` can do. -/
inductive Stepped (outcome : F → Option Err) (t : Thread k) (q : CompileQueue F Err k) :
    Consume F Err → CompileQueue F Err k → Option (Consume F Err) → Prop where
  | start : q.holder = none → Stepped outcome t q .start { q with holder := some t } (some .enter)
  | enter : Stepped outcome t q .enter { q with activeWorkers := q.activeWorkers + 1 } (some .loop)
  | exit : q.jobsCount = 0 → Stepped outcome t q .loop
      { q with activeWorkers := q.activeWorkers - 1, holder := none } none
  | pop {n job} : q.jobsCount = n + 1 → q.jobs[n]? = some job → Stepped outcome t q .loop
      { q with jobsCount := n, started := q.started ++ [job], holder := none } (some (.run job))
  | finish {job} : outcome job.function = none → Stepped outcome t q (.run job)
      { q with finished := q.finished ++ [job] } (some .relock)
  | throw {job e} : outcome job.function = some e → Stepped outcome t q (.run job)
      { q with finished := q.finished ++ [job] } (some (.caught e))
  | caught {e} : q.holder = none →
      Stepped outcome t q (.caught e) { q with holder := some t } (some (.record e))
  | record {e} : Stepped outcome t q (.record e)
      { q with errors := q.errors ++ [e], holder := none } (some .relock)
  | relock : q.holder = none →
      Stepped outcome t q .relock { q with holder := some t } (some .loop)

variable {t : Thread k} {q q' : CompileQueue F Err k} {p : Consume F Err}
  {next : Option (Consume F Err)}

theorem stepped_of_step (h : p.step outcome t q = some (q', next)) :
    Stepped outcome t q p q' next := by
  cases p with
  | start =>
    obtain ⟨hfree, rfl, rfl⟩ : q.holder = none ∧ { q with holder := some t } = q' ∧
        some .enter = next := by simpa [step, CompileQueue.lock] using h
    exact .start hfree
  | enter =>
    obtain ⟨rfl, rfl⟩ : { q with activeWorkers := q.activeWorkers + 1 } = q' ∧ some .loop = next := by
      simpa [step] using h
    exact .enter
  | loop =>
    cases hcount : q.jobsCount with
    | zero =>
      obtain ⟨rfl, rfl⟩ : { q with activeWorkers := q.activeWorkers - 1, holder := none } = q' ∧
          none = next := by simpa [step, hcount, CompileQueue.unlock] using h
      exact .exit hcount
    | succ n =>
      obtain ⟨job, hjob, rfl, rfl⟩ : ∃ job, q.jobs[n]? = some job ∧
          { q with jobsCount := n, started := q.started ++ [job], holder := none } = q' ∧
            some (.run job) = next := by simpa [step, hcount, CompileQueue.unlock] using h
      exact .pop hcount hjob
  | run job =>
    simp only [step, Option.some.injEq, Prod.mk.injEq] at h
    obtain ⟨rfl, rfl⟩ := h
    split
    · exact .finish ‹_›
    · exact .throw ‹_›
  | caught e =>
    obtain ⟨hfree, rfl, rfl⟩ : q.holder = none ∧ { q with holder := some t } = q' ∧
        some (.record e) = next := by simpa [step, CompileQueue.lock] using h
    exact .caught hfree
  | record e =>
    obtain ⟨rfl, rfl⟩ : { q with errors := q.errors ++ [e], holder := none } = q' ∧
        some .relock = next := by simpa [step, CompileQueue.unlock] using h
    exact .record
  | relock =>
    obtain ⟨hfree, rfl, rfl⟩ : q.holder = none ∧ { q with holder := some t } = q' ∧
        some .loop = next := by simpa [step, CompileQueue.lock] using h
    exact .relock hfree

namespace Stepped

variable (h : Stepped outcome t q p q' next)
include h

theorem scheduled_eq : q'.scheduled = q.scheduled := by cases h <;> rfl

theorem jobs_eq : q'.jobs = q.jobs := by cases h <;> rfl

theorem terminate_eq : q'.terminate = q.terminate := by cases h <;> rfl

theorem jobsCount_le : q'.jobsCount ≤ q.jobsCount := by
  cases h with
  | pop hcount _ => exact hcount ▸ Nat.le_succ _
  | _ => exact Nat.le_refl _

theorem holder_eq (hp : q.holder = some t ↔ p.Holds) (u : Thread k) :
    q'.holder = some u ↔ if u = t then next.elim False Holds else q.holder = some u := by
  cases h <;> grind [Holds]

theorem active_eq (hpos : p.active ≤ q.activeWorkers) :
    q'.activeWorkers + p.active = q.activeWorkers + next.elim 0 active := by
  cases h <;> grind [active]

theorem pending_eq : (q'.jobs.take q'.jobsCount : Multiset (CompileJob F)) + q'.started =
    (q.jobs.take q.jobsCount : Multiset (CompileJob F)) + q.started := by
  cases h with
  | @pop n job hcount hjob =>
    have htake : q.jobs.take q.jobsCount = q.jobs.take n ++ [job] := by
      rw [hcount, List.take_add_one, hjob]
      rfl
    rw [htake, ← Multiset.coe_add, ← Multiset.coe_add]
    abel
  | _ => rfl

theorem running_eq : (q'.finished : Multiset (CompileJob F)) + next.elim 0 jobs + q.started =
    (q.finished : Multiset (CompileJob F)) + p.jobs + q'.started := by
  cases h with
  | pop =>
    simp only [Option.elim_some, jobs, ← Multiset.coe_add, Multiset.coe_singleton]
    abel
  | finish => simp [jobs, ← Multiset.coe_add]
  | throw => simp [jobs, ← Multiset.coe_add]
  | _ => rfl

theorem errors_eq : (q'.errors : Multiset Err) + next.elim 0 errors +
      (q.finished.filterMap fun job => outcome job.function : List Err) =
    (q.errors : Multiset Err) + p.errors +
      (q'.finished.filterMap fun job => outcome job.function : List Err) := by
  cases h with
  | finish hnone => simp [errors, hnone]
  | throw hsome =>
    simp only [Option.elim_some, errors, List.filterMap_append, List.filterMap_cons, hsome,
      List.filterMap_nil, ← Multiset.coe_add, Multiset.coe_singleton]
    abel
  | record => simp [errors, ← Multiset.coe_add]
  | _ => rfl

omit h in
theorem quiet (h : Stepped outcome t q p q' next) (hcount : q.jobsCount = 0) (hjobs : p.jobs = 0)
    (herrors : p.errors = 0) :
    next.elim 0 jobs = 0 ∧ next.elim 0 Consume.errors = 0 ∧ q'.errors = q.errors := by
  cases h with
  | pop hpos _ => omega
  | finish => simp [jobs] at hjobs
  | throw => simp [jobs] at hjobs
  | caught => simp [Consume.errors] at herrors
  | record => simp [Consume.errors] at herrors
  | _ => exact ⟨rfl, rfl, rfl⟩

end Stepped

end Consume

/-- A step that moves `x` out of the sum `b` and `y` into it, and as much into `a`. -/
theorem balance_step {M : Type} [AddCancelCommMonoid M] {a a' b b' x y s s' : M} (h : a + b = s)
    (hb : b' + x = b + y) (ha : a' + y + s = a + x + s') : a' + b' = s' := by
  refine add_right_cancel (b := x + s) ?_
  calc a' + b' + (x + s) = a' + (b' + x) + s := by abel
    _ = a' + y + s + b := by rw [hb]; abel
    _ = a + b + x + s' := by rw [ha]; abel
    _ = s' + (x + s) := by rw [h]; abel

section Places

variable {c c' : Config F Err k} {t u : Thread k} {i : Fin k} {w : Worker F Err}
  {p : Consume F Err} {next : Option (Consume F Err)}

theorem consuming_setWorker : (c.setWorker i w).consuming =
    Function.update c.consuming (some i) w.consuming := by
  funext u
  cases u with
  | none => rfl
  | some j =>
    by_cases h : j = i
    · subst h
      simp [Config.consuming, Config.setWorker]
    · simp [Config.consuming, Config.setWorker, h]

theorem holds_setWorker : (c.setWorker i w).Holds u ↔ if u = some i then w.Holds else c.Holds u := by
  cases u with
  | none => simp [Config.Holds, Config.setWorker]
  | some j => by_cases h : j = i <;> simp [Config.Holds, Config.setWorker, h]

theorem consuming_notifyAll (worker : Fin k → Worker F Err) :
    (notifyAll worker i).consuming = (worker i).consuming := by
  unfold notifyAll
  split <;> simp_all [Worker.consuming]

theorem holds_notifyAll (worker : Fin k → Worker F Err) :
    (notifyAll worker i).Holds ↔ (worker i).Holds := by
  unfold notifyAll
  split <;> simp_all [Worker.Holds]

/-- When one thread takes a step in `Consume`, its summand changes. -/
theorem tally_update {M : Type} [AddCommMonoid M] {f : Consume F Err → M}
    (hp : c.consuming t = some p) (hc' : c'.consuming = Function.update c.consuming t next) :
    c'.tally f + f p = c.tally f + next.elim 0 f := by
  have hrest : ∑ u ∈ Finset.univ.erase t, (c'.consuming u).elim 0 f =
      ∑ u ∈ Finset.univ.erase t, (c.consuming u).elim 0 f := by
    refine Finset.sum_congr rfl fun u hu => ?_
    rw [hc', Function.update_of_ne (Finset.ne_of_mem_erase hu)]
  unfold Config.tally
  rw [← Finset.add_sum_erase _ _ (Finset.mem_univ t), ← Finset.add_sum_erase _ _ (Finset.mem_univ t),
    hrest, hc', Function.update_self, hp]
  simp only [Option.elim_some]
  abel

theorem le_tally {f : Consume F Err → ℕ} (hp : c.consuming t = some p) : f p ≤ c.tally f := by
  have hle := Finset.single_le_sum (f := fun u => (c.consuming u).elim 0 f)
    (fun _ _ => Nat.zero_le _) (Finset.mem_univ t)
  rwa [hp] at hle

/-- A thread at the start of `Consume` does not count. -/
theorem tally_congr {M : Type} [AddCommMonoid M] {f : Consume F Err → M} (hf : f .start = 0)
    (h : ∀ t, c'.consuming t = c.consuming t ∨
      c.consuming t = none ∧ c'.consuming t = some .start) : c'.tally f = c.tally f := by
  refine Finset.sum_congr rfl fun t _ => ?_
  rcases h t with heq | ⟨hnone, hstart⟩
  · rw [heq]
  · simp [hnone, hstart, hf]

theorem tally_eq_zero {M : Type} [AddCommMonoid M] {f : Consume F Err → M}
    (hf : ∀ p : Consume F Err, p.active = 0 → f p = 0) (h : c.tally Consume.active = 0) :
    c.tally f = 0 := by
  refine Finset.sum_eq_zero fun t ht => ?_
  have hzero := Finset.sum_eq_zero_iff.mp h t ht
  cases hp : c.consuming t with
  | none => rfl
  | some p => exact hf p (by simpa [hp] using hzero)

end Places

namespace Inv

variable {c c' : Config F Err k} {t u : Thread k} {p : Consume F Err}
  {next : Option (Consume F Err)}

theorem holder_lock (h : Inv outcome c) (hfree : c.queue.holder = none) (ht : c'.Holds t)
    (hother : ∀ u ≠ t, c'.Holds u ↔ c.Holds u) (u : Thread k) : some t = some u ↔ c'.Holds u := by
  by_cases hu : u = t
  · subst hu
    simp [ht]
  · have hnot : ¬ c.Holds u := by
      rw [← h.holder u, hfree]
      simp
    rw [hother u hu]
    simp [hnot, Ne.symm hu]

theorem holder_unlock (h : Inv outcome c) (hhas : c.Holds t) (ht : ¬ c'.Holds t)
    (hother : ∀ u ≠ t, c'.Holds u ↔ c.Holds u) (u : Thread k) : none = some u ↔ c'.Holds u := by
  have hholder := (h.holder t).mpr hhas
  by_cases hu : u = t
  · subst hu
    simp [ht]
  · have hnot : ¬ c.Holds u := by
      rw [← h.holder u, hholder]
      simpa using Ne.symm hu
    rw [hother u hu]
    simp [hnot]

/-- A step outside of `Consume`, which changes none of the counters. -/
theorem frame (h : Inv outcome c) {x : Option (Thread k)} {b : Bool}
    (hq : c'.queue = { c.queue with holder := x, terminate := b })
    (hx : ∀ t, x = some t ↔ c'.Holds t)
    (hplaces : ∀ t, c'.consuming t = c.consuming t ∨
      c.consuming t = none ∧ c'.consuming t = some .start)
    (hdrained : c'.main.Drained → c.main.Drained) (hsettled : c'.main.Settled → c.main.Settled)
    (hreturned : ∀ r, c'.main = .returned r → c.main = .returned r) : Inv outcome c' := by
  have hactive : c'.tally Consume.active = c.tally Consume.active := tally_congr rfl hplaces
  have hjobs : c'.tally Consume.jobs = c.tally Consume.jobs := tally_congr rfl hplaces
  have herrors : c'.tally Consume.errors = c.tally Consume.errors := tally_congr rfl hplaces
  constructor
  · simpa only [hq] using hx
  · simpa only [hq, hactive] using h.active
  · simpa only [hq] using h.jobsCount_le
  · simpa only [hq] using h.pending
  · simpa only [hq, hjobs] using h.running
  · simpa only [hq, herrors] using h.errors
  · simpa only [hq] using h.ids
  · simpa only [hq] using fun hc' => h.drained (hdrained hc')
  · simpa only [hjobs, herrors] using fun hc' => h.settled (hsettled hc')
  · simpa only [hq] using fun r hr => h.returned r (hreturned r hr)

theorem settled_drained {m : Main F Err} (h : m.Settled) : m.Drained := by
  cases m <;> trivial

/-- Outside of what `compile` starts, a step in `Consume` does not do much. -/
theorem quiet (h : Inv outcome c) (hp : c.consuming t = some p) {q' : CompileQueue F Err k}
    (hstep : Consume.Stepped outcome t c.queue p q' next) (hs : c.main.Settled) :
    c.tally Consume.jobs + next.elim 0 Consume.jobs = p.jobs ∧
      c.tally Consume.errors + next.elim 0 Consume.errors = p.errors ∧
        q'.errors = c.queue.errors := by
  obtain ⟨hjobs, herrors⟩ := h.settled hs
  have hpjobs : p.jobs = 0 := by
    have hzero := Finset.sum_eq_zero_iff.mp hjobs t (Finset.mem_univ t)
    rwa [hp] at hzero
  have hperrors : p.errors = 0 := by
    have hzero := Finset.sum_eq_zero_iff.mp herrors t (Finset.mem_univ t)
    rwa [hp] at hzero
  obtain ⟨hn, hn', heq⟩ := hstep.quiet (h.drained (settled_drained hs)) hpjobs hperrors
  simp [hjobs, herrors, hpjobs, hperrors, hn, hn', heq]

/-- A step in `Consume`. -/
theorem consume (h : Inv outcome c) (hp : c.consuming t = some p)
    (hstep : Consume.Stepped outcome t c.queue p c'.queue next)
    (hplaces : c'.consuming = Function.update c.consuming t next)
    (hhas : c.Holds t ↔ p.Holds) (ht : c'.Holds t ↔ next.elim False Consume.Holds)
    (hother : ∀ u ≠ t, c'.Holds u ↔ c.Holds u)
    (hdrained : c'.main.Drained → c.main.Drained ∨ c'.queue.jobsCount = 0)
    (hsettled : c'.main.Settled → c'.main = c.main) (hreturned : ∀ r, c'.main = .returned r →
      c'.main = c.main) : Inv outcome c' := by
  have hle : p.active ≤ c.queue.activeWorkers := h.active ▸ le_tally hp
  have hactive := hstep.active_eq hle
  have hrunning := hstep.running_eq
  have herrors := hstep.errors_eq
  constructor
  · intro u
    rw [hstep.holder_eq ((h.holder t).trans hhas) u]
    by_cases hu : u = t
    · subst hu
      simp [ht]
    · rw [if_neg hu, hother u hu, h.holder u]
  · have htally : c'.tally Consume.active + p.active = _ := tally_update hp hplaces
    rw [h.active] at hactive
    omega
  · rw [hstep.jobs_eq]
    exact hstep.jobsCount_le.trans h.jobsCount_le
  · rw [hstep.pending_eq, hstep.scheduled_eq, h.pending]
  · exact balance_step h.running (tally_update hp hplaces) hstep.running_eq
  · exact balance_step h.errors (tally_update hp hplaces) hstep.errors_eq
  · rw [hstep.scheduled_eq, h.ids]
  · intro hd
    rcases hdrained hd with hd | hzero
    · exact Nat.le_zero.mp (h.drained hd ▸ hstep.jobsCount_le)
    · exact hzero
  · intro hs
    obtain ⟨hjobs, herrors, -⟩ := h.quiet hp hstep (hsettled hs ▸ hs)
    have htjobs : c'.tally Consume.jobs + p.jobs = _ := tally_update hp hplaces
    have hterrors : c'.tally Consume.errors + p.errors = _ := tally_update hp hplaces
    exact ⟨by simpa [hjobs] using htjobs, by simpa [herrors] using hterrors⟩
  · intro r hr
    have hmain := hreturned r hr
    obtain ⟨-, -, heq⟩ := h.quiet hp hstep (by rw [← hmain, hr]; trivial)
    rw [heq]
    exact h.returned r (hmain ▸ hr)

theorem lock_eq_some {q q' : CompileQueue F Err k} :
    q.lock t = some q' ↔ q.holder = none ∧ q' = { q with holder := some t } := by
  unfold CompileQueue.lock
  split <;> simp_all [eq_comm]

section Main

variable {m : Main F Err} {q : CompileQueue F Err k}

theorem holds_main (u : Thread k) (hu : u ≠ none) :
    Config.Holds { c with queue := q, main := m } u ↔ c.Holds u := by
  obtain ⟨i, rfl⟩ := Option.ne_none_iff_exists'.mp hu
  rfl

theorem consuming_main (hm : m.consuming = c.main.consuming) (t : Thread k) :
    Config.consuming { c with queue := q, main := m } t = c.consuming t ∨
      c.consuming t = none ∧
        Config.consuming { c with queue := q, main := m } t = some .start := by
  cases t with
  | none => exact .inl hm
  | some i => exact .inl rfl

theorem lock_main (h : Inv outcome c) (hq : c.queue.lock none = some q) (hm : m.Holds)
    (hplace : m.consuming = c.main.consuming) (hdrained : m.Drained → c.main.Drained)
    (hsettled : m.Settled → c.main.Settled)
    (hreturned : ∀ r, m = .returned r → c.main = .returned r) :
    Inv outcome { c with queue := q, main := m } := by
  obtain ⟨hfree, rfl⟩ := lock_eq_some.mp hq
  exact h.frame rfl (h.holder_lock hfree hm holds_main) (consuming_main hplace) hdrained hsettled
    hreturned

theorem unlock_main (h : Inv outcome c) {b : Bool} (hhas : c.main.Holds) (hm : ¬ m.Holds)
    (hplace : m.consuming = c.main.consuming) (hdrained : m.Drained → c.main.Drained)
    (hsettled : m.Settled → c.main.Settled)
    (hreturned : ∀ r, m = .returned r → c.main = .returned r) :
    Inv outcome { c with queue := ({ c.queue with terminate := b }).unlock, main := m } :=
  h.frame rfl (h.holder_unlock (t := none) hhas hm holds_main) (consuming_main hplace) hdrained
    hsettled hreturned

theorem notify_main (h : Inv outcome c) (hhas : c.main.Holds ↔ m.Holds)
    (hplace : m.consuming = c.main.consuming ∨ c.main.consuming = none ∧ m.consuming = some .start)
    (hdrained : m.Drained → c.main.Drained) (hsettled : m.Settled → c.main.Settled)
    (hreturned : ∀ r, m = .returned r → c.main = .returned r) :
    Inv outcome { c with main := m, worker := notifyAll c.worker } := by
  refine h.frame rfl ?_ ?_ hdrained hsettled hreturned
  · intro t
    rw [h.holder t]
    cases t with
    | none => exact hhas
    | some i => exact (holds_notifyAll c.worker).symm
  · intro t
    cases t with
    | none => exact hplace
    | some i => exact .inl (consuming_notifyAll c.worker)

theorem move_main (h : Inv outcome c) (hhas : c.main.Holds ↔ m.Holds)
    (hplace : m.consuming = c.main.consuming) (hdrained : m.Drained → c.main.Drained)
    (hsettled : m.Settled → c.main.Settled)
    (hreturned : ∀ r, m = .returned r → c.main = .returned r) :
    Inv outcome { c with main := m } := by
  refine h.frame rfl ?_ (consuming_main hplace) hdrained hsettled hreturned
  intro t
  rw [h.holder t]
  cases t with
  | none => exact hhas
  | some i => rfl

theorem map_id_newJobs (q : CompileQueue F Err k) (functions : List F) :
    (q.newJobs functions).map CompileJob.id = List.range' q.scheduled.length functions.length := by
  unfold CompileQueue.newJobs
  rw [List.map_map, List.range'_eq_map_range]
  refine List.ext_getElem (by simp) fun i hi hi' => ?_
  simp

theorem schedule_main (h : Inv outcome c) {functions : List F}
    (hmain : c.main = .scheduling functions) :
    Inv outcome { c with queue := (c.queue.schedule functions).unlock, main := .scheduled } := by
  have hcount : c.queue.jobsCount = 0 := h.drained (by simp [hmain])
  have hplaces : ∀ t, Config.consuming { c with
      queue := (c.queue.schedule functions).unlock, main := .scheduled } t = c.consuming t ∨ _ :=
    consuming_main (by simp [hmain])
  have hlength : (c.queue.newJobs functions).length = functions.length := by
    simp [CompileQueue.newJobs]
  constructor
  · exact h.holder_unlock (t := none) (by simp [Config.Holds, hmain]) id holds_main
  · exact h.active.trans (tally_congr rfl hplaces).symm
  · change c.queue.jobsCount + functions.length ≤ (c.queue.newJobs functions).length
    omega
  · have hpending := h.pending
    rw [hcount, List.take_zero] at hpending
    change (((c.queue.newJobs functions).take (c.queue.jobsCount + functions.length) : List _) :
      Multiset (CompileJob F)) + c.queue.started =
        (c.queue.scheduled ++ c.queue.newJobs functions : List _)
    rw [hcount, Nat.zero_add, ← hlength, List.take_length, ← Multiset.coe_add, ← hpending]
    simp [add_comm]
  · exact (congrArg _ (tally_congr rfl hplaces)).trans h.running
  · exact (congrArg _ (tally_congr rfl hplaces)).trans h.errors
  · change (c.queue.scheduled ++ c.queue.newJobs functions).map CompileJob.id = _
    rw [List.map_append, h.ids, map_id_newJobs, List.range_eq_range', List.range_eq_range']
    change _ = List.range' 0 (c.queue.scheduled ++ c.queue.newJobs functions).length
    rw [List.length_append, hlength, ← List.range'_append_1, Nat.zero_add]
  · exact fun hd => hd.elim
  · exact fun hd => hd.elim
  · rintro r ⟨⟩

/-- `Wait` comes to its end. -/
theorem return_main (h : Inv outcome c) (hmain : c.main = .check)
    (hactive : c.queue.activeWorkers = 0) (hcount : c.queue.jobsCount = 0) :
    Inv outcome { c with
      queue := ({ c.queue with jobs := [] }).unlock
      main := .returned c.queue.errors.head? } := by
  have hplaces : ∀ t, Config.consuming { c with
      queue := ({ c.queue with jobs := [] }).unlock
      main := .returned c.queue.errors.head? } t = c.consuming t ∨ _ :=
    consuming_main (by simp [hmain])
  have hzero : c.tally Consume.active = 0 := h.active ▸ hactive
  have hpending := h.pending
  rw [hcount, List.take_zero] at hpending
  constructor
  · exact h.holder_unlock (t := none) (by simp [Config.Holds, hmain]) id holds_main
  · exact h.active.trans (tally_congr rfl hplaces).symm
  · exact hcount ▸ Nat.le_refl 0
  · change ((([] : List (CompileJob F)).take _ : List _) : Multiset (CompileJob F)) + _ = _
    rw [List.take_nil]
    exact hpending
  · exact (congrArg _ (tally_congr rfl hplaces)).trans h.running
  · exact (congrArg _ (tally_congr rfl hplaces)).trans h.errors
  · exact h.ids
  · exact fun _ => hcount
  · rw [tally_congr rfl hplaces, tally_congr rfl hplaces]
    refine fun _ => ⟨tally_eq_zero (fun p hp => ?_) hzero, tally_eq_zero (fun p hp => ?_) hzero⟩ <;>
      cases p <;> first | rfl | cases hp
  · rintro r ⟨⟩
    rfl

theorem step_main (h : Inv outcome c) (hstep : c.stepMain outcome = some c') :
    Inv outcome c' := by
  unfold Config.stepMain at hstep
  cases hmain : c.main with
  | schedule functions =>
    rw [hmain] at hstep
    obtain ⟨q, hq, rfl⟩ := Option.map_eq_some_iff.mp hstep
    refine h.lock_main hq ?_ ?_ ?_ ?_ ?_ <;> simp [hmain]
  | scheduling functions =>
    obtain rfl : _ = c' := by simpa [hmain] using hstep
    exact h.schedule_main hmain
  | scheduled =>
    obtain rfl : _ = c' := by simpa [hmain] using hstep
    refine h.notify_main ?_ ?_ ?_ ?_ ?_ <;> simp [hmain, Consume.Holds]
  | consume p =>
    rw [hmain] at hstep
    obtain ⟨⟨q, next⟩, hq, rfl⟩ := Option.map_eq_some_iff.mp hstep
    have hstepped := Consume.stepped_of_step hq
    refine h.consume (t := none) (p := p) (by simp [Config.consuming, hmain]) hstepped
      ?_ (by simp [Config.Holds, hmain]) ?_ holds_main ?_ ?_ ?_
    · funext t
      cases t with
      | none => cases next <;> simp [Config.consuming]
      | some i => simp [Config.consuming]
    · cases next <;> simp [Config.Holds]
    · cases hstepped with
      | exit hcount => exact fun _ => .inr hcount
      | _ => exact fun hd => hd.elim
    · cases next <;> exact fun hd => hd.elim
    · cases next <;> rintro r ⟨⟩
  | wait =>
    rw [hmain] at hstep
    obtain ⟨q, hq, rfl⟩ := Option.map_eq_some_iff.mp hstep
    refine h.lock_main hq ?_ ?_ ?_ ?_ ?_ <;> simp [hmain]
  | check =>
    simp only [hmain] at hstep
    split at hstep
    · cases hstep
      exact h.return_main hmain (by tauto) (by tauto)
    · cases hstep
      refine h.unlock_main ?_ ?_ ?_ ?_ ?_ ?_ <;> simp [hmain]
  | destroy =>
    rw [hmain] at hstep
    obtain ⟨q, hq, rfl⟩ := Option.map_eq_some_iff.mp hstep
    refine h.lock_main hq ?_ ?_ ?_ ?_ ?_ <;> simp [hmain]
  | terminating =>
    obtain rfl : _ = c' := by simpa [hmain] using hstep
    refine h.unlock_main ?_ ?_ ?_ ?_ ?_ ?_ <;> simp [hmain]
  | terminated =>
    obtain rfl : _ = c' := by simpa [hmain] using hstep
    refine h.notify_main ?_ ?_ ?_ ?_ ?_ <;> simp [hmain]
  | join =>
    simp only [hmain, Option.ite_none_right_eq_some] at hstep
    obtain rfl := Option.some.inj hstep.2
    refine h.move_main ?_ ?_ ?_ ?_ ?_ <;> simp [hmain]
  | _ => simp [hmain] at hstep

end Main

section Worker

variable {q : CompileQueue F Err k} {i : Fin k} {w : Worker F Err}

theorem holds_worker {m : Main F Err} (hm : m.Holds ↔ c.main.Holds) (u : Thread k)
    (hu : u ≠ some i) :
    Config.Holds (Config.setWorker { c with queue := q, main := m } i w) u ↔ c.Holds u := by
  rw [holds_setWorker, if_neg hu]
  cases u with
  | none => exact hm
  | some j => rfl

theorem consuming_worker {m : Main F Err} (hm : m.consuming = c.main.consuming)
    (hw : w.consuming = (c.worker i).consuming ∨
      (c.worker i).consuming = none ∧ w.consuming = some .start) (t : Thread k) :
    Config.consuming (Config.setWorker { c with queue := q, main := m } i w) t = c.consuming t ∨
      c.consuming t = none ∧
        Config.consuming (Config.setWorker { c with queue := q, main := m } i w) t = some .start := by
  rw [consuming_setWorker]
  by_cases ht : t = some i
  · subst ht
    rw [Function.update_self]
    exact hw
  · rw [Function.update_of_ne ht]
    cases t with
    | none => exact .inl hm
    | some j => exact .inl rfl

theorem lock_worker (h : Inv outcome c) (hq : c.queue.lock (some i) = some q) (hw : w.Holds)
    (hplace : w.consuming = (c.worker i).consuming) :
    Inv outcome (Config.setWorker { c with queue := q } i w) := by
  obtain ⟨hfree, rfl⟩ := lock_eq_some.mp hq
  refine h.frame rfl (h.holder_lock hfree ?_ (holds_worker Iff.rfl))
    (consuming_worker rfl (.inl hplace)) id id fun _ => id
  rw [holds_setWorker, if_pos rfl]
  exact hw

theorem unlock_worker (h : Inv outcome c) (hhas : (c.worker i).Holds) (hw : ¬ w.Holds)
    (hplace : w.consuming = (c.worker i).consuming ∨
      (c.worker i).consuming = none ∧ w.consuming = some .start) :
    Inv outcome (Config.setWorker { c with queue := c.queue.unlock } i w) := by
  refine h.frame rfl (h.holder_unlock (t := some i) hhas ?_ (holds_worker Iff.rfl))
    (consuming_worker rfl hplace) id id fun _ => id
  rw [holds_setWorker, if_pos rfl]
  exact hw

theorem move_worker (h : Inv outcome c) {m : Main F Err} (hm : m = c.main ∨ m = notifyOne c.main)
    (hhas : (c.worker i).Holds ↔ w.Holds) (hplace : w.consuming = (c.worker i).consuming) :
    Inv outcome (Config.setWorker { c with main := m } i w) := by
  have hmain : m = c.main ∨ c.main = .waiting ∧ m = .wait := by
    rcases hm with rfl | rfl
    · exact .inl rfl
    · cases hc : c.main <;> simp [notifyOne]
  have hsame : (m.Holds ↔ c.main.Holds) ∧ m.consuming = c.main.consuming ∧
      (m.Drained → c.main.Drained) ∧ (m.Settled → c.main.Settled) ∧
      ∀ r, m = .returned r → c.main = .returned r := by
    rcases hmain with rfl | ⟨hc, rfl⟩
    · exact ⟨Iff.rfl, rfl, id, id, fun _ => id⟩
    · simp [hc]
  obtain ⟨hholds, hconsuming, hdrained, hsettled, hreturned⟩ := hsame
  refine h.frame rfl ?_ (consuming_worker hconsuming (.inl hplace)) hdrained hsettled hreturned
  intro t
  rw [h.holder t]
  by_cases ht : t = some i
  · subst ht
    rw [holds_setWorker, if_pos rfl]
    exact hhas
  · exact (holds_worker hholds t ht).symm

theorem step_worker (h : Inv outcome c) (hstep : c.stepWorker outcome i = some c') :
    Inv outcome c' := by
  unfold Config.stepWorker at hstep
  cases hw : c.worker i with
  | start =>
    rw [hw] at hstep
    obtain ⟨q, hq, rfl⟩ := Option.map_eq_some_iff.mp hstep
    refine h.lock_worker hq ?_ ?_ <;> simp [hw]
  | check =>
    simp only [hw] at hstep
    split at hstep
    · cases hstep
      refine h.unlock_worker ?_ ?_ ?_ <;> simp [hw]
    · split at hstep
      · cases hstep
        refine h.unlock_worker ?_ ?_ ?_ <;> simp [hw]
      · cases hstep
        refine h.unlock_worker ?_ ?_ ?_ <;> simp [hw, Consume.Holds]
  | consume p =>
    rw [hw] at hstep
    obtain ⟨⟨q, next⟩, hq, rfl⟩ := Option.map_eq_some_iff.mp hstep
    refine h.consume (t := some i) (p := p) (by simp [Config.consuming, hw])
      (Consume.stepped_of_step hq) ?_ (by simp [Config.Holds, hw]) ?_ (holds_worker Iff.rfl) .inl
      (fun _ => rfl) fun _ _ => rfl
    · rw [consuming_setWorker]
      cases next <;> rfl
    · rw [holds_setWorker, if_pos rfl]
      cases next <;> simp
  | consumed =>
    obtain rfl : _ = c' := by simpa [hw] using hstep
    refine h.move_worker (.inr rfl) ?_ ?_ <;> simp [hw]
  | _ => simp [hw] at hstep

end Worker

theorem step (h : Inv outcome c) {a : Action F k} (hstep : c.next outcome a = some c') :
    Inv outcome c' := by
  cases a with
  | step t =>
    cases t with
    | none => exact h.step_main hstep
    | some i => exact h.step_worker hstep
  | compile functions =>
    simp only [Config.next, Config.compile] at hstep
    cases hmain : c.main <;> simp only [hmain, Option.some.injEq, reduceCtorEq] at hstep
    all_goals
      subst hstep
      refine h.move_main ?_ ?_ ?_ ?_ ?_ <;> simp [hmain]
  | delete =>
    simp only [Config.next, Config.delete] at hstep
    cases hmain : c.main <;> simp only [hmain, Option.some.injEq, reduceCtorEq] at hstep
    all_goals
      subst hstep
      refine h.move_main ?_ ?_ ?_ ?_ ?_ <;> simp [hmain]
  | wake t =>
    cases t with
    | none =>
      simp only [Config.next, Config.wake] at hstep
      cases hmain : c.main <;> simp [hmain] at hstep
      subst hstep
      refine h.move_main ?_ ?_ ?_ ?_ ?_ <;> simp [hmain]
    | some i =>
      simp only [Config.next, Config.wake] at hstep
      cases hw : c.worker i <;> simp [hw] at hstep
      subst hstep
      refine h.move_worker (.inl rfl) ?_ ?_ <;> simp [hw]

theorem start : Inv outcome (Config.start F Err k) where
  holder := by
    intro t
    cases t <;> simp [Config.start, Config.Holds]
  active := by simp [Config.start, Config.tally, Config.consuming]
  jobsCount_le := Nat.le_refl 0
  pending := rfl
  running := by simp [Config.start, Config.tally, Config.consuming]
  errors := by simp [Config.start, Config.tally, Config.consuming]
  ids := rfl
  drained := fun _ => rfl
  settled := by simp [Config.start, Config.tally, Config.consuming]
  returned := by rintro r ⟨⟩

end Inv

theorem Reachable.inv {c : Config F Err k} (h : Reachable outcome c) : Inv outcome c := by
  induction h with
  | start => exact .start
  | next _ hstep ih => exact ih.step hstep

end ArkTs2abc.Es2panda.Queue
