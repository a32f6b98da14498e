import Mathlib.Algebra.BigOperators.Fin
import Mathlib.Algebra.Order.BigOperators.Group.Finset
import Mathlib.Algebra.Order.Group.Multiset
import Mathlib.Logic.Relation

/-!
# The compile queue

The thread that calls the compiler schedules a job for each function, consumes jobs
itself next to the worker threads, and waits for what the workers are still at. The
workers wait for jobs.

A thread stands between two statements of its code. What it does up to the next
statement at which another thread could notice is one step: it takes the mutex, or it
does what the code does while it holds the mutex, up to where it gives it back. A
thread in `wait` of a condition variable is woken by a notification, or for no reason
at all; either way it takes the mutex again and looks at its condition.

What a job does is a parameter: it comes to its end, or it throws an error. What has
been scheduled, started and finished is recorded; nothing depends on it.

## Main definitions

* `CompileQueue` — the fields of the queue.
* `Consume`, `Main`, `Worker` — where threads stand.
* `Config.step` — the steps.
* `Reachable` — the configurations that come up.
-/

namespace ArkTs2abc.Es2panda.Queue

/-- A `CompileJob`: one of the jobs that are allocated, and the function to be compiled. -/
structure CompileJob (F : Type) where
  id : ℕ
  function : F
  deriving DecidableEq, Repr

/-- Where a thread stands in `Consume`. -/
inductive Consume (F Err : Type) where
  | start
  /-- Has the mutex; `activeWorkers_++` is next. -/
  | enter
  /-- Has the mutex, in front of the loop's condition. -/
  | loop
  | run (job : CompileJob F)
  | caught (e : Err)
  /-- Has the mutex; `errors_.push_back(e)` is next. -/
  | record (e : Err)
  /-- In front of the `lock` at the end of the loop's body. -/
  | relock
  deriving DecidableEq, Repr

/-- Where the calling thread stands. -/
inductive Main (F Err : Type) where
  /-- Outside of the queue, which has not been used so far. -/
  | idle
  /-- In front of `Schedule`, for these functions. -/
  | schedule (functions : List F)
  /-- Has the mutex. -/
  | scheduling (functions : List F)
  /-- In front of `notify_all`. -/
  | scheduled
  | consume (p : Consume F Err)
  /-- In `Wait`, without the mutex. -/
  | wait
  /-- Has the mutex, in front of the condition. -/
  | check
  | waiting
  /-- Outside of the queue: `Wait` has returned, or has thrown the error. -/
  | returned (error : Option Err)
  /-- In the destructor. -/
  | destroy
  | terminating
  | terminated
  | join
  | done
  deriving DecidableEq, Repr

/-- Where a worker stands. -/
inductive Worker (F Err : Type) where
  | start
  /-- Has the mutex, in front of the condition. -/
  | check
  | waiting
  | consume (p : Consume F Err)
  /-- In front of `notify_one`. -/
  | consumed
  | done
  deriving DecidableEq, Repr

def Worker.isDone {F Err : Type} : Worker F Err → Bool
  | .done => true
  | _ => false

/-- The calling thread, or one of the workers. -/
abbrev Thread (k : ℕ) := Option (Fin k)

/-- The fields of the queue, the holder of its mutex, and the record. -/
structure CompileQueue (F Err : Type) (k : ℕ) where
  errors : List Err
  jobs : List (CompileJob F)
  jobsCount : ℕ
  activeWorkers : ℕ
  terminate : Bool
  holder : Option (Thread k)
  scheduled : List (CompileJob F)
  started : List (CompileJob F)
  finished : List (CompileJob F)

structure Config (F Err : Type) (k : ℕ) where
  queue : CompileQueue F Err k
  main : Main F Err
  worker : Fin k → Worker F Err

variable {F Err : Type} {k : ℕ}

namespace CompileQueue

/-- The mutex is taken by the thread, if it is free. -/
def lock (q : CompileQueue F Err k) (t : Thread k) : Option (CompileQueue F Err k) :=
  if q.holder = none then some { q with holder := some t } else none

def unlock (q : CompileQueue F Err k) : CompileQueue F Err k := { q with holder := none }

/-- The jobs of the functions, with numbers that are not taken. -/
def newJobs (q : CompileQueue F Err k) (functions : List F) : List (CompileJob F) :=
  functions.zipIdx.map fun (f, i) => ⟨q.scheduled.length + i, f⟩

/-- What `Schedule` does with the mutex. -/
def schedule (q : CompileQueue F Err k) (functions : List F) : CompileQueue F Err k :=
  { q with
    jobs := q.newJobs functions
    jobsCount := q.jobsCount + functions.length
    scheduled := q.scheduled ++ q.newJobs functions }

end CompileQueue

/-- A step of a thread in `Consume`; without a next place it is at its end. -/
def Consume.step (outcome : F → Option Err) (t : Thread k) (q : CompileQueue F Err k) :
    Consume F Err → Option (CompileQueue F Err k × Option (Consume F Err))
  | .start => (q.lock t).map fun q => (q, some .enter)
  | .enter => some ({ q with activeWorkers := q.activeWorkers + 1 }, some .loop)
  | .loop =>
    match q.jobsCount with
    | 0 => some (({ q with activeWorkers := q.activeWorkers - 1 }).unlock, none)
    | n + 1 => (q.jobs[n]?).map fun job =>
        (({ q with jobsCount := n, started := q.started ++ [job] }).unlock, some (.run job))
  | .run job =>
    some ({ q with finished := q.finished ++ [job] }, some <|
      match outcome job.function with
      | none => .relock
      | some e => .caught e)
  | .caught e => (q.lock t).map fun q => (q, some (.record e))
  | .record e => some (({ q with errors := q.errors ++ [e] }).unlock, some .relock)
  | .relock => (q.lock t).map fun q => (q, some .loop)

/-- `jobsAvailable_.notify_all()`. -/
def notifyAll (worker : Fin k → Worker F Err) (i : Fin k) : Worker F Err :=
  match worker i with
  | .waiting => .start
  | w => w

/-- `jobsFinished_.notify_one()`; nobody but the calling thread waits there. -/
def notifyOne : Main F Err → Main F Err
  | .waiting => .wait
  | m => m

namespace Config

/-- A step of the calling thread. -/
def stepMain (outcome : F → Option Err) (c : Config F Err k) : Option (Config F Err k) :=
  match c.main with
  | .idle | .returned _ | .waiting | .done => none
  | .schedule functions => (c.queue.lock none).map fun q =>
      { c with queue := q, main := .scheduling functions }
  | .scheduling functions =>
    some { c with queue := (c.queue.schedule functions).unlock, main := .scheduled }
  | .scheduled => some { c with main := .consume .start, worker := notifyAll c.worker }
  | .consume p => (p.step outcome none c.queue).map fun (q, next) =>
      { c with queue := q, main := next.elim .wait .consume }
  | .wait => (c.queue.lock none).map fun q => { c with queue := q, main := .check }
  | .check =>
    if c.queue.activeWorkers = 0 ∧ c.queue.jobsCount = 0 then
      some { c with
        queue := ({ c.queue with jobs := [] }).unlock -- delete[] jobs_
        main := .returned c.queue.errors.head? }
    else some { c with queue := c.queue.unlock, main := .waiting }
  | .destroy => (c.queue.lock none).map fun q => { c with queue := q, main := .terminating }
  | .terminating =>
    some { c with queue := ({ c.queue with terminate := true }).unlock, main := .terminated }
  | .terminated => some { c with main := .join, worker := notifyAll c.worker }
  | .join => if ∀ i, (c.worker i).isDone then some { c with main := .done } else none

/-- The worker goes on from `w`. -/
def setWorker (c : Config F Err k) (i : Fin k) (w : Worker F Err) : Config F Err k :=
  { c with worker := Function.update c.worker i w }

/-- A step of a worker. -/
def stepWorker (outcome : F → Option Err) (c : Config F Err k) (i : Fin k) :
    Option (Config F Err k) :=
  match c.worker i with
  | .waiting | .done => none
  | .start => (c.queue.lock (some i)).map fun q => ({ c with queue := q }).setWorker i .check
  | .check =>
    let c' : Config F Err k := { c with queue := c.queue.unlock }
    if c.queue.terminate then some (c'.setWorker i .done)
    else if c.queue.jobsCount = 0 then some (c'.setWorker i .waiting)
    else some (c'.setWorker i (.consume .start))
  | .consume p => (p.step outcome (some i) c.queue).map fun (q, next) =>
      ({ c with queue := q }).setWorker i (next.elim .consumed .consume)
  | .consumed => some (({ c with main := notifyOne c.main }).setWorker i .start)

/-- A step of a thread. -/
def step (outcome : F → Option Err) (c : Config F Err k) : Thread k → Option (Config F Err k)
  | none => c.stepMain outcome
  | some i => c.stepWorker outcome i

/-- The calling thread calls `Schedule`, `Consume` and `Wait` for these functions. -/
def compile (c : Config F Err k) (functions : List F) : Option (Config F Err k) :=
  match c.main with
  | .idle | .returned _ => some { c with main := .schedule functions }
  | _ => none

/-- The calling thread deletes the queue. -/
def delete (c : Config F Err k) : Option (Config F Err k) :=
  match c.main with
  | .idle | .returned _ => some { c with main := .destroy }
  | _ => none

/-- A thread that waits wakes up for no reason. -/
def wake (c : Config F Err k) : Thread k → Option (Config F Err k)
  | none => if c.main matches .waiting then some { c with main := .wait } else none
  | some i => if c.worker i matches .waiting then some (c.setWorker i .start) else none

end Config

/-- What may happen next. -/
inductive Action (F : Type) (k : ℕ) where
  | step (t : Thread k)
  | compile (functions : List F)
  | delete
  | wake (t : Thread k)
  deriving DecidableEq

namespace Config

def next (outcome : F → Option Err) (c : Config F Err k) : Action F k → Option (Config F Err k)
  | .step t => c.step outcome t
  | .compile functions => c.compile functions
  | .delete => c.delete
  | .wake t => c.wake t

/-- A queue with its threads, before anything has been scheduled. -/
def start (F Err : Type) (k : ℕ) : Config F Err k where
  queue :=
    { errors := [], jobs := [], jobsCount := 0, activeWorkers := 0, terminate := false
      holder := none, scheduled := [], started := [], finished := [] }
  main := .idle
  worker := fun _ => .start

/-- What some actions lead to. -/
def run (outcome : F → Option Err) : Config F Err k → List (Action F k) → Option (Config F Err k)
  | c, [] => some c
  | c, a :: as => (c.next outcome a).bind fun c => c.run outcome as

end Config

/-- The configurations that any interleaving of the threads leads to. -/
inductive Reachable (outcome : F → Option Err) : Config F Err k → Prop where
  | start : Reachable outcome (Config.start F Err k)
  | next {c c' a} : Reachable outcome c → c.next outcome a = some c' → Reachable outcome c'

theorem Reachable.run {outcome : F → Option Err} {c c' : Config F Err k} {as : List (Action F k)}
    (h : Reachable outcome c) (hrun : c.run outcome as = some c') : Reachable outcome c' := by
  induction as generalizing c with
  | nil => exact Option.some.inj hrun ▸ h
  | cons a as ih =>
    obtain ⟨c₁, hstep, hrun⟩ := Option.bind_eq_some_iff.mp hrun
    exact ih (h.next hstep) hrun

end ArkTs2abc.Es2panda.Queue
