import Mathlib.Data.Finset.Card
import Mathlib.Data.Finset.Filter
import Mathlib.Data.Finset.Range
import Mathlib.Data.UInt
import Mathlib.Logic.Function.Basic
import NavekFiber.Machine.Run

/-! # The worker pool `ThreadPool`

`Enqueue` queues a task and samples the numbers of workers and tasks in one section guarded by
`PoolQueueSync`, lets `CheckResize` decide from the sample how many workers to add, and `Hire` adds
them in a second section. A worker takes tasks in a section of its own and counts itself busy, with
the atomic `PoolBusyWorkers`, only after that section and until the task is done.

* `ThreadPool.Limits`: the worker limits, with what the constructor checks about them.
* `ThreadPool`, `enqueueSection`, `workSection`, `hireSection`: the shared state and the sections.
* `ThreadPool.checkResize`: the decision, in the `size_t` arithmetic of the source.
* `Pool.machine`: any number of threads in `Enqueue` and the workers they hire.

Waiting with a timeout and waking up, in time or not, are one step: a worker may run its section at
any moment, and an empty queue there is what a timeout finds. The binding of workers to cores does
not affect these steps and is left out. -/

namespace NavekFiber

/-- A task, `function<void()>` in the source; the number tells tasks apart. -/
abbrev Task := ℕ

/-- `std::thread::id`. -/
abbrev ThreadId := ℕ

/-- The state that `PoolQueueSync` guards, `PoolYet` and `PoolBusyWorkers`. -/
structure ThreadPool where
  /-- `PoolYet`. -/
  poolYet : Bool
  /-- `PoolBusyWorkers`, an `atomic_long`. -/
  poolBusyWorkers : ℤ
  /-- The keys of `PoolWorkers`. -/
  poolWorkers : Finset ThreadId
  /-- `PoolTasks`, the front first. -/
  poolTasks : List Task

namespace ThreadPool

/-- The limits given to the constructor, which throws unless `1 ≤ init ≤ max`. -/
structure Limits where
  /-- `PoolInitWorkers`. -/
  poolInitWorkers : UInt64
  /-- `PoolMaxWorkers`. -/
  poolMaxWorkers : UInt64
  /-- `!PoolInitWorkers` is refused. -/
  init_pos : 0 < poolInitWorkers.toNat
  /-- `PoolMaxWorkers < PoolInitWorkers` is refused. -/
  init_le_max : poolInitWorkers.toNat ≤ poolMaxWorkers.toNat

/-- The kinds of worker that are hired. -/
inductive WorkerType
  /-- `sPersistent`, never leaves while the pool runs. -/
  | persistent
  /-- `sExtended`, leaves when it finds nothing to do. -/
  | extended
  deriving DecidableEq, Repr

/-- The section of `Enqueue`: queue the task and sample the counts; `none` when it throws. -/
def enqueueSection (pool : ThreadPool) (task : Task) : Option (ThreadPool × UInt64 × UInt64) :=
  if pool.poolYet then
    let pool' := { pool with poolTasks := pool.poolTasks ++ [task] }
    some (pool', UInt64.ofNat pool'.poolWorkers.card, UInt64.ofNat pool'.poolTasks.length)
  else none

/-- `NumWorker - (long)PoolBusyWorkers`, the idle workers that `CheckResize` computes. -/
def availableWorkers (numWorker : UInt64) (busy : ℤ) : UInt64 := numWorker - UInt64.ofInt busy

/-- `NewWorkerCount` before it is cut to the limit: the workers missing, rounded up to a multiple of
`PoolInitWorkers`. -/
def wantedWorkers (l : Limits) (numWorker numTasks : UInt64) (busy : ℤ) : UInt64 :=
  let available := availableWorkers numWorker busy
  if available < numTasks then
    ((numTasks - available) + (l.poolInitWorkers - 1)) / l.poolInitWorkers * l.poolInitWorkers
  else 0

/-- `CheckResize`: how many workers to hire. -/
def checkResize (l : Limits) (numWorker numTasks : UInt64) (busy : ℤ) : UInt64 :=
  let newWorkerCount := wantedWorkers l numWorker numTasks busy
  if l.poolMaxWorkers < numWorker + newWorkerCount then l.poolMaxWorkers - numWorker
  else newWorkerCount

/-- One of the subtractions of `CheckResize` goes below zero: `NumWorker - PoolBusyWorkers`, or
`PoolMaxWorkers - NumWorker` where it is computed. -/
def Wraps (l : Limits) (numWorker numTasks : UInt64) (busy : ℤ) : Prop :=
  numWorker.toNat < busy ∨
    l.poolMaxWorkers < numWorker + wantedWorkers l numWorker numTasks busy ∧
      l.poolMaxWorkers.toNat < numWorker.toNat

instance (l : Limits) (numWorker numTasks : UInt64) (busy : ℤ) :
    Decidable (Wraps l numWorker numTasks busy) :=
  inferInstanceAs (Decidable (_ ∨ _))

/-- The section of `Hire`: enter the new threads into `PoolWorkers`. When an id is taken already,
`emplace` drops the joinable `std::thread` it was given and the process terminates: `none`. -/
def hireSection : ThreadPool → List ThreadId → Option ThreadPool
  | pool, [] => some pool
  | pool, id :: ids =>
      if id ∈ pool.poolWorkers then none
      else hireSection { pool with poolWorkers := insert id pool.poolWorkers } ids

/-- How the section of a worker ends. -/
inductive WorkResult
  /-- `PoolYet` is cleared and the thread returns. -/
  | terminate
  /-- There is nothing to do and a persistent worker waits again. -/
  | again
  /-- There is nothing to do and an extended worker returns. -/
  | leave
  /-- The worker took this task. -/
  | run (task : Task)
  deriving DecidableEq, Repr

/-- The section of the worker `id`. The call of `Workers.erase` stands among the arguments of
`dbg_trace`, which expands to nothing in a build with `NDEBUG`. -/
def workSection (ndebug : Bool) (pool : ThreadPool) (id : ThreadId) (type : WorkerType) :
    ThreadPool × WorkResult :=
  if pool.poolYet then
    match pool.poolTasks with
    | [] =>
        match type with
        | .persistent => (pool, .again)
        | .extended =>
            if id ∈ pool.poolWorkers ∧ ndebug = false then
              ({ pool with poolWorkers := pool.poolWorkers.erase id }, .leave)
            else (pool, .leave)
    | task :: rest => ({ pool with poolTasks := rest }, .run task)
  else (pool, .terminate)

section Sections

variable {pool : ThreadPool} {ids : List ThreadId}

/-- The section of `Hire` fails on an id that is registered. -/
theorem hireSection_of_mem (hmem : ∃ id ∈ ids, id ∈ pool.poolWorkers) :
    pool.hireSection ids = none := by
  induction ids generalizing pool with
  | nil => simp at hmem
  | cons first ids ih =>
      rw [hireSection]
      split
      · rfl
      · rename_i hfirst
        -- The registered id is among the rest, and entering `first` does not take it away.
        refine ih ?_
        obtain ⟨id, hid, hreg⟩ := hmem
        rcases List.mem_cons.mp hid with rfl | hid
        · exact absurd hreg hfirst
        · exact ⟨id, hid, Finset.mem_insert_of_mem hreg⟩

/-- The section of `Hire` enters exactly the new threads and changes nothing else. -/
theorem hireSection_of_notMem (hnodup : ids.Nodup) (hnew : ∀ id ∈ ids, id ∉ pool.poolWorkers) :
    pool.hireSection ids = some { pool with poolWorkers := pool.poolWorkers ∪ ids.toFinset } := by
  induction ids generalizing pool with
  | nil => simp [hireSection]
  | cons first ids ih =>
      obtain ⟨hfirst, hrest⟩ := List.nodup_cons.mp hnodup
      rw [hireSection, if_neg (hnew first List.mem_cons_self), ih hrest]
      · simp [Finset.insert_union, Finset.union_insert]
      · intro id hid hmem
        -- A later id is none of the old entries, and not the one entered just now.
        rcases Finset.mem_insert.mp hmem with rfl | hreg
        · exact hfirst hid
        · exact hnew id (List.mem_cons_of_mem _ hid) hreg

end Sections

end ThreadPool

namespace Pool

open ThreadPool

/-- A thread that calls `Enqueue`. -/
abbrev ProducerId := ℕ

/-- Where a thread id stands. -/
inductive Worker
  /-- No thread has had the id. -/
  | absent
  /-- Between tasks, about to enter the section of a worker. -/
  | waiting (type : WorkerType)
  /-- Has taken a task and is about to count itself busy. -/
  | taken (type : WorkerType) (task : Task)
  /-- Counts as busy. -/
  | running (type : WorkerType) (task : Task)
  /-- Has left after finding nothing to do; the thread is detached and its id is free again. -/
  | left
  /-- Has returned because `PoolYet` was cleared; the thread waits to be joined. -/
  | terminated
  deriving DecidableEq, Repr

/-- A thread is alive. -/
def Worker.isLive : Worker → Bool
  | .waiting _ | .taken _ _ | .running _ _ => true
  | _ => false

/-- A thread counts as busy. -/
def Worker.isRunning : Worker → Bool
  | .running _ _ => true
  | _ => false

/-- The system may give the id to a new thread. -/
def Worker.isFree : Worker → Bool
  | .absent | .left => true
  | _ => false

/-- Where a thread that calls `Enqueue` stands. -/
inductive Producer
  /-- Outside `Enqueue`. -/
  | idle
  /-- Has queued its task and is about to call `CheckResize` with these counts. -/
  | sampled (numWorker numTasks : UInt64)
  /-- `CheckResize` is about to hire this many workers on the strength of that sample. -/
  | hiring (numWorker newWorkerCount : UInt64)
  deriving DecidableEq, Repr

/-- One atomic step of the pool. -/
inductive Action
  /-- The section of `Enqueue`. -/
  | enqueue (p : ProducerId) (task : Task)
  /-- `CheckResize` up to the call of `Hire`. -/
  | checkResize (p : ProducerId)
  /-- The section of `Hire`, for which the system supplies the thread ids. -/
  | hire (p : ProducerId) (ids : List ThreadId)
  /-- The section of a worker. -/
  | work (id : ThreadId)
  /-- `Busy += 1`. -/
  | busyUp (id : ThreadId)
  /-- The task is done and `Busy -= 1`. -/
  | busyDown (id : ThreadId)
  /-- `Join` clears `PoolYet`. -/
  | join
  deriving DecidableEq, Repr

/-- The pool, its threads, and what has happened so far. -/
structure State where
  /-- The shared state. -/
  pool : ThreadPool
  /-- The threads of the pool. -/
  workers : ThreadId → Worker
  /-- The threads that call `Enqueue`. -/
  producers : ProducerId → Producer
  /-- The process has terminated in `Hire`. -/
  aborted : Bool
  /-- The tasks `Enqueue` accepted, in order. -/
  accepted : List Task
  /-- The tasks workers took, in order. -/
  dequeued : List Task
  /-- A subtraction of `CheckResize` has gone below zero. -/
  wrapped : Bool

/-- The state after the constructor has hired the persistent workers. -/
def State.init (l : Limits) : State where
  pool := ⟨true, 0, Finset.range l.poolInitWorkers.toNat, []⟩
  workers id := if id < l.poolInitWorkers.toNat then .waiting .persistent else .absent
  producers _ := .idle
  aborted := false
  accepted := []
  dequeued := []
  wrapped := false

/-- The state with one worker moved on. -/
def State.setWorker (s : State) (id : ThreadId) (worker : Worker) : State :=
  { s with workers := Function.update s.workers id worker }

/-- The state after the section of `Enqueue`, which throws on a stopped pool. -/
def State.afterEnqueue (s : State) (p : ProducerId) (task : Task) : State :=
  match s.pool.enqueueSection task with
  | some (pool, numWorker, numTasks) =>
      { s with
        pool := pool
        producers := Function.update s.producers p (.sampled numWorker numTasks)
        accepted := s.accepted ++ [task] }
  | none => s

/-- The state after `CheckResize` has read `PoolBusyWorkers` and decided. -/
def State.afterCheckResize (l : Limits) (s : State) (p : ProducerId)
    (numWorker numTasks : UInt64) : State :=
  let newWorkerCount := checkResize l numWorker numTasks s.pool.poolBusyWorkers
  { s with
    producers := Function.update s.producers p
      (if 0 < newWorkerCount then .hiring numWorker newWorkerCount else .idle)
    wrapped := s.wrapped || decide (Wraps l numWorker numTasks s.pool.poolBusyWorkers) }

/-- The state after the section of `Hire`. -/
def State.afterHire (s : State) (p : ProducerId) (ids : List ThreadId) : State :=
  match s.pool.hireSection ids with
  | some pool =>
      { s with
        pool := pool
        workers := fun id => if id ∈ ids then .waiting .extended else s.workers id
        producers := Function.update s.producers p .idle }
  | none => { s with aborted := true }

/-- The state after the section of a worker. -/
def State.afterWork (ndebug : Bool) (s : State) (id : ThreadId) (type : WorkerType) : State :=
  let work := s.pool.workSection ndebug id type
  { s.setWorker id
      (match work.2 with
      | .terminate => .terminated
      | .again => .waiting type
      | .leave => .left
      | .run task => .taken type task) with
    pool := work.1
    dequeued := match work.2 with
      | .run task => s.dequeued ++ [task]
      | _ => s.dequeued }

/-- The state after `Busy += 1`. -/
def State.afterBusyUp (s : State) (id : ThreadId) (type : WorkerType) (task : Task) : State :=
  { s.setWorker id (.running type task) with
    pool := { s.pool with poolBusyWorkers := s.pool.poolBusyWorkers + 1 } }

/-- The state after `Busy -= 1`. -/
def State.afterBusyDown (s : State) (id : ThreadId) (type : WorkerType) : State :=
  { s.setWorker id (.waiting type) with
    pool := { s.pool with poolBusyWorkers := s.pool.poolBusyWorkers - 1 } }

/-- The state after `Join` has cleared `PoolYet`. -/
def State.afterJoin (s : State) : State := { s with pool := { s.pool with poolYet := false } }

/-- The ids that the system may supply for `newWorkerCount` new threads: pairwise different and not in
use. -/
def State.Supplies (s : State) (newWorkerCount : UInt64) (ids : List ThreadId) : Prop :=
  ids.length = newWorkerCount.toNat ∧ ids.Nodup ∧ ∀ id ∈ ids, (s.workers id).isFree = true

instance (s : State) (newWorkerCount : UInt64) (ids : List ThreadId) :
    Decidable (s.Supplies newWorkerCount ids) :=
  inferInstanceAs (Decidable (_ ∧ _))

/-- The steps of a pool that has not terminated the process. -/
def stepAlive (ndebug : Bool) (l : Limits) (s : State) : Action → Option State
  | .enqueue p task => if s.producers p = .idle then some (s.afterEnqueue p task) else none
  | .checkResize p =>
      match s.producers p with
      | .sampled numWorker numTasks => some (s.afterCheckResize l p numWorker numTasks)
      | _ => none
  | .hire p ids =>
      match s.producers p with
      | .hiring _ newWorkerCount =>
          if s.Supplies newWorkerCount ids then some (s.afterHire p ids) else none
      | _ => none
  | .work id =>
      match s.workers id with
      | .waiting type => some (s.afterWork ndebug id type)
      | _ => none
  | .busyUp id =>
      match s.workers id with
      | .taken type task => some (s.afterBusyUp id type task)
      | _ => none
  | .busyDown id =>
      match s.workers id with
      | .running type _ => some (s.afterBusyDown id type)
      | _ => none
  | .join => if s.pool.poolYet then some s.afterJoin else none

/-- The steps of a pool with limits `l`, in a build with or without `NDEBUG`. -/
def step (ndebug : Bool) (l : Limits) (s : State) (a : Action) : Option State :=
  if s.aborted then none else stepAlive ndebug l s a

/-- Any number of threads in `Enqueue` and the workers they hire. -/
def machine (ndebug : Bool) (l : Limits) : Machine State Action := ⟨State.init l, step ndebug l⟩

section Steps

variable {ndebug : Bool} {l : Limits} {s s' : State} {p : ProducerId} {id : ThreadId}

/-- A step of the pool is a step of `stepAlive`: only a pool that has not terminated the process takes steps. -/
theorem stepAlive_of_step {a : Action} (hs : step ndebug l s a = some s') :
    stepAlive ndebug l s a = some s' := by
  unfold step at hs
  split at hs
  · exact absurd hs (by simp)
  · exact hs

/-- The section of `Enqueue` is one step, which a thread outside of `Enqueue` takes. -/
theorem stepAlive_enqueue_eq_some {task : Task} :
    stepAlive ndebug l s (.enqueue p task) = some s' ↔
      s.producers p = .idle ∧ s.afterEnqueue p task = s' := by
  simp [stepAlive]

/-- `CheckResize` is one step, which a thread takes with the counts that it has sampled. -/
theorem stepAlive_checkResize_eq_some :
    stepAlive ndebug l s (.checkResize p) = some s' ↔
      ∃ numWorker numTasks, s.producers p = .sampled numWorker numTasks ∧
        s.afterCheckResize l p numWorker numTasks = s' := by
  cases hp : s.producers p <;> simp [stepAlive, hp]

/-- The section of `Hire` is one step, which a thread takes with as many new ids as it has decided to hire. -/
theorem stepAlive_hire_eq_some {ids : List ThreadId} :
    stepAlive ndebug l s (.hire p ids) = some s' ↔
      ∃ numWorker newWorkerCount, s.producers p = .hiring numWorker newWorkerCount ∧
        s.Supplies newWorkerCount ids ∧ s.afterHire p ids = s' := by
  cases hp : s.producers p <;> simp [stepAlive, hp]

/-- The section of a worker is one step, which a waiting worker takes. -/
theorem stepAlive_work_eq_some :
    stepAlive ndebug l s (.work id) = some s' ↔
      ∃ type, s.workers id = .waiting type ∧ s.afterWork ndebug id type = s' := by
  cases hw : s.workers id <;> simp [stepAlive, hw]

/-- `Busy += 1` is one step, which a worker takes with the task that it has taken. -/
theorem stepAlive_busyUp_eq_some :
    stepAlive ndebug l s (.busyUp id) = some s' ↔
      ∃ type task, s.workers id = .taken type task ∧ s.afterBusyUp id type task = s' := by
  cases hw : s.workers id <;> simp [stepAlive, hw]

/-- `Busy -= 1` is one step, which a worker takes when its task has ended. -/
theorem stepAlive_busyDown_eq_some :
    stepAlive ndebug l s (.busyDown id) = some s' ↔
      ∃ type task, s.workers id = .running type task ∧ s.afterBusyDown id type = s' := by
  cases hw : s.workers id <;> simp [stepAlive, hw]

/-- `Join` is one step, which is taken while `PoolYet` is set. -/
theorem stepAlive_join_eq_some :
    stepAlive ndebug l s .join = some s' ↔ s.pool.poolYet = true ∧ s.afterJoin = s' := by
  simp [stepAlive]

/-- On a stopped pool `Enqueue` throws and changes nothing. -/
theorem afterEnqueue_of_stopped {task : Task} (hyet : s.pool.poolYet = false) :
    s.afterEnqueue p task = s := by
  simp [State.afterEnqueue, enqueueSection, hyet]

/-- On a running pool `Enqueue` queues its task and samples the state it leaves. -/
theorem afterEnqueue_of_yet {task : Task} (hyet : s.pool.poolYet = true) :
    s.afterEnqueue p task =
      { s with
        pool := { s.pool with poolTasks := s.pool.poolTasks ++ [task] }
        producers := Function.update s.producers p
          (.sampled (UInt64.ofNat s.pool.poolWorkers.card)
            (UInt64.ofNat (s.pool.poolTasks.length + 1)))
        accepted := s.accepted ++ [task] } := by
  simp [State.afterEnqueue, enqueueSection, hyet]

/-- The section of a worker ends in one of four ways: the pool is stopped, the worker takes the front task, a
temporary worker leaves, or a persistent one goes on waiting. -/
theorem afterWork_cases (ndebug : Bool) (s : State) (id : ThreadId) (type : WorkerType) :
    (s.pool.poolYet = false ∧ s.afterWork ndebug id type = s.setWorker id .terminated) ∨
      (s.pool.poolYet = true ∧ ∃ task rest, s.pool.poolTasks = task :: rest ∧
        s.afterWork ndebug id type =
          { s.setWorker id (.taken type task) with
            pool := { s.pool with poolTasks := rest }
            dequeued := s.dequeued ++ [task] }) ∨
      (s.pool.poolYet = true ∧ s.pool.poolTasks = [] ∧ type = .persistent ∧
        s.afterWork ndebug id type = s.setWorker id (.waiting .persistent)) ∨
      (s.pool.poolYet = true ∧ s.pool.poolTasks = [] ∧ type = .extended ∧
        s.afterWork ndebug id type =
          { s.setWorker id .left with
            pool := { s.pool with
              poolWorkers := if ndebug then s.pool.poolWorkers else s.pool.poolWorkers.erase id } }) := by
  obtain ⟨⟨yet, busy, registered, tasks⟩, workers, producers, aborted, accepted, dequeued, wrapped⟩ := s
  cases yet with
  | false =>
      refine Or.inl ⟨rfl, ?_⟩
      simp [State.afterWork, workSection, State.setWorker]
  | true =>
      cases tasks with
      | cons task rest =>
          refine Or.inr (Or.inl ⟨rfl, task, rest, rfl, ?_⟩)
          simp [State.afterWork, workSection, State.setWorker]
      | nil =>
          cases type with
          | persistent =>
              refine Or.inr (Or.inr (Or.inl ⟨rfl, rfl, rfl, ?_⟩))
              simp [State.afterWork, workSection, State.setWorker]
          | extended =>
              refine Or.inr (Or.inr (Or.inr ⟨rfl, rfl, rfl, ?_⟩))
              -- Erasing an id that is not registered changes nothing.
              by_cases hid : id ∈ registered
              · cases ndebug <;> simp [State.afterWork, workSection, State.setWorker, hid]
              · cases ndebug <;> simp [State.afterWork, workSection, State.setWorker, hid]

/-- `Hire` of a thread whose id is registered terminates the process; threads with new ids are registered and wait for
work. -/
theorem afterHire_cases {newWorkerCount : UInt64} {ids : List ThreadId} (p : ProducerId)
    (hids : s.Supplies newWorkerCount ids) :
    ((∃ id ∈ ids, id ∈ s.pool.poolWorkers) ∧ s.afterHire p ids = { s with aborted := true }) ∨
      (∀ id ∈ ids, id ∉ s.pool.poolWorkers) ∧
        s.afterHire p ids =
          { s with
            pool := { s.pool with poolWorkers := s.pool.poolWorkers ∪ ids.toFinset }
            workers := fun id => if id ∈ ids then .waiting .extended else s.workers id
            producers := Function.update s.producers p .idle } := by
  by_cases hmem : ∃ id ∈ ids, id ∈ s.pool.poolWorkers
  · refine Or.inl ⟨hmem, ?_⟩
    rw [State.afterHire, hireSection_of_mem hmem]
  · have hnew : ∀ id ∈ ids, id ∉ s.pool.poolWorkers := fun id hid hreg => hmem ⟨id, hid, hreg⟩
    refine Or.inr ⟨hnew, ?_⟩
    rw [State.afterHire, hireSection_of_notMem hids.2.1 hnew]

end Steps

end Pool

end NavekFiber
