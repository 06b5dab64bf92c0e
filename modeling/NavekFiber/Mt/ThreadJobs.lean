import NavekFiber.Machine.Bytes
import NavekFiber.Mt.ThreadPool
import NavekFiber.Utils.Numbers

/-! # Job objects in the worker pool

`Enqueue` of a job object takes a reference, queues a task and returns; a worker runs the task later, which
asks the object for its `IThreadJob`, with a reference of its own, and calls `Exec`. The references are given
back at the end of the task, both through the pointer to the interface. That is one way out of four: the pool
may be stopped, the object may not be a job, `Exec` may throw (`balanced_iff`). -/

namespace NavekFiber

open Utils

/-- A pointer to the object, or to an interface of it. -/
inductive Pointer
  /-- The pointer leads to the object. -/
  | object
  /-- The pointer is null. -/
  | null

/-- What decides how the task of an object goes. -/
structure ThreadJob where
  /-- `QueryInterface` finds `IThreadJob`. -/
  implementsThreadJob : Bool
  /-- What `Exec` throws, if it does. -/
  execThrows : Option Exn

/-- How a function stops before its end. -/
inductive JobStop
  /-- An exception leaves the function. -/
  | exception (exn : Exn)
  /-- The function calls a method through a null pointer. -/
  | nullCall

/-- The object of a task while it is used: its reference count, the turns of other threads, and the log. -/
structure ObjectState where
  /-- The reference count of the object. -/
  refs : ℤ
  /-- What other threads have added to the count. -/
  foreign : ℤ
  /-- The number of calls so far. -/
  turn : ℕ
  /-- The lines that have been printed to the log. -/
  log : List (List UInt8)

namespace ObjectState

/-- The object behind a call that changes the count by `change`. Other threads have changed it by
`others turn` since the call before. -/
def called (s : ObjectState) (others : ℕ → ℤ) (change : ℤ) : ObjectState :=
  { s with
    refs := s.refs + others s.turn + change
    foreign := s.foreign + others s.turn
    turn := s.turn + 1 }

/-- The reference count, but for what other threads have added to it. -/
def own (s : ObjectState) : ℤ := s.refs - s.foreign

/-- A call changes `own` by its own change only, whatever other threads do. -/
@[simp] theorem own_called (s : ObjectState) (others : ℕ → ℤ) (change : ℤ) :
    (s.called others change).own = s.own + change := by
  unfold own called
  dsimp only
  omega

end ObjectState

/-- Code that uses the object. -/
abbrev Com := ExceptT JobStop (StateM ObjectState)

namespace Com

/-- A call of a method that changes the count by `change`. -/
def call (others : ℕ → ℤ) (change : ℤ) : Pointer → Com Unit
  | .null => throw .nullCall
  | .object => modify fun s => s.called others change

/-- `AddRef` of the object. -/
def addRef (others : ℕ → ℤ) (p : Pointer) : Com Unit := call others 1 p

/-- `Release` of the object. -/
def release (others : ℕ → ℤ) (p : Pointer) : Com Unit := call others (-1) p

/-- `QueryInterface`: whether the object has the interface, and the pointer to it, with a reference. -/
def queryInterface (others : ℕ → ℤ) (job : ThreadJob) (p : Pointer) : Com (Bool × Pointer) := do
  if job.implementsThreadJob then
    call others 1 p
    return (true, .object)
  else
    call others 0 p
    return (false, .null)

/-- `Exec` of the job. -/
def exec (others : ℕ → ℤ) (job : ThreadJob) (p : Pointer) : Com Unit := do
  call others 0 p
  match job.execThrows with
  | some exn => throw (.exception exn)
  | none => return ()

/-- `log_print`. -/
def logPrint (line : List UInt8) : Com Unit := modify fun s => { s with log := s.log ++ [line] }

/-- What a `packaged_task` makes of a function: an exception stays in the future. -/
def packagedTask (task : Com Unit) : Com Unit :=
  tryCatch task fun
    | .exception _ => return ()
    | .nullCall => throw .nullCall

end Com

open Com

namespace ThreadPool

/-- The task of an object. -/
def threadJob (others : ℕ → ℤ) (job : ThreadJob) (pThreadJob : Pointer) : Com Unit := do
  let (found, pointer) ← queryInterface others job pThreadJob
  if found then
    exec others job pointer
    release others pointer
  else
    logPrint (bytes "<Runtime.Error> Interface `IThreadJob` not implemented")
  release others pointer

/-- `Enqueue` of an object, up to the end of the section that queues the task. -/
def enqueueJob (others : ℕ → ℤ) (pool : ThreadPool) (task : Task) (pThreadJob : Pointer) :
    Com (ThreadPool × UInt64 × UInt64) := do
  addRef others pThreadJob
  match pool.enqueueSection task with
  | some queued => return queued
  | none => throw (.exception (.stdException (bytes "enqueue on stopped ThreadPool")))

/-- A call of `Enqueue`, and then its task. -/
def callAndTask (others : ℕ → ℤ) (pool : ThreadPool) (task : Task) (job : ThreadJob) : Com Unit := do
  let _ ← enqueueJob others pool task .object
  packagedTask (threadJob others job .object)

/-- The call and its task call nothing through a null pointer, and they leave the reference count as it was
before them, but for what other threads have added. -/
def Balanced (others : ℕ → ℤ) (pool : ThreadPool) (task : Task) (job : ThreadJob) (s : ObjectState) : Prop :=
  let (ending, s') := (callAndTask others pool task job).run.run s
  ending ≠ .error .nullCall ∧ s'.own = s.own

variable {pool : ThreadPool} {job : ThreadJob}

/-! ### The four ways -/

/-- On a stopped pool, `Enqueue` throws with the reference of the call still counted, and there is no task. -/
theorem callAndTask_stopped (others : ℕ → ℤ) (task : Task) (job : ThreadJob) (s : ObjectState)
    (hyet : pool.poolYet = false) :
    (callAndTask others pool task job).run.run s =
      (.error (.exception (.stdException (bytes "enqueue on stopped ThreadPool"))), s.called others 1) := by
  have hsection : pool.enqueueSection task = none := by
    rw [enqueueSection, hyet]
    rfl
  unfold callAndTask enqueueJob
  rw [hsection]
  rfl

/-- On a pool that runs, `Enqueue` leaves one reference, and its task follows. -/
theorem callAndTask_running (others : ℕ → ℤ) (task : Task) (job : ThreadJob) (s : ObjectState)
    (hyet : pool.poolYet = true) :
    (callAndTask others pool task job).run.run s =
      (packagedTask (threadJob others job .object)).run.run (s.called others 1) := by
  obtain ⟨queued, hsection⟩ : ∃ queued, pool.enqueueSection task = some queued := by
    rw [enqueueSection, hyet]
    exact ⟨_, rfl⟩
  unfold callAndTask enqueueJob
  rw [hsection]
  rfl

/-- The task of an object that is no job calls `Release` through the null pointer. -/
theorem threadJob_missing (others : ℕ → ℤ) (s : ObjectState) (hmissing : job.implementsThreadJob = false) :
    ∃ s', (packagedTask (threadJob others job .object)).run.run s = (.error .nullCall, s') := by
  unfold threadJob queryInterface
  rw [hmissing]
  exact ⟨_, rfl⟩

/-- The task of a job that throws keeps both references. -/
theorem threadJob_throws (others : ℕ → ℤ) (s : ObjectState) {exn : Exn} (hjob : job.implementsThreadJob = true)
    (hthrows : job.execThrows = some exn) :
    (packagedTask (threadJob others job .object)).run.run s =
      (.ok (), (s.called others 1).called others 0) := by
  unfold threadJob queryInterface exec
  rw [hjob, hthrows]
  rfl

/-- The task of a job that returns gives back the reference of the task and that of the call. -/
theorem threadJob_returns (others : ℕ → ℤ) (s : ObjectState) (hjob : job.implementsThreadJob = true)
    (hreturns : job.execThrows = none) :
    (packagedTask (threadJob others job .object)).run.run s =
      (.ok (), (((s.called others 1).called others 0).called others (-1)).called others (-1)) := by
  unfold threadJob queryInterface exec
  rw [hjob, hreturns]
  rfl

/-- A call of `Enqueue` and its task are `Balanced` exactly when the pool runs, the object is a job, and the job does
not throw. -/
theorem balanced_iff (others : ℕ → ℤ) (pool : ThreadPool) (task : Task) (job : ThreadJob) (s : ObjectState) :
    Balanced others pool task job s ↔
      pool.poolYet = true ∧ job.implementsThreadJob = true ∧ job.execThrows = none := by
  unfold Balanced
  cases hyet : pool.poolYet with
  | false =>
      rw [callAndTask_stopped others task job s hyet]
      simp
  | true =>
      rw [callAndTask_running others task job s hyet]
      cases hjob : job.implementsThreadJob with
      | false =>
          obtain ⟨s', hnull⟩ := threadJob_missing others (s.called others 1) hjob
          rw [hnull]
          simp
      | true =>
          cases hthrows : job.execThrows with
          | some exn =>
              rw [threadJob_throws others _ hjob hthrows]
              refine iff_of_false ?_ (by simp)
              -- The reference of the call and that of the task are left.
              rintro ⟨-, hown⟩
              simp only [ObjectState.own_called] at hown
              omega
          | none =>
              rw [threadJob_returns others _ hjob hthrows]
              simp

/-- On a pool that runs, the call for an object that is no job is not `Balanced`. -/
theorem not_balanced_missing :
    ¬ Balanced (fun _ => 0) ⟨true, 0, ∅, []⟩ 0 ⟨false, none⟩ ⟨1, 0, 0, []⟩ := by
  intro h
  exact h.1 rfl

end ThreadPool

end NavekFiber
