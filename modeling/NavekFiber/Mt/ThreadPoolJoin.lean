import Mathlib.Algebra.BigOperators.Group.Finset.Basic
import Mathlib.Algebra.Group.Action.Defs
import Mathlib.Algebra.Order.BigOperators.Group.Finset
import NavekFiber.Machine.Progress
import NavekFiber.Mt.ThreadPoolLimits
import NavekFiber.Mt.ThreadPoolTasks

/-! # How the pool comes to an end

`Join` clears `PoolYet` and waits for every thread in `PoolWorkers`. From then on a thread has only a few
steps left: it finishes the task it has in its hands and returns at its next section, whether or not
`PoolTasks` is empty. So `Join` returns, no thread is cut off inside a task, and the tasks that nobody has
taken are dropped. -/

namespace NavekFiber

namespace Pool

open ThreadPool WorkQueue

variable {ndebug : Bool} {l : Limits} {s s' : State} {a : Action} {id : ThreadId}

/-- The worker thread that takes a step, if it is one's own. -/
def Action.worker : Action → Option ThreadId
  | .work id | .busyUp id | .busyDown id => some id
  | _ => none

/-- The number of steps that a thread of a stopped pool has still before it. -/
def Worker.stepsLeft : Worker → ℕ
  | .waiting _ => 1
  | .running _ _ => 2
  | .taken _ _ => 3
  | _ => 0

/-- A step of a thread of a stopped pool lowers the thread's `stepsLeft` by one and changes no other thread, and the
pool keeps its registry, its tasks and its limits. -/
theorem worker_step (hyet : s.pool.poolYet = false) (ha : a.worker = some id)
    (hs : step ndebug l s a = some s') :
    ∃ worker, s'.workers = Function.update s.workers id worker ∧
      worker.stepsLeft + 1 = (s.workers id).stepsLeft ∧ worker.isFree = false ∧
      s'.pool.poolYet = false ∧ s'.pool.poolWorkers = s.pool.poolWorkers ∧
      s'.pool.poolTasks = s.pool.poolTasks ∧ s'.aborted = s.aborted := by
  have hs := stepAlive_of_step hs
  cases a with
  | work id' =>
      obtain rfl : id' = id := by simpa [Action.worker] using ha
      obtain ⟨type, hw, rfl⟩ := stepAlive_work_eq_some.mp hs
      rcases afterWork_cases ndebug s id' type with ⟨-, heq⟩ | ⟨hrun, -⟩ | ⟨hrun, -⟩ | ⟨hrun, -⟩
      · rw [heq, hw]
        exact ⟨.terminated, rfl, rfl, rfl, hyet, rfl, rfl, rfl⟩
      -- The other ends of the section are those of a running pool.
      · exact absurd (hyet.symm.trans hrun) (by simp)
      · exact absurd (hyet.symm.trans hrun) (by simp)
      · exact absurd (hyet.symm.trans hrun) (by simp)
  | busyUp id' =>
      obtain rfl : id' = id := by simpa [Action.worker] using ha
      obtain ⟨type, task, hw, rfl⟩ := stepAlive_busyUp_eq_some.mp hs
      rw [hw]
      exact ⟨.running type task, rfl, rfl, rfl, hyet, rfl, rfl, rfl⟩
  | busyDown id' =>
      obtain rfl : id' = id := by simpa [Action.worker] using ha
      obtain ⟨type, task, hw, rfl⟩ := stepAlive_busyDown_eq_some.mp hs
      rw [hw]
      exact ⟨.waiting type, rfl, rfl, rfl, hyet, rfl, rfl, rfl⟩
  | enqueue p task => exact absurd ha (by simp [Action.worker])
  | checkResize p => exact absurd ha (by simp [Action.worker])
  | hire p ids => exact absurd ha (by simp [Action.worker])
  | join => exact absurd ha (by simp [Action.worker])

/-- A step that is not a thread's own leaves the thread alone, once its id is in use. -/
theorem workers_of_other (hid : (s.workers id).isFree = false) (ha : a.worker ≠ some id)
    (hs : step ndebug l s a = some s') : s'.workers id = s.workers id := by
  have hs := stepAlive_of_step hs
  cases a with
  | enqueue p task =>
      obtain ⟨-, rfl⟩ := stepAlive_enqueue_eq_some.mp hs
      cases hyet : s.pool.poolYet with
      | false => rw [afterEnqueue_of_stopped hyet]
      | true => rw [afterEnqueue_of_yet hyet]
  | checkResize p =>
      obtain ⟨numWorker, numTasks, -, rfl⟩ := stepAlive_checkResize_eq_some.mp hs
      rfl
  | hire p ids =>
      obtain ⟨numWorker, newWorkerCount, -, hids, rfl⟩ := stepAlive_hire_eq_some.mp hs
      rcases afterHire_cases p hids with ⟨-, heq⟩ | ⟨-, heq⟩
      · rw [heq]
      · rw [heq]
        -- The system gives out free ids only.
        refine if_neg fun hmem => ?_
        exact absurd (hid.symm.trans (hids.2.2 id hmem)) (by simp)
  | work id' =>
      obtain ⟨type, -, rfl⟩ := stepAlive_work_eq_some.mp hs
      have hne : id ≠ id' := fun h => ha (by rw [h]; rfl)
      simp [State.afterWork, State.setWorker, Function.update_of_ne hne]
  | busyUp id' =>
      obtain ⟨type, task, -, rfl⟩ := stepAlive_busyUp_eq_some.mp hs
      have hne : id ≠ id' := fun h => ha (by rw [h]; rfl)
      exact Function.update_of_ne hne _ _
  | busyDown id' =>
      obtain ⟨type, task, -, rfl⟩ := stepAlive_busyDown_eq_some.mp hs
      have hne : id ≠ id' := fun h => ha (by rw [h]; rfl)
      exact Function.update_of_ne hne _ _
  | join =>
      obtain ⟨-, rfl⟩ := stepAlive_join_eq_some.mp hs
      rfl

/-- In a stopped pool a thread whose id is in use keeps it, and each of its own steps lowers its `stepsLeft`. -/
theorem stepsLeft_step (hyet : s.pool.poolYet = false) (hid : (s.workers id).isFree = false)
    (hs : step ndebug l s a = some s') :
    (s'.pool.poolYet = false ∧ (s'.workers id).isFree = false) ∧
      (decide (a.worker = some id)).toNat + (s'.workers id).stepsLeft ≤ (s.workers id).stepsLeft := by
  have hyet' := (stopped_step hyet hs).1
  by_cases ha : a.worker = some id
  · obtain ⟨worker, hworkers, hless, hfree, -⟩ := worker_step hyet ha hs
    have hw : s'.workers id = worker := by rw [hworkers, Function.update_self]
    rw [hw, decide_eq_true ha, Bool.toNat_true]
    exact ⟨⟨hyet', hfree⟩, by omega⟩
  · rw [workers_of_other hid ha hs, decide_eq_false ha, Bool.toNat_false, Nat.zero_add]
    exact ⟨⟨hyet', hid⟩, Nat.le_refl _⟩

/-- The number of steps that the registered threads of a stopped pool have still before them. -/
def State.stepsLeft (s : State) : ℕ := ∑ id ∈ s.pool.poolWorkers, (s.workers id).stepsLeft

end Pool

end NavekFiber
