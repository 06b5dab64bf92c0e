import NavekFiber.Mt.ThreadPoolJoin

/-! # How the pool serves

Between a task being queued and being done lie one section of a worker, the two steps that count the worker
as busy and as free again, and the steps of the task itself. So the steps that workers have still before them
can be counted, and every step of a worker with a task takes one off, whatever the pool hires in between.
While the pool runs its persistent workers stay, so a task that waits finds a worker. -/

namespace NavekFiber

namespace Pool

open ThreadPool

variable {ndebug : Bool} {l : Limits} {s s' : State} {a : Action} {id : ThreadId} {B : ℕ} {r : Task → ℕ}

/-- A step counts a worker as busy or as free again. -/
def Action.counts : Action → Bool
  | .busyUp _ | .busyDown _ => true
  | _ => false

/-- The number of steps that a worker has before it until its task is done, when the task itself has at most `B` and
those that `r` says. -/
def Worker.service (B : ℕ) (r : Task → ℕ) : Worker → ℕ
  | .taken _ _ => B + 2
  | .running _ task => r task + 1
  | _ => 0

/-- The number of steps that the workers of the pool have before them. -/
def State.service (B : ℕ) (r : Task → ℕ) (s : State) : ℕ :=
  (B + 3) * s.pool.poolTasks.length + ∑ id ∈ s.pool.poolWorkers, (s.workers id).service B r

/-- A worker that moves on changes `State.service` by its own part. -/
theorem service_setWorker (worker : Worker) (hid : id ∈ s.pool.poolWorkers) :
    (s.setWorker id worker).service B r + (s.workers id).service B r = s.service B r + worker.service B r := by
  have hsum := sum_update (f := s.workers) (Worker.service B r) worker hid
  simp only [State.service, State.setWorker]
  omega

/-- Every step of a worker with a task is paid for out of `State.service`, and so is its taking the task; a task that
is accepted brings `B + 3` new steps. -/
theorem service_step (hr : ∀ task, r task ≤ B) (hreg : Registered s) (hs : step ndebug l s a = some s') :
    a.counts.toNat + (s'.service B r + s'.dequeued.length) + (B + 3) * s.accepted.length ≤
      s.service B r + s.dequeued.length + (B + 3) * s'.accepted.length := by
  have hs := stepAlive_of_step hs
  cases a with
  | enqueue p task =>
      obtain ⟨-, rfl⟩ := stepAlive_enqueue_eq_some.mp hs
      cases hyet : s.pool.poolYet with
      | false => simp [afterEnqueue_of_stopped hyet, Action.counts]
      | true =>
          rw [afterEnqueue_of_yet hyet]
          simp only [State.service, Action.counts, Bool.toNat_false, List.length_append, List.length_singleton,
            Nat.mul_add, Nat.mul_one]
          omega
  | checkResize p =>
      obtain ⟨numWorker, numTasks, -, rfl⟩ := stepAlive_checkResize_eq_some.mp hs
      simp [State.afterCheckResize, State.service, Action.counts]
  | hire p ids =>
      obtain ⟨numWorker, newWorkerCount, -, hids, rfl⟩ := stepAlive_hire_eq_some.mp hs
      rcases afterHire_cases p hids with ⟨-, heq⟩ | ⟨hnew, heq⟩
      · simp [heq, State.service, Action.counts]
      · -- The threads that are hired wait, and the others are as they were.
        have hsum : ∑ id ∈ s.pool.poolWorkers ∪ ids.toFinset,
            (if id ∈ ids then Worker.waiting .extended else s.workers id).service B r =
              ∑ id ∈ s.pool.poolWorkers, (s.workers id).service B r := by
          refine (Finset.sum_subset Finset.subset_union_left fun id hunion hid => ?_).symm.trans
            (Finset.sum_congr rfl fun id hid => ?_)
          · have hmem : id ∈ ids := by simpa [hid] using hunion
            rw [if_pos hmem]
            rfl
          · rw [if_neg fun hmem => hnew id hmem hid]
        rw [heq]
        simp only [State.service, Action.counts, hsum]
        simp
  | work id =>
      obtain ⟨type, hw, rfl⟩ := stepAlive_work_eq_some.mp hs
      have hid : id ∈ s.pool.poolWorkers := hreg.live id (by rw [hw]; rfl)
      have hmove (worker : Worker) := service_setWorker (B := B) (r := r) worker hid
      rcases afterWork_cases ndebug s id type with ⟨-, heq⟩ | ⟨-, task, rest, htasks, heq⟩ |
        ⟨-, -, -, heq⟩ | ⟨-, -, -, heq⟩
      · have hterminated := hmove .terminated
        rw [hw] at hterminated
        simp only [Worker.service, heq, Action.counts, Bool.toNat_false] at hterminated ⊢
        simp only [State.setWorker] at hterminated ⊢
        omega
      · have htaken := hmove (.taken type task)
        rw [hw] at htaken
        rw [heq]
        simp only [Worker.service, State.service, State.setWorker, htasks, Action.counts, Bool.toNat_false,
          List.length_append, List.length_cons, List.length_nil, Nat.mul_add] at htaken ⊢
        omega
      · have hwaiting := hmove (.waiting .persistent)
        rw [hw] at hwaiting
        simp only [Worker.service, heq, Action.counts, Bool.toNat_false] at hwaiting ⊢
        simp only [State.setWorker] at hwaiting ⊢
        omega
      · have hleft := hmove .left
        rw [hw] at hleft
        -- Whether or not the thread is erased, it has no steps before it.
        have hsum : ∑ id' ∈ (if ndebug then s.pool.poolWorkers else s.pool.poolWorkers.erase id),
            ((s.setWorker id .left).workers id').service B r ≤
              ∑ id' ∈ s.pool.poolWorkers, ((s.setWorker id .left).workers id').service B r := by
          refine Finset.sum_le_sum_of_subset ?_
          split
          · exact Finset.Subset.refl _
          · exact Finset.erase_subset _ _
        rw [heq]
        simp only [Worker.service, State.service, State.setWorker, Action.counts, Bool.toNat_false] at hleft hsum ⊢
        omega
  | busyUp id =>
      obtain ⟨type, task, hw, rfl⟩ := stepAlive_busyUp_eq_some.mp hs
      have hid : id ∈ s.pool.poolWorkers := hreg.live id (by rw [hw]; rfl)
      have hrunning := service_setWorker (B := B) (r := r) (.running type task) hid
      have hbound := hr task
      rw [hw] at hrunning
      simp only [Worker.service, State.service, State.setWorker, State.afterBusyUp, Action.counts,
        Bool.toNat_true] at hrunning ⊢
      omega
  | busyDown id =>
      obtain ⟨type, task, hw, rfl⟩ := stepAlive_busyDown_eq_some.mp hs
      have hid : id ∈ s.pool.poolWorkers := hreg.live id (by rw [hw]; rfl)
      have hwaiting := service_setWorker (B := B) (r := r) (.waiting type) hid
      rw [hw] at hwaiting
      simp only [Worker.service, State.service, State.setWorker, State.afterBusyDown, Action.counts,
        Bool.toNat_true] at hwaiting ⊢
      omega
  | join =>
      obtain ⟨-, rfl⟩ := stepAlive_join_eq_some.mp hs
      simp [State.afterJoin, State.service, Action.counts]

/-- While the pool runs, a step keeps its persistent workers. -/
theorem persistent_step (hyet : s'.pool.poolYet = true) (htype : (s.workers id).type = some .persistent)
    (hs : step ndebug l s a = some s') : (s'.workers id).type = some .persistent := by
  have hfree : (s.workers id).isFree = false := by
    cases hw : s.workers id <;> simp_all [Worker.type, Worker.isFree]
  by_cases ha : a.worker = some id
  · have hs := stepAlive_of_step hs
    cases a with
    | work id' =>
        obtain rfl : id' = id := by simpa [Action.worker] using ha
        obtain ⟨type, hw, rfl⟩ := stepAlive_work_eq_some.mp hs
        obtain rfl : type = .persistent := by simpa [hw, Worker.type] using htype
        rcases afterWork_cases ndebug s id' .persistent with ⟨hstopped, heq⟩ | ⟨-, task, rest, -, heq⟩ |
          ⟨-, -, -, heq⟩ | ⟨-, -, hextended, -⟩
        · -- A stopped pool is not started again.
          rw [heq] at hyet
          exact absurd (hstopped.symm.trans hyet) (by simp)
        · simp [heq, State.setWorker, Worker.type]
        · simp [heq, State.setWorker, Worker.type]
        · cases hextended
    | busyUp id' =>
        obtain rfl : id' = id := by simpa [Action.worker] using ha
        obtain ⟨type, task, hw, rfl⟩ := stepAlive_busyUp_eq_some.mp hs
        simpa [hw, State.afterBusyUp, State.setWorker, Worker.type] using htype
    | busyDown id' =>
        obtain rfl : id' = id := by simpa [Action.worker] using ha
        obtain ⟨type, task, hw, rfl⟩ := stepAlive_busyDown_eq_some.mp hs
        simpa [hw, State.afterBusyDown, State.setWorker, Worker.type] using htype
    | enqueue p task => exact absurd ha (by simp [Action.worker])
    | checkResize p => exact absurd ha (by simp [Action.worker])
    | hire p ids => exact absurd ha (by simp [Action.worker])
    | join => exact absurd ha (by simp [Action.worker])
  · rwa [workers_of_other hfree ha hs]

/-- A step of a worker neither stops the pool nor terminates the process, and accepts nothing. -/
theorem keeps_step (ha : a.worker = some id) (hs : step ndebug l s a = some s') :
    s'.pool.poolYet = s.pool.poolYet ∧ s'.aborted = s.aborted ∧ s'.accepted = s.accepted := by
  have hs := stepAlive_of_step hs
  cases a with
  | work id' =>
      obtain ⟨type, -, rfl⟩ := stepAlive_work_eq_some.mp hs
      rcases afterWork_cases ndebug s id' type with ⟨-, heq⟩ | ⟨-, task, rest, -, heq⟩ | ⟨-, -, -, heq⟩ |
        ⟨-, -, -, heq⟩ <;> rw [heq] <;> exact ⟨rfl, rfl, rfl⟩
  | busyUp id' =>
      obtain ⟨type, task, -, rfl⟩ := stepAlive_busyUp_eq_some.mp hs
      exact ⟨rfl, rfl, rfl⟩
  | busyDown id' =>
      obtain ⟨type, task, -, rfl⟩ := stepAlive_busyDown_eq_some.mp hs
      exact ⟨rfl, rfl, rfl⟩
  | enqueue p task => exact absurd ha (by simp [Action.worker])
  | checkResize p => exact absurd ha (by simp [Action.worker])
  | hire p ids => exact absurd ha (by simp [Action.worker])
  | join => exact absurd ha (by simp [Action.worker])

/-- A worker that has taken a task can count itself busy. -/
theorem exists_busyUp_step {type : WorkerType} {task : Task} (haborted : s.aborted = false)
    (hw : s.workers id = .taken type task) : ∃ s', step ndebug l s (.busyUp id) = some s' := by
  simp [step, haborted, stepAlive, hw]

/-- A worker that runs a task can finish it. -/
theorem exists_busyDown_step {type : WorkerType} {task : Task} (haborted : s.aborted = false)
    (hw : s.workers id = .running type task) : ∃ s', step ndebug l s (.busyDown id) = some s' := by
  simp [step, haborted, stepAlive, hw]

/-- In a running pool with free hands only, a persistent worker can take the task that is first in line. -/
theorem exists_work_step (ndebug : Bool) (l : Limits) {task : Task} {rest : List Task} (haborted : s.aborted = false)
    (hyet : s.pool.poolYet = true) (htasks : s.pool.poolTasks = task :: rest)
    (htype : (s.workers id).type = some .persistent) (hempty : (s.workers id).inHand = none) :
    ∃ s', step ndebug l s (.work id) = some s' ∧ s'.dequeued = s.dequeued ++ [task] := by
  have hw : s.workers id = .waiting .persistent := by
    cases hw : s.workers id <;> simp_all [Worker.type, Worker.inHand]
  have hs : step ndebug l s (.work id) = some (s.afterWork ndebug id .persistent) := by
    simp [step, haborted, stepAlive, hw]
  refine ⟨_, hs, ?_⟩
  rw [(logs_step hs).2, shows, if_pos hyet, htasks]
  rfl

end Pool

end NavekFiber
