import NavekFiber.Machine.Fifo
import NavekFiber.Mt.ThreadPool

/-! # The order of tasks, and how workers come to an end

Tasks are queued in the section of `Enqueue` and taken in the section of a worker, both guarded by
`PoolQueueSync`, so they are taken in the order in which they were accepted. The section of a worker has
four ends: the pool is stopped, there is a task, or there is none and the worker waits again or leaves,
as its type says. Everything here holds for any number of threads in `Enqueue`, for workers that wake up
at any time, and in both builds of `dbg_trace`. -/

namespace NavekFiber

namespace Pool

open ThreadPool

variable {ndebug : Bool} {l : Limits} {s s' : State} {a : Action} {id : ThreadId}

/-- The type of a live worker. -/
def Worker.type : Worker → Option WorkerType
  | .waiting type | .taken type _ | .running type _ => some type
  | _ => none

/-- A step leaves the tasks alone, and does not start a stopped pool; or, in a running pool, it accepts one, or takes
the first one. -/
theorem tasks_cases (hs : step ndebug l s a = some s') :
    (s'.accepted = s.accepted ∧ s'.dequeued = s.dequeued ∧ s'.pool.poolTasks = s.pool.poolTasks ∧
        (s.pool.poolYet = false → s'.pool.poolYet = false)) ∨
      (s.pool.poolYet = true ∧ ∃ task, s'.accepted = s.accepted ++ [task] ∧ s'.dequeued = s.dequeued ∧
        s'.pool.poolTasks = s.pool.poolTasks ++ [task]) ∨
      (s.pool.poolYet = true ∧ ∃ task rest, s.pool.poolTasks = task :: rest ∧ s'.accepted = s.accepted ∧
        s'.dequeued = s.dequeued ++ [task] ∧ s'.pool.poolTasks = rest) := by
  have hs := stepAlive_of_step hs
  cases a with
  | enqueue p task =>
      obtain ⟨-, rfl⟩ := stepAlive_enqueue_eq_some.mp hs
      cases hyet : s.pool.poolYet with
      | false =>
          rw [afterEnqueue_of_stopped hyet]
          exact Or.inl ⟨rfl, rfl, rfl, fun _ => hyet⟩
      | true =>
          rw [afterEnqueue_of_yet hyet]
          exact Or.inr (Or.inl ⟨rfl, task, rfl, rfl, rfl⟩)
  | checkResize p =>
      obtain ⟨numWorker, numTasks, -, rfl⟩ := stepAlive_checkResize_eq_some.mp hs
      exact Or.inl ⟨rfl, rfl, rfl, fun hyet => hyet⟩
  | hire p ids =>
      obtain ⟨numWorker, newWorkerCount, -, hids, rfl⟩ := stepAlive_hire_eq_some.mp hs
      rcases afterHire_cases p hids with ⟨-, heq⟩ | ⟨-, heq⟩
      · rw [heq]
        exact Or.inl ⟨rfl, rfl, rfl, fun hyet => hyet⟩
      · rw [heq]
        exact Or.inl ⟨rfl, rfl, rfl, fun hyet => hyet⟩
  | work id' =>
      obtain ⟨type, -, rfl⟩ := stepAlive_work_eq_some.mp hs
      rcases afterWork_cases ndebug s id' type with ⟨-, heq⟩ | ⟨hyet, task, rest, htasks, heq⟩ |
        ⟨-, -, -, heq⟩ | ⟨-, -, -, heq⟩
      · rw [heq]
        exact Or.inl ⟨rfl, rfl, rfl, fun hyet => hyet⟩
      · rw [heq]
        -- The one end of the section that takes a task.
        exact Or.inr (Or.inr ⟨hyet, task, rest, htasks, rfl, rfl, rfl⟩)
      · rw [heq]
        exact Or.inl ⟨rfl, rfl, rfl, fun hyet => hyet⟩
      · rw [heq]
        exact Or.inl ⟨rfl, rfl, rfl, fun hyet => hyet⟩
  | busyUp id' =>
      obtain ⟨type, task, -, rfl⟩ := stepAlive_busyUp_eq_some.mp hs
      exact Or.inl ⟨rfl, rfl, rfl, fun hyet => hyet⟩
  | busyDown id' =>
      obtain ⟨type, task, -, rfl⟩ := stepAlive_busyDown_eq_some.mp hs
      exact Or.inl ⟨rfl, rfl, rfl, fun hyet => hyet⟩
  | join =>
      obtain ⟨-, rfl⟩ := stepAlive_join_eq_some.mp hs
      exact Or.inl ⟨rfl, rfl, rfl, fun _ => rfl⟩

/-- Every step keeps the accepted tasks in order: those taken, and then `PoolTasks`. -/
theorem inOrder_step (h : InOrder s.accepted s.dequeued s.pool.poolTasks)
    (hs : step ndebug l s a = some s') : InOrder s'.accepted s'.dequeued s'.pool.poolTasks := by
  rcases tasks_cases hs with ⟨haccepted, hdequeued, htasks, -⟩ | ⟨-, task, haccepted, hdequeued, htasks⟩ |
    ⟨-, task, rest, hfirst, haccepted, hdequeued, htasks⟩
  · rw [haccepted, hdequeued, htasks]
    exact h
  · rw [haccepted, hdequeued, htasks]
    exact h.push task
  · have hpop := h.pop
    rw [hfirst] at hpop
    rw [haccepted, hdequeued, htasks]
    exact hpop

/-- A live worker that is no longer live has been moved, and to a point where it is not live. -/
theorem eq_of_ended_setWorker {id' : ThreadId} {worker : Worker} (hlive : (s.workers id).isLive = true)
    (hended : ((s.setWorker id' worker).workers id).isLive = false) :
    id = id' ∧ worker.isLive = false := by
  by_cases heq : id = id'
  · subst heq
    exact ⟨rfl, by simpa [State.setWorker] using hended⟩
  -- Another thread has moved, and this one is as it was.
  · have hsame : (s.setWorker id' worker).workers id = s.workers id := Function.update_of_ne heq _ _
    rw [hsame, hlive] at hended
    exact absurd hended (by simp)

/-- A live worker comes to an end in one of two ways: it finds the pool stopped, or it is an extended worker that
finds no task and leaves. -/
theorem ended_cases (hs : step ndebug l s a = some s') (hlive : (s.workers id).isLive = true)
    (hended : (s'.workers id).isLive = false) :
    (s.pool.poolYet = false ∧ s'.workers id = .terminated) ∨
      (s.pool.poolYet = true ∧ (s.workers id).type = some .extended ∧ s.pool.poolTasks = [] ∧
        s'.workers id = .left) := by
  have hs := stepAlive_of_step hs
  cases a with
  | enqueue p task =>
      obtain ⟨-, rfl⟩ := stepAlive_enqueue_eq_some.mp hs
      cases hyet : s.pool.poolYet with
      | false =>
          -- Steps that move no worker end none.
          rw [afterEnqueue_of_stopped hyet, hlive] at hended
          exact absurd hended (by simp)
      | true =>
          rw [afterEnqueue_of_yet hyet] at hended
          exact absurd (hlive.symm.trans hended) (by simp)
  | checkResize p =>
      obtain ⟨numWorker, numTasks, -, rfl⟩ := stepAlive_checkResize_eq_some.mp hs
      exact absurd (hlive.symm.trans hended) (by simp)
  | hire p ids =>
      obtain ⟨numWorker, newWorkerCount, -, hids, rfl⟩ := stepAlive_hire_eq_some.mp hs
      rcases afterHire_cases p hids with ⟨-, heq⟩ | ⟨-, heq⟩
      · rw [heq] at hended
        exact absurd (hlive.symm.trans hended) (by simp)
      · rw [heq] at hended
        -- A thread that is hired is live; the others are as they were.
        simp only at hended
        split at hended
        · exact absurd hended (by simp [Worker.isLive])
        · exact absurd (hlive.symm.trans hended) (by simp)
  | work id' =>
      obtain ⟨type, hw, rfl⟩ := stepAlive_work_eq_some.mp hs
      rcases afterWork_cases ndebug s id' type with ⟨hyet, heq⟩ | ⟨-, task, rest, -, heq⟩ |
        ⟨-, -, -, heq⟩ | ⟨hyet, htasks, htype, heq⟩
      · rw [heq] at hended ⊢
        obtain ⟨rfl, -⟩ := eq_of_ended_setWorker hlive hended
        -- It was this worker that found the pool stopped.
        exact Or.inl ⟨hyet, by simp [State.setWorker]⟩
      · rw [heq] at hended
        exact absurd (eq_of_ended_setWorker hlive hended).2 (by simp [Worker.isLive])
      · rw [heq] at hended
        exact absurd (eq_of_ended_setWorker hlive hended).2 (by simp [Worker.isLive])
      · rw [heq] at hended ⊢
        obtain ⟨rfl, -⟩ := eq_of_ended_setWorker hlive hended
        -- It was this worker that found no task, and its type let it leave.
        refine Or.inr ⟨hyet, ?_, htasks, by simp [State.setWorker]⟩
        rw [hw, htype]
        rfl
  | busyUp id' =>
      obtain ⟨type, task, -, rfl⟩ := stepAlive_busyUp_eq_some.mp hs
      exact absurd (eq_of_ended_setWorker hlive hended).2 (by simp [Worker.isLive])
  | busyDown id' =>
      obtain ⟨type, task, -, rfl⟩ := stepAlive_busyDown_eq_some.mp hs
      exact absurd (eq_of_ended_setWorker hlive hended).2 (by simp [Worker.isLive])
  | join =>
      obtain ⟨-, rfl⟩ := stepAlive_join_eq_some.mp hs
      exact absurd (hlive.symm.trans hended) (by simp)

/-- No step of a stopped pool starts it again, takes a task or queues one. -/
theorem stopped_step (hyet : s.pool.poolYet = false) (hs : step ndebug l s a = some s') :
    s'.pool.poolYet = false ∧ s'.dequeued = s.dequeued ∧ s'.pool.poolTasks = s.pool.poolTasks := by
  rcases tasks_cases hs with ⟨-, hdequeued, htasks, hstopped⟩ | ⟨hrun, -⟩ | ⟨hrun, -⟩
  · exact ⟨hstopped hyet, hdequeued, htasks⟩
  -- Tasks are accepted and taken in a running pool only.
  · exact absurd (hyet.symm.trans hrun) (by simp)
  · exact absurd (hyet.symm.trans hrun) (by simp)

/-- In every reachable state of a pool: the accepted tasks, in order, are the tasks taken by workers, in
order, followed by `PoolTasks`, so none is taken twice when all are different; while `PoolYet` is set a
worker ends only if it is an extended one and `PoolTasks` is empty; and once `PoolYet` is cleared,
`Enqueue` throws and changes nothing and no task is taken any more. -/
theorem order_of_reachable (h : (machine ndebug l).Reachable s) :
    (s.accepted = s.dequeued ++ s.pool.poolTasks ∧
        (s.accepted.Nodup → (s.dequeued ++ s.pool.poolTasks).Nodup)) ∧
      (∀ a s' id, step ndebug l s a = some s' → s.pool.poolYet = true →
        (s.workers id).isLive = true → (s'.workers id).isLive = false →
          (s.workers id).type = some .extended ∧ s.pool.poolTasks = []) ∧
      (s.pool.poolYet = false →
        (∀ p task, s.pool.enqueueSection task = none ∧ s.afterEnqueue p task = s) ∧
        ∀ as s', (machine ndebug l).exec s as = some s' →
          s'.dequeued = s.dequeued ∧ s'.pool.poolTasks = s.pool.poolTasks) := by
  have horder : InOrder s.accepted s.dequeued s.pool.poolTasks :=
    h.invariant InOrder.nil fun _ _ _ hi _ hs => inOrder_step hi hs
  refine ⟨⟨horder, horder.nodup⟩, fun a s' id hs hyet hlive hended => ?_, fun hyet => ⟨?_, ?_⟩⟩
  · rcases ended_cases hs hlive hended with ⟨hstopped, -⟩ | ⟨-, htype, htasks, -⟩
    · exact absurd (hyet.symm.trans hstopped) (by simp)
    · exact ⟨htype, htasks⟩
  · intro p task
    exact ⟨by simp [enqueueSection, hyet], afterEnqueue_of_stopped hyet⟩
  · intro as s' hexec
    -- What a run from here keeps: the pool stays stopped, and both lists as they are.
    have hkept := Machine.exec_invariant (M := machine ndebug l)
      (I := fun s' => s'.pool.poolYet = false ∧ s'.dequeued = s.dequeued ∧
        s'.pool.poolTasks = s.pool.poolTasks)
      (fun s₁ a s₂ hi hs => by
        obtain ⟨hyet₂, hdequeued, htasks⟩ := stopped_step hi.1 hs
        exact ⟨hyet₂, hdequeued.trans hi.2.1, htasks.trans hi.2.2⟩)
      as ⟨hyet, rfl, rfl⟩ hexec
    exact hkept.2

/-- In a pool of one worker that takes the first of two tasks and is then stopped, the tasks are in order and
`Enqueue` changes nothing. -/
theorem order_of_reachable_stopped :
    ∃ s, (machine false ⟨1, 1, by decide, by decide⟩).exec (State.init ⟨1, 1, by decide, by decide⟩)
        [.enqueue 0 10, .checkResize 0, .enqueue 0 11, .checkResize 0, .work 0, .join] = some s ∧
      s.accepted = s.dequeued ++ s.pool.poolTasks ∧ s.afterEnqueue 0 12 = s := by
  have hr := (Machine.ReachableUnder.init (M := machine false ⟨1, 1, by decide, by decide⟩)
    (G := fun _ _ => True)).exec
    [.enqueue 0 10, .checkResize 0, .enqueue 0 11, .checkResize 0, .work 0, .join] (by decide) rfl
  obtain ⟨⟨heq, -⟩, -, hstopped⟩ := order_of_reachable hr
  exact ⟨_, rfl, heq, ((hstopped rfl).1 0 12).2⟩

end Pool

end NavekFiber
