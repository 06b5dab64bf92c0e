import NavekFiber.Machine.Simulation
import NavekFiber.Machine.WorkQueue
import NavekFiber.Mt.ThreadPoolOrder

/-! # What becomes of a task

The pool is a work queue with the worker threads as its agents: `Enqueue` accepts a task, the section of
a worker takes the first one, and `Busy -= 1` marks it as done. Everything else the pool does, hiring and
leaving included, leaves the tasks alone. So each worker runs the tasks it took one after the other and to
their end, and an accepted task is in `PoolTasks`, or in the hands of one worker, or has been run once. -/

namespace NavekFiber

namespace Pool

open ThreadPool WorkQueue

variable {ndebug : Bool} {l : Limits} {s s' : State} {a : Action} {id : ThreadId}

/-- The task that a worker has taken and not yet finished. -/
def Worker.inHand : Worker → Option Task
  | .taken _ task | .running _ task => some task
  | _ => none

/-- The work queue that the pool is: the tasks in `PoolTasks` and those in the hands of the workers. -/
def State.workQueue (s : State) : WorkQueue ThreadId Task :=
  ⟨s.pool.poolTasks, fun id => (s.workers id).inHand⟩

/-- What a step of the pool shows: what it does to the tasks, as events of a work queue. -/
def shows (s : State) : Action → List (Event ThreadId Task)
  | .enqueue _ task => if s.pool.poolYet then [.accept task] else []
  | .work id => if s.pool.poolYet then (s.pool.poolTasks.head?.map (Event.take id)).toList else []
  | .busyDown id => ((s.workers id).inHand.map (Event.finish id)).toList
  | _ => []

/-- Moving a worker that keeps what it has in its hands leaves all hands as they were. -/
theorem inHand_setWorker {worker : Worker} (hsame : worker.inHand = (s.workers id).inHand) :
    (fun id' => ((s.setWorker id worker).workers id').inHand) = fun id' => (s.workers id').inHand := by
  funext id'
  by_cases hid : id' = id
  · subst hid
    simpa [State.setWorker] using hsame
  · simp [State.setWorker, Function.update_of_ne hid]

/-- Moving a worker changes what it has in its hands, and no other hands. -/
theorem inHand_setWorker_update (id : ThreadId) (worker : Worker) :
    (fun id' => ((s.setWorker id worker).workers id').inHand)
      = Function.update (fun id' => (s.workers id').inHand) id worker.inHand := by
  funext id'
  by_cases hid : id' = id
  · subst hid
    simp [State.setWorker]
  · simp [State.setWorker, Function.update_of_ne hid]

/-- Threads that are hired come with empty hands, and their ids were in nobody's. -/
theorem inHand_hired {ids : List ThreadId} {newWorkerCount : UInt64} (hids : s.Supplies newWorkerCount ids) :
    (fun id => (if id ∈ ids then Worker.waiting .extended else s.workers id).inHand)
      = fun id => (s.workers id).inHand := by
  funext id
  split
  · rename_i hid
    have hfree := hids.2.2 id hid
    cases hw : s.workers id <;> simp_all [Worker.inHand, Worker.isFree]
  · rfl

/-- What a step of the pool shows are steps of its work queue. -/
theorem workQueue_step (hs : step ndebug l s a = some s') :
    (WorkQueue.machine ThreadId Task).exec s.workQueue (shows s a) = some s'.workQueue := by
  have hs := stepAlive_of_step hs
  cases a with
  | enqueue p task =>
      obtain ⟨-, rfl⟩ := stepAlive_enqueue_eq_some.mp hs
      cases hyet : s.pool.poolYet with
      | false =>
          rw [afterEnqueue_of_stopped hyet]
          simp [shows, hyet, Machine.exec]
      | true =>
          rw [afterEnqueue_of_yet hyet]
          simp [shows, hyet, Machine.exec, WorkQueue.machine, WorkQueue.step, State.workQueue]
  | checkResize p =>
      obtain ⟨numWorker, numTasks, -, rfl⟩ := stepAlive_checkResize_eq_some.mp hs
      rfl
  | hire p ids =>
      obtain ⟨numWorker, newWorkerCount, -, hids, rfl⟩ := stepAlive_hire_eq_some.mp hs
      rcases afterHire_cases p hids with ⟨-, heq⟩ | ⟨-, heq⟩
      · rw [heq]
        rfl
      · rw [heq, State.workQueue, State.workQueue]
        simp only [inHand_hired hids]
        rfl
  | work id =>
      obtain ⟨type, hw, rfl⟩ := stepAlive_work_eq_some.mp hs
      have hempty : (s.workers id).inHand = none := by rw [hw]; rfl
      rcases afterWork_cases ndebug s id type with ⟨hyet, heq⟩ | ⟨hyet, task, rest, htasks, heq⟩ |
        ⟨hyet, htasks, -, heq⟩ | ⟨hyet, htasks, -, heq⟩
      · rw [heq, State.workQueue, State.workQueue, inHand_setWorker (by rw [hempty]; rfl)]
        simp [shows, hyet, Machine.exec, State.setWorker]
      · rw [heq, State.workQueue, State.workQueue]
        -- The one end of the section in which the worker comes away with a task.
        have hhands := inHand_setWorker_update (s := s) id (.taken type task)
        simp only [State.setWorker] at hhands ⊢
        rw [hhands]
        simp [shows, hyet, htasks, hw, Machine.exec, WorkQueue.machine, WorkQueue.step, Worker.inHand]
      · rw [heq, State.workQueue, State.workQueue, inHand_setWorker (by rw [hempty]; rfl)]
        simp [shows, hyet, htasks, Machine.exec, State.setWorker]
      · rw [heq, State.workQueue, State.workQueue]
        have hsame : Worker.left.inHand = (s.workers id).inHand := hempty.symm
        have hhands := inHand_setWorker hsame
        simp only [State.setWorker] at hhands ⊢
        rw [hhands]
        simp [shows, hyet, htasks, Machine.exec]
  | busyUp id =>
      obtain ⟨type, task, hw, rfl⟩ := stepAlive_busyUp_eq_some.mp hs
      have hsame : (Worker.running type task).inHand = (s.workers id).inHand := by rw [hw]; rfl
      have hhands := inHand_setWorker hsame
      simp only [State.afterBusyUp, State.workQueue, State.setWorker] at hhands ⊢
      rw [hhands]
      rfl
  | busyDown id =>
      obtain ⟨type, task, hw, rfl⟩ := stepAlive_busyDown_eq_some.mp hs
      have hhands := inHand_setWorker_update (s := s) id (.waiting type)
      simp only [State.afterBusyDown, State.workQueue, State.setWorker] at hhands ⊢
      rw [hhands]
      simp [shows, hw, Machine.exec, WorkQueue.machine, WorkQueue.step, Worker.inHand]
  | join =>
      obtain ⟨-, rfl⟩ := stepAlive_join_eq_some.mp hs
      rfl

/-- At the start the work queue of the pool is the empty one, with no task in any hands. -/
theorem workQueue_init (l : Limits) : (State.init l).workQueue = (WorkQueue.machine ThreadId Task).init := by
  have hhands : (fun id => ((State.init l).workers id).inHand) = fun _ => none := by
    funext id
    simp only [State.init]
    split <;> rfl
  rw [State.workQueue, hhands]
  rfl

/-- The pool refines the work queue, in every run. -/
def refinesWorkQueue (ndebug : Bool) (l : Limits) :
    Machine.Refinement (machine ndebug l) (WorkQueue.machine ThreadId Task) fun _ _ => True where
  Rel s q := s.workQueue = q
  shows := shows
  init := workQueue_init l
  step := by
    rintro s q a s' rfl - hs
    exact ⟨_, workQueue_step hs, rfl⟩

/-- A step adds to the accepted and to the dequeued tasks what it shows as accepted and as taken. -/
theorem logs_step (hs : step ndebug l s a = some s') :
    s'.accepted = s.accepted ++ accepts (shows s a) ∧ s'.dequeued = s.dequeued ++ takes (shows s a) := by
  have hs := stepAlive_of_step hs
  cases a with
  | enqueue p task =>
      obtain ⟨-, rfl⟩ := stepAlive_enqueue_eq_some.mp hs
      cases hyet : s.pool.poolYet with
      | false => simp [afterEnqueue_of_stopped hyet, shows, hyet]
      | true => simp [afterEnqueue_of_yet hyet, shows, hyet]
  | checkResize p =>
      obtain ⟨numWorker, numTasks, -, rfl⟩ := stepAlive_checkResize_eq_some.mp hs
      exact ⟨(List.append_nil _).symm, (List.append_nil _).symm⟩
  | hire p ids =>
      obtain ⟨numWorker, newWorkerCount, -, hids, rfl⟩ := stepAlive_hire_eq_some.mp hs
      rcases afterHire_cases p hids with ⟨-, heq⟩ | ⟨-, heq⟩ <;> rw [heq] <;>
        exact ⟨(List.append_nil _).symm, (List.append_nil _).symm⟩
  | work id =>
      obtain ⟨type, hw, rfl⟩ := stepAlive_work_eq_some.mp hs
      rcases afterWork_cases ndebug s id type with ⟨hyet, heq⟩ | ⟨hyet, task, rest, htasks, heq⟩ |
        ⟨hyet, htasks, -, heq⟩ | ⟨hyet, htasks, -, heq⟩
      · simp [heq, shows, hyet, State.setWorker]
      · simp [heq, shows, hyet, htasks, State.setWorker]
      · simp [heq, shows, htasks, State.setWorker]
      · simp [heq, shows, htasks, State.setWorker]
  | busyUp id =>
      obtain ⟨type, task, -, rfl⟩ := stepAlive_busyUp_eq_some.mp hs
      exact ⟨(List.append_nil _).symm, (List.append_nil _).symm⟩
  | busyDown id =>
      obtain ⟨type, task, hw, rfl⟩ := stepAlive_busyDown_eq_some.mp hs
      simp [shows, hw, Worker.inHand, State.afterBusyDown,
        State.setWorker]
  | join =>
      obtain ⟨-, rfl⟩ := stepAlive_join_eq_some.mp hs
      exact ⟨(List.append_nil _).symm, (List.append_nil _).symm⟩

/-- A step shows at most one of the three things that a work queue does. -/
theorem shows_cases (hs : step ndebug l s a = some s') :
    shows s a = [] ∨ (∃ p task, a = .enqueue p task ∧ shows s a = [.accept task]) ∨
      (∃ id task, shows s a = [.take id task]) ∨
      ∃ id type task, a = .busyDown id ∧ s.workers id = .running type task ∧ shows s a = [.finish id task] := by
  have hs := stepAlive_of_step hs
  cases a with
  | enqueue p task =>
      cases hyet : s.pool.poolYet with
      | false => exact Or.inl (by simp [shows, hyet])
      | true => exact Or.inr (Or.inl ⟨p, task, rfl, by simp [shows, hyet]⟩)
  | work id =>
      cases hyet : s.pool.poolYet with
      | false => exact Or.inl (by simp [shows, hyet])
      | true =>
          cases htasks : s.pool.poolTasks with
          | nil => exact Or.inl (by simp [shows, hyet, htasks])
          | cons task rest => exact Or.inr (Or.inr (Or.inl ⟨id, task, by simp [shows, hyet, htasks]⟩))
  | busyDown id =>
      obtain ⟨type, task, hw, -⟩ := stepAlive_busyDown_eq_some.mp hs
      exact Or.inr (Or.inr (Or.inr ⟨id, type, task, rfl, hw, by simp [shows, hw, Worker.inHand]⟩))
  | checkResize p => exact Or.inl rfl
  | hire p ids => exact Or.inl rfl
  | busyUp id => exact Or.inl rfl
  | join => exact Or.inl rfl

/-- A step leaves the tasks that have been taken alone, or a worker takes one, or a worker finishes the one that it
runs. -/
theorem inHand_cases (hs : step ndebug l s a = some s') :
    (s'.dequeued = s.dequeued ∧ ∀ id, (s'.workers id).inHand = (s.workers id).inHand) ∨
      (∃ id task, (s.workers id).inHand = none ∧ s'.dequeued = s.dequeued ++ [task] ∧
        ∀ id', (s'.workers id').inHand = if id' = id then some task else (s.workers id').inHand) ∨
      ∃ id type task, a = .busyDown id ∧ s.workers id = .running type task ∧ s'.dequeued = s.dequeued ∧
        ∀ id', (s'.workers id').inHand = if id' = id then none else (s.workers id').inHand := by
  have hexec := workQueue_step hs
  have htakes := (logs_step hs).2
  -- The hands are those that the work queue has after the event.
  have hhands (q : WorkQueue ThreadId Task) (hq : some q = some s'.workQueue) (id : ThreadId) :
      (s'.workers id).inHand = q.hands id := by
    obtain rfl := Option.some.inj hq
    rfl
  rcases shows_cases hs with hshows | ⟨p, task, -, hshows⟩ | ⟨id, task, hshows⟩ | ⟨id, type, task, ha, hw, hshows⟩
  · rw [hshows] at hexec htakes
    refine Or.inl ⟨by simpa using htakes, fun id => hhands _ hexec id⟩
  · rw [hshows] at hexec htakes
    exact Or.inl ⟨by simpa using htakes, fun id => hhands _ hexec id⟩
  · rw [hshows] at hexec htakes
    simp only [Machine.exec, WorkQueue.machine, WorkQueue.step] at hexec
    split at hexec
    · rename_i hguard
      refine Or.inr (Or.inl ⟨id, task, hguard.2, by simpa using htakes, fun id' => ?_⟩)
      exact (hhands _ hexec id').trans (Function.update_apply _ _ _ _)
    · cases hexec
  · rw [hshows] at hexec htakes
    simp only [Machine.exec, WorkQueue.machine, WorkQueue.step] at hexec
    split at hexec
    · refine Or.inr (Or.inr ⟨id, type, task, ha, hw, by simpa using htakes, fun id' => ?_⟩)
      exact (hhands _ hexec id').trans (Function.update_apply _ _ _ _)
    · cases hexec

/-- The tasks accepted, taken and finished in a run, event by event. -/
def history (ndebug : Bool) (l : Limits) (as : List Action) : List (Event ThreadId Task) :=
  (machine ndebug l).shown shows (State.init l) as

/-- The history of a run has the accepted and the dequeued tasks of the state at its end, and its items are in order
there. -/
theorem orderly_history {as : List Action} (hexec : (machine ndebug l).exec (State.init l) as = some s) :
    accepts (history ndebug l as) = s.accepted ∧ takes (history ndebug l as) = s.dequeued ∧
      Orderly (history ndebug l as) s.workQueue := by
  have haccepted := Machine.log_eq_of_exec (fun _ _ _ hs => (logs_step hs).1) as hexec
  have hdequeued := Machine.log_eq_of_exec (fun _ _ _ hs => (logs_step hs).2) as hexec
  obtain ⟨q, hq, rfl⟩ := (refinesWorkQueue ndebug l).exec as (refinesWorkQueue ndebug l).init
    (Machine.meets_true as) hexec
  exact ⟨haccepted.symm, hdequeued.symm, orderly_of_exec hq⟩

/-- A thread that has ended has finished all the tasks that it took. -/
theorem finished_of_ended {as : List Action} (hexec : (machine ndebug l).exec (State.init l) as = some s)
    (hended : (s.workers id).isLive = false) :
    takesBy id (history ndebug l as) = finishesBy id (history ndebug l as) := by
  have hhands : (s.workers id).inHand = none := by
    cases hw : s.workers id <;> simp_all [Worker.inHand, Worker.isLive]
  have hagent := (orderly_history hexec).2.2.2 id
  simpa [InOrder, State.workQueue, hhands] using hagent

/-- After every run of the pool, whatever the interleaving: the tasks that a worker took are those it has
finished, in the same order, and then the one it has in its hands, so that a worker that has left or has
returned has finished all it took; and when no task was enqueued twice, each accepted task is in
`PoolTasks` and untaken, or in the hands of the one worker that took it, or has been finished once, by
that worker. -/
theorem task_fate_of_exec {as : List Action} (hexec : (machine ndebug l).exec (State.init l) as = some s) :
    (∀ id, takesBy id (history ndebug l as)
        = finishesBy id (history ndebug l as) ++ (s.workers id).inHand.toList) ∧
      (∀ id, (s.workers id).isLive = false →
        takesBy id (history ndebug l as) = finishesBy id (history ndebug l as)) ∧
      (s.accepted.Nodup → ∀ task ∈ s.accepted, Fate (history ndebug l as) s.workQueue task) := by
  obtain ⟨haccepted, -, horderly⟩ := orderly_history hexec
  refine ⟨horderly.2, fun id => finished_of_ended hexec, fun hnodup task htask => ?_⟩
  rw [← haccepted] at hnodup htask
  exact fate_of_orderly horderly hnodup htask

/-- When one worker has finished a task and taken another one while a third waits, each of the three has its fate. -/
theorem task_fate_of_exec_three :
    ∃ s, (machine false ⟨1, 1, by decide, by decide⟩).exec (State.init ⟨1, 1, by decide, by decide⟩)
        [.enqueue 0 10, .checkResize 0, .enqueue 0 11, .checkResize 0, .work 0, .busyUp 0, .enqueue 0 12,
          .busyDown 0, .work 0] = some s ∧
      (s.workers 0).inHand = some 11 ∧
      ∀ task ∈ [10, 11, 12], Fate
        [.accept 10, .accept 11, .take 0 10, .accept 12, .finish 0 10, .take 0 11] s.workQueue task := by
  have hexec : (machine false ⟨1, 1, by decide, by decide⟩).exec (State.init ⟨1, 1, by decide, by decide⟩)
      [.enqueue 0 10, .checkResize 0, .enqueue 0 11, .checkResize 0, .work 0, .busyUp 0, .enqueue 0 12,
        .busyDown 0, .work 0] = some _ := rfl
  exact ⟨_, hexec, rfl, (task_fate_of_exec hexec).2.2 (by decide)⟩

end Pool

end NavekFiber
