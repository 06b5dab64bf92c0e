import NavekFiber.Machine.Fifo
import NavekFiber.Mq.SyncSapi

/-! # The workers of the script queue class

`Put` counts a worker in `mq_workers` under the lock when it starts one, a worker counts itself out
after its loop and without the lock. While no reply throws, every thread that was started comes to its
decrement, so the counter is the number of threads that have not come to it yet, and as `Put` starts a
thread only below `LimitTasks` it stays within that limit. Messages are taken in the order in which they
were accepted, and each is stored when it is taken (`workers_of_reachable`). Nothing here needs the ids
of the `Put` calls to be distinct. -/

namespace NavekFiber

namespace SyncSAPIHandler

variable {o : Options} {h : SyncSAPIHandler}

/-- The section of `ExecuteThread` does not touch `mq_workers`. -/
@[simp] theorem mqWorkers_dequeueSection : h.dequeueSection.1.mqWorkers = h.mqWorkers := by
  unfold dequeueSection
  split
  · rfl
  · split <;> rfl

/-- In the section of `ExecuteThread`, `mq_messages.at` does not throw when the queued ids are stored. -/
theorem dequeueSection_ne_outOfRange (hstored : ∀ x ∈ h.mqQueue, x ∈ h.mqMessages) :
    h.dequeueSection.2 ≠ .outOfRange := by
  obtain ⟨working, workers, queue, messages⟩ := h
  cases queue with
  | nil => simp [dequeueSection]
  | cons msgid rest =>
      obtain ⟨request, hat⟩ := Option.isSome_iff_exists.mp
        (UnorderedMap.isSome_atKey.mpr (hstored msgid List.mem_cons_self))
      simp only [] at hat
      simp [dequeueSection, hat]

/-- Counting one worker more does not overflow below the range of `int32_t`. -/
theorem toInt_add_one (workers : Int32) (hnonneg : 0 ≤ workers.toInt)
    (hlt : workers.toInt < 2 ^ 31 - 1) : (workers + 1).toInt = workers.toInt + 1 := by
  have hone : (1 : Int32).toInt = 1 := rfl
  rw [Int32.toInt_add, hone, Int.bmod_eq_of_le]
  · omega
  · omega

/-- Counting one worker less does not overflow when there is one. -/
theorem toInt_sub_one (workers : Int32) (hpos : 0 < workers.toInt) :
    (workers - 1).toInt = workers.toInt - 1 := by
  have hlt := workers.toInt_lt
  have hone : (1 : Int32).toInt = 1 := rfl
  rw [Int32.toInt_sub, hone, Int.bmod_eq_of_le]
  · omega
  · omega

end SyncSAPIHandler

namespace SyncSapi

open SyncSAPIHandler

variable {o : Options} {s s' : State} {a : Action} {w : WorkerId} {worker old : Worker}

/-- A thread was started and has not yet decremented `mq_workers`. -/
def Worker.counts : Worker → Bool
  | .finished => false
  | _ => true

/-- The number of threads that were started and have not yet decremented `mq_workers`. -/
def State.countedWorkers (s : State) : ℕ := s.workers.countP Worker.counts

/-- A step in which no reply throws. -/
def RepliesReturn : Action → Prop
  | .reply _ result | .excuse _ result => result ≠ .runtimeException
  | _ => True

instance : DecidablePred RepliesReturn
  | .reply _ result | .excuse _ result => inferInstanceAs (Decidable (result ≠ .runtimeException))
  | .putEnter _ | .put _ _ | .dequeue _ | .testWorking _ | .testQueue _ | .leave _
  | .finalize => isTrue trivial

/-- The invariant of runs in which replies return. -/
structure WorkersInvariant (o : Options) (s : State) : Prop where
  /-- The accepted ids are the taken ids followed by the queue. -/
  inOrder : InOrder s.accepted s.taken s.handler.mqQueue
  /-- Queued ids are keys of `mq_messages`. -/
  stored : ∀ x ∈ s.handler.mqQueue, x ∈ s.handler.mqMessages
  /-- `mq_workers` counts the threads that have not decremented it. -/
  count : s.handler.mqWorkers.toInt = s.countedWorkers
  /-- There are no more threads than allowed. -/
  count_le : s.countedWorkers ≤ o.limitTasks
  /-- The queue is not longer than its limit. -/
  length_le : o.limitSize ≠ 0 → s.handler.mqQueue.length ≤ o.limitSize

/-- Moving a worker that counts changes `countedWorkers` by what it does afterwards. -/
theorem countedWorkers_setWorker (hw : s.workers[w]? = some old) (hold : old.counts = true) :
    (s.setWorker w worker).countedWorkers + 1
      = s.countedWorkers + if worker.counts = true then 1 else 0 := by
  obtain ⟨hlt, hget⟩ := List.getElem?_eq_some_iff.mp hw
  have hpos : 0 < s.workers.countP Worker.counts :=
    List.countP_pos_iff.mpr ⟨old, List.mem_of_getElem? hw, hold⟩
  simp only [State.countedWorkers, State.setWorker, List.countP_set hlt, hget, hold, if_true]
  omega

/-- Moving a worker that goes on counting keeps `countedWorkers`. -/
theorem countedWorkers_setWorker_of_counts (hw : s.workers[w]? = some old) (hold : old.counts = true)
    (hnew : worker.counts = true) : (s.setWorker w worker).countedWorkers = s.countedWorkers := by
  have h : (s.setWorker w worker).countedWorkers + 1 = _ := countedWorkers_setWorker hw hold
  rw [if_pos hnew] at h
  omega

/-- A step that only moves a worker, one that goes on counting, keeps the `WorkersInvariant`. -/
theorem WorkersInvariant.setWorker (hi : WorkersInvariant o s) (hw : s.workers[w]? = some old)
    (hold : old.counts = true) (hnew : worker.counts = true) :
    WorkersInvariant o (s.setWorker w worker) := by
  have hcount : (s.setWorker w worker).countedWorkers = s.countedWorkers :=
    countedWorkers_setWorker_of_counts hw hold hnew
  exact ⟨hi.inOrder, hi.stored, hi.count.trans (congrArg Nat.cast hcount.symm), hcount ▸ hi.count_le,
    hi.length_le⟩

/-- The `WorkersInvariant` holds at the start, when there are no workers. -/
theorem WorkersInvariant.init : WorkersInvariant o State.init := by
  refine ⟨InOrder.nil, fun x hx => ?_, rfl, Nat.zero_le _, fun _ => Nat.zero_le _⟩
  simp [State.init] at hx

/-- Starting a worker below the limit keeps the count within it: the increment does not overflow. -/
theorem WorkersInvariant.count_hires (hi : WorkersInvariant o s) (hpos : 1 ≤ o.limitTasks)
    (hlt : o.limitTasks < 2 ^ 31) (hhires : Hires o s.handler) :
    (s.handler.mqWorkers + 1).toInt = s.countedWorkers + 1 ∧ s.countedWorkers + 1 ≤ o.limitTasks := by
  -- `mq_workers < (int32_t)LimitTasks`, where the cast is exact.
  have hbelow : s.handler.mqWorkers.toInt < o.limitTasks := by
    have h := Int32.lt_iff_toInt_lt.mp (hhires.resolve_left (by omega))
    rwa [Int32.toInt_ofNat_of_lt hlt] at h
  have hcount := hi.count
  have hadd := toInt_add_one s.handler.mqWorkers (by omega) (by omega)
  exact ⟨by omega, by omega⟩

/-- `Put` keeps the `WorkersInvariant`: it starts a worker only below the limit. -/
theorem WorkersInvariant.put {c : CallId} {id : MsgId} (hi : WorkersInvariant o s)
    (hpos : 1 ≤ o.limitTasks) (hlt : o.limitTasks < 2 ^ 31) :
    WorkersInvariant o (s.afterPut o c id) := by
  by_cases haccepts : Accepts o s.handler id
  -- The id enters `mq_messages` and `mq_queue` together.
  · have hstored : ∀ x ∈ s.handler.mqQueue ++ [id],
        x ∈ s.handler.mqMessages.insert id ⟨s.puts.length, id⟩ := by
      intro x hx
      rcases List.mem_append.mp hx with hold | hnew
      · exact (AList.mem_insert _).mpr (Or.inr (hi.stored x hold))
      · exact (AList.mem_insert _).mpr (Or.inl (List.mem_singleton.mp hnew))
    have hlength : o.limitSize ≠ 0 → (s.handler.mqQueue ++ [id]).length ≤ o.limitSize := by
      intro hlimit
      have := haccepts.1.resolve_left hlimit
      rw [List.length_append, List.length_singleton]
      omega
    rw [afterPut_of_accepts c haccepts]
    by_cases hhires : Hires o s.handler
    · obtain ⟨hcount, hle⟩ := hi.count_hires hpos hlt hhires
      -- The new worker counts from its start: the increment is made in the same section.
      have hcounted : (s.workers ++ [Worker.dequeuing]).countP Worker.counts = s.countedWorkers + 1 := by
        simp [State.countedWorkers, Worker.counts]
      simp only [if_pos hhires]
      refine ⟨hi.inOrder.push id, hstored, ?_, ?_, hlength⟩
      · rw [State.countedWorkers, hcounted]
        exact hcount
      · rw [State.countedWorkers, hcounted]
        exact hle
    · simp only [if_neg hhires]
      exact ⟨hi.inOrder.push id, hstored, hi.count, hi.count_le, hlength⟩
  · rw [afterPut_of_not_accepts c haccepts]
    exact ⟨hi.inOrder, hi.stored, hi.count, hi.count_le, hi.length_le⟩

/-- The section of `ExecuteThread` keeps the `WorkersInvariant`. -/
theorem WorkersInvariant.dequeue (hi : WorkersInvariant o s) (hw : s.workers[w]? = some .dequeuing) :
    WorkersInvariant o (s.afterDequeue w) := by
  have hne := dequeueSection_ne_outOfRange hi.stored
  have hcounted : (s.afterDequeue w).countedWorkers = s.countedWorkers := by
    refine countedWorkers_setWorker_of_counts hw rfl ?_
    -- A worker past its section still counts: it has not decremented `mq_workers`.
    cases hdequeue : s.handler.dequeueSection.2 with
    | empty => rfl
    | message msgid request => rfl
    | outOfRange => exact absurd hdequeue hne
  refine ⟨?_, fun x hx => ?_, ?_, hcounted ▸ hi.count_le, fun hlimit => ?_⟩
  · simpa [State.afterDequeue, State.setWorker] using hi.inOrder.pop
  · simp only [State.afterDequeue, mqQueue_dequeueSection] at hx
    simpa [State.afterDequeue] using hi.stored x (List.mem_of_mem_tail hx)
  · rw [hcounted, ← hi.count]
    simp [State.afterDequeue]
  · have hle := hi.length_le hlimit
    simp only [State.afterDequeue, mqQueue_dequeueSection, List.length_tail]
    omega

/-- The decrement of `mq_workers` keeps the `WorkersInvariant`. -/
theorem WorkersInvariant.leave (hi : WorkersInvariant o s) (hw : s.workers[w]? = some .leaving) :
    WorkersInvariant o (s.afterLeave w) := by
  have hcounted : (s.afterLeave w).countedWorkers + 1 = s.countedWorkers :=
    countedWorkers_setWorker hw rfl
  have hcount := hi.count
  have hle := hi.count_le
  refine ⟨hi.inOrder, hi.stored, ?_, by omega, hi.length_le⟩
  -- This worker counts itself, so `mq_workers` is positive.
  have hsub := toInt_sub_one s.handler.mqWorkers (by omega)
  show (s.handler.mqWorkers - 1).toInt = _
  omega

/-- Every step of a run in which replies return keeps the `WorkersInvariant`. -/
theorem WorkersInvariant.preserved (hi : WorkersInvariant o s) (hpos : 1 ≤ o.limitTasks)
    (hlt : o.limitTasks < 2 ^ 31) (hreturn : RepliesReturn a) (hs : step o s a = some s') :
    WorkersInvariant o s' := by
  cases a with
  | putEnter c =>
      obtain ⟨-, rfl⟩ := step_putEnter_eq_some.mp hs
      exact ⟨hi.inOrder, hi.stored, hi.count, hi.count_le, hi.length_le⟩
  | put c id =>
      obtain ⟨-, rfl⟩ := step_put_eq_some.mp hs
      exact hi.put hpos hlt
  | dequeue w =>
      obtain ⟨hw, rfl⟩ := step_dequeue_eq_some.mp hs
      exact hi.dequeue hw
  | reply w result =>
      obtain ⟨msgid, request, hw, rfl⟩ := step_reply_eq_some.mp hs
      refine hi.setWorker hw rfl ?_
      -- The reply returned, so the worker goes on to the loop condition.
      rw [if_neg hreturn]
      rfl
  | excuse w result =>
      obtain ⟨⟨msgid, request, hw⟩, rfl⟩ := step_excuse_eq_some.mp hs
      refine hi.setWorker hw rfl ?_
      rw [if_neg hreturn]
      rfl
  | testWorking w =>
      obtain ⟨hw, rfl⟩ := step_testWorking_eq_some.mp hs
      refine hi.setWorker hw rfl ?_
      split <;> rfl
  | testQueue w =>
      obtain ⟨hw, rfl⟩ := step_testQueue_eq_some.mp hs
      refine hi.setWorker hw rfl ?_
      split <;> rfl
  | leave w =>
      obtain ⟨hw, rfl⟩ := step_leave_eq_some.mp hs
      exact hi.leave hw
  | finalize =>
      obtain ⟨-, rfl⟩ := step_finalize_eq_some.mp hs
      exact ⟨hi.inOrder, hi.stored, hi.count, hi.count_le, hi.length_le⟩

/-- In every state of a run in which replies return, with a limit on tasks that `int32_t` can hold:
`mq_workers` is the number of threads that have not decremented it yet and is within the limit, the
accepted ids are the taken ids followed by the queue, the next `mq_messages.at` does not throw, and the
queue keeps to its limit. -/
theorem workers_of_reachable (hpos : 1 ≤ o.limitTasks) (hlt : o.limitTasks < 2 ^ 31)
    (h : (machine o).ReachableUnder (fun _ a => RepliesReturn a) s) :
    s.handler.mqWorkers.toInt = s.countedWorkers ∧
      s.handler.mqWorkers.toInt ≤ o.limitTasks ∧
      s.accepted = s.taken ++ s.handler.mqQueue ∧
      s.handler.dequeueSection.2 ≠ .outOfRange ∧
      (o.limitSize ≠ 0 → s.handler.mqQueue.length ≤ o.limitSize) := by
  have hi : WorkersInvariant o s :=
    h.invariant WorkersInvariant.init fun _ _ _ hi hreturn hs => hi.preserved hpos hlt hreturn hs
  have hcount := hi.count
  have hle := hi.count_le
  exact ⟨hcount, by omega, hi.inOrder, dequeueSection_ne_outOfRange hi.stored, hi.length_le⟩

/-- Of two workers with a message each, the first has finished: `mq_workers` is one, as is the number of threads that
have not decremented it. -/
theorem workers_of_reachable_two :
    ∃ s, (machine ⟨2, 1⟩).exec State.init
        [.putEnter 0, .put 0 7, .putEnter 1, .dequeue 0, .put 1 8, .reply 0 .delivered, .dequeue 1,
          .testWorking 0, .testQueue 0, .leave 0] = some s ∧
      s.handler.mqWorkers.toInt = s.countedWorkers ∧ s.countedWorkers = 1 := by
  have hr := (Machine.ReachableUnder.init (M := machine ⟨2, 1⟩) (G := fun _ a => RepliesReturn a)).exec
    [.putEnter 0, .put 0 7, .putEnter 1, .dequeue 0, .put 1 8, .reply 0 .delivered, .dequeue 1,
      .testWorking 0, .testQueue 0, .leave 0] (by decide) rfl
  exact ⟨_, rfl, (workers_of_reachable (by decide) (by decide) hr).1, rfl⟩

end SyncSapi

end NavekFiber
