import NavekFiber.Mq.SyncSapi

/-! # When the script queue class leaves no message behind

`Put` relies on the running workers when `mq_workers` has reached `LimitTasks`. A worker that has
found the queue empty for the last time still counts until its decrement, so `Put` may rely on a
worker that will not come back. `Attended` excludes exactly this: a message queued without a new
thread needs a worker that is still active. Then a queued message always has an active worker, and
when all calls and workers are done the queue is empty (`queue_empty_of_quiescent`). -/

namespace NavekFiber

namespace SyncSapi

open SyncSAPIHandler

variable {o : Options} {s s' : State} {a : Action} {w : WorkerId} {worker : Worker}

instance : DecidablePred Worker.Active
  | .leaving | .finished | .terminated => isFalse id
  | .dequeuing | .replying _ _ | .excusing _ _ | .testingWorking | .testingQueue => isTrue trivial

/-- Some worker has not yet made its last test of the queue. -/
def State.HasActive (s : State) : Prop := ∃ worker ∈ s.workers, worker.Active

instance : Decidable s.HasActive := inferInstanceAs (Decidable (∃ worker ∈ s.workers, worker.Active))

/-- No call of `Put` and no `ExecuteThread` is in progress. -/
def State.Quiescent (s : State) : Prop :=
  (∀ c, s.calls c ≠ .entered) ∧ ∀ worker ∈ s.workers, worker = .finished

/-- A step in which the handler keeps working and no reply throws. -/
def Undisturbed : Action → Prop
  | .finalize => False
  | .reply _ result | .excuse _ result => result ≠ .runtimeException
  | _ => True

instance : DecidablePred Undisturbed
  | .finalize => isFalse id
  | .reply _ result | .excuse _ result => inferInstanceAs (Decidable (result ≠ .runtimeException))
  | .putEnter _ | .put _ _ | .dequeue _ | .testWorking _ | .testQueue _ | .leave _ => isTrue trivial

/-- A `Put` that queues its message without starting a thread finds an active worker. -/
def Attended (o : Options) (s : State) : Action → Prop
  | .put _ id => Accepts o s.handler id → ¬ Hires o s.handler → s.HasActive
  | _ => True

instance : DecidablePred (Attended o s)
  | .put _ id =>
      inferInstanceAs (Decidable (Accepts o s.handler id → ¬ Hires o s.handler → s.HasActive))
  | .putEnter _ | .dequeue _ | .reply _ _ | .excuse _ _ | .testWorking _ | .testQueue _
  | .leave _ | .finalize => isTrue trivial

/-- The invariant of undisturbed runs: queued messages are stored, and have an active worker. -/
structure WakeupInvariant (s : State) : Prop where
  /-- `mq_working` is set. -/
  working : s.handler.mqWorking = true
  /-- Queued ids are keys of `mq_messages`. -/
  stored : ∀ x ∈ s.handler.mqQueue, x ∈ s.handler.mqMessages
  /-- A queued message has an active worker. -/
  attended : s.handler.mqQueue ≠ [] → s.HasActive

/-- The `WakeupInvariant` holds at the start, when no message is queued. -/
theorem WakeupInvariant.init : WakeupInvariant State.init := by
  refine ⟨rfl, fun x hx => ?_, fun hne => absurd rfl hne⟩
  simp [State.init] at hx

/-- After a worker has moved to an active point, the state `HasActive`. -/
theorem hasActive_setWorker {old : Worker} (hw : s.workers[w]? = some old) (hactive : worker.Active) :
    (s.setWorker w worker).HasActive := by
  have hlt : w < s.workers.length := (List.getElem?_eq_some_iff.mp hw).1
  exact ⟨worker, List.mem_set hlt worker, hactive⟩

/-- Moving a worker that is not active keeps `HasActive`. -/
theorem State.HasActive.setWorker {old : Worker} (hw : s.workers[w]? = some old) (hold : ¬ old.Active)
    (h : s.HasActive) : (s.setWorker w worker).HasActive := by
  obtain ⟨worker', hmem, hactive⟩ := h
  obtain ⟨w', hw'⟩ := List.mem_iff_getElem?.mp hmem
  -- The active worker is another one than the worker that moves.
  have hne : w ≠ w' := by
    rintro rfl
    rw [hw] at hw'
    exact hold (Option.some.inj hw' ▸ hactive)
  refine ⟨worker', List.mem_iff_getElem?.mpr ⟨w', ?_⟩, hactive⟩
  rw [State.setWorker, List.getElem?_set_ne hne, hw']

/-- After `Put` every queued message has an active worker exactly when the message it queued without starting a
thread, if any, found one. -/
theorem WakeupInvariant.put_iff {c : CallId} {id : MsgId} (hi : WakeupInvariant s) :
    ((s.afterPut o c id).handler.mqQueue ≠ [] → (s.afterPut o c id).HasActive) ↔
      Attended o s (.put c id) := by
  by_cases haccepts : Accepts o s.handler id
  · rw [afterPut_of_accepts c haccepts]
    by_cases hhires : Hires o s.handler
    -- The thread that is started is active.
    · refine iff_of_true (fun _ => ⟨.dequeuing, ?_, trivial⟩) (fun _ hno => absurd hhires hno)
      simp [hhires]
    -- Nobody is started, so the message relies on the workers there are.
    · simp [Attended, haccepts, hhires, State.HasActive]
  · rw [afterPut_of_not_accepts c haccepts]
    exact iff_of_true hi.attended fun hyes => absurd hyes haccepts

/-- After the section of `ExecuteThread`, an active worker is there as long as a message is queued. -/
theorem WakeupInvariant.dequeue_attended (hi : WakeupInvariant s)
    (hw : s.workers[w]? = some .dequeuing) (hne : (s.afterDequeue w).handler.mqQueue ≠ []) :
    (s.afterDequeue w).HasActive := by
  cases hqueue : s.handler.mqQueue with
  | nil =>
      rw [afterDequeue_of_nil w hqueue] at hne
      exact absurd hqueue hne
  | cons msgid rest =>
      -- There was a message, and its id is a key: the worker goes on to reply.
      have hstored : msgid ∈ s.handler.mqMessages := hi.stored msgid (by simp [hqueue])
      obtain ⟨request, hat⟩ := Option.isSome_iff_exists.mp (UnorderedMap.isSome_atKey.mpr hstored)
      rw [afterDequeue_of_cons w hqueue hat]
      have hmoved : (s.setWorker w (.replying msgid request)).HasActive :=
        hasActive_setWorker hw trivial
      exact hmoved

/-- In an undisturbed run every step leaves each queued message an active worker, a `Put` exactly when it is
`Attended`. -/
theorem WakeupInvariant.attended_iff (hi : WakeupInvariant s) (hquiet : Undisturbed a)
    (hs : step o s a = some s') :
    (s'.handler.mqQueue ≠ [] → s'.HasActive) ↔ Attended o s a := by
  cases a with
  | putEnter c =>
      obtain ⟨-, rfl⟩ := step_putEnter_eq_some.mp hs
      exact iff_of_true hi.attended trivial
  | put c id =>
      obtain ⟨-, rfl⟩ := step_put_eq_some.mp hs
      exact hi.put_iff
  | dequeue w =>
      obtain ⟨hw, rfl⟩ := step_dequeue_eq_some.mp hs
      exact iff_of_true (hi.dequeue_attended hw) trivial
  | reply w result =>
      obtain ⟨msgid, request, hw, rfl⟩ := step_reply_eq_some.mp hs
      refine iff_of_true (fun _ => hasActive_setWorker hw ?_) trivial
      rw [if_neg hquiet]
      trivial
  | excuse w result =>
      obtain ⟨⟨msgid, request, hw⟩, rfl⟩ := step_excuse_eq_some.mp hs
      refine iff_of_true (fun _ => hasActive_setWorker hw ?_) trivial
      rw [if_neg hquiet]
      trivial
  | testWorking w =>
      obtain ⟨hw, rfl⟩ := step_testWorking_eq_some.mp hs
      refine iff_of_true (fun _ => hasActive_setWorker hw ?_) trivial
      -- `mq_working` is set, so the worker goes on to test the queue.
      rw [if_pos hi.working]
      trivial
  | testQueue w =>
      obtain ⟨hw, rfl⟩ := step_testQueue_eq_some.mp hs
      refine iff_of_true (fun hne => hasActive_setWorker hw ?_) trivial
      -- The queue is not empty, so the worker goes round once more.
      rw [if_neg (show s.handler.mqQueue ≠ [] from hne)]
      trivial
  | leave w =>
      obtain ⟨hw, rfl⟩ := step_leave_eq_some.mp hs
      exact iff_of_true (fun hne => (hi.attended hne).setWorker hw id) trivial
  | finalize => exact absurd hquiet id

/-- An undisturbed step from a state with the `WakeupInvariant` leaves `mq_working` set. -/
theorem WakeupInvariant.working_step (hi : WakeupInvariant s) (hquiet : Undisturbed a)
    (hs : step o s a = some s') : s'.handler.mqWorking = true := by
  rw [← hi.working]
  cases a with
  | putEnter c =>
      obtain ⟨-, rfl⟩ := step_putEnter_eq_some.mp hs
      rfl
  | put c id =>
      obtain ⟨-, rfl⟩ := step_put_eq_some.mp hs
      exact mqWorking_putSection
  | dequeue w =>
      obtain ⟨-, rfl⟩ := step_dequeue_eq_some.mp hs
      exact mqWorking_dequeueSection
  | reply w result =>
      obtain ⟨msgid, request, -, rfl⟩ := step_reply_eq_some.mp hs
      rfl
  | excuse w result =>
      obtain ⟨-, rfl⟩ := step_excuse_eq_some.mp hs
      rfl
  | testWorking w =>
      obtain ⟨-, rfl⟩ := step_testWorking_eq_some.mp hs
      rfl
  | testQueue w =>
      obtain ⟨-, rfl⟩ := step_testQueue_eq_some.mp hs
      rfl
  | leave w =>
      obtain ⟨-, rfl⟩ := step_leave_eq_some.mp hs
      rfl
  | finalize => exact absurd hquiet id

/-- Undisturbed runs in which every `Put` is attended keep the `WakeupInvariant`. -/
theorem wakeupInvariant_of_reachable
    (h : (machine o).ReachableUnder (fun s a => Undisturbed a ∧ Attended o s a) s) :
    WakeupInvariant s :=
  h.invariant WakeupInvariant.init fun _ _ _ hi ha hs =>
    ⟨hi.working_step ha.1 hs, stored_step hi.stored hs, (hi.attended_iff ha.1 hs).mpr ha.2⟩

/-- In a `Quiescent` state no worker is active. -/
theorem State.Quiescent.not_hasActive (h : s.Quiescent) : ¬ s.HasActive := by
  rintro ⟨worker, hmem, hactive⟩
  rw [h.2 worker hmem] at hactive
  exact hactive

/-- In an undisturbed run in which every `Put` that starts no thread finds an active worker, every
queued message has an active worker, so the queue is empty once no call and no worker is in
progress. The condition is exact: a `Put` that violates it leaves its message without one. -/
theorem queue_empty_of_quiescent
    (h : (machine o).ReachableUnder (fun s a => Undisturbed a ∧ Attended o s a) s) :
    (s.Quiescent → s.handler.mqQueue = []) ∧
      (s.handler.mqQueue ≠ [] → s.HasActive) ∧
      ∀ a s', Undisturbed a → step o s a = some s' →
        ((s'.handler.mqQueue ≠ [] → s'.HasActive) ↔ Attended o s a) := by
  have hi := wakeupInvariant_of_reachable h
  refine ⟨fun hquiescent => ?_, hi.attended, fun a s' hquiet hs => hi.attended_iff hquiet hs⟩
  by_contra hne
  exact hquiescent.not_hasActive (hi.attended hne)

/-- One worker serves two messages, the second of which was queued while it replied to the first, and the queue is
empty then. -/
theorem queue_empty_of_quiescent_two :
    ∃ s, (machine ⟨1, 0⟩).exec State.init
        [.putEnter 0, .put 0 7, .dequeue 0, .putEnter 1, .put 1 8, .reply 0 .delivered,
          .testWorking 0, .testQueue 0, .dequeue 0, .reply 0 .delivered, .testWorking 0,
          .testQueue 0, .leave 0] = some s ∧
      (s.Quiescent → s.handler.mqQueue = []) := by
  have hr := (Machine.ReachableUnder.init (M := machine ⟨1, 0⟩)
    (G := fun s a => Undisturbed a ∧ Attended ⟨1, 0⟩ s a)).exec
    [.putEnter 0, .put 0 7, .dequeue 0, .putEnter 1, .put 1 8, .reply 0 .delivered,
      .testWorking 0, .testQueue 0, .dequeue 0, .reply 0 .delivered, .testWorking 0,
      .testQueue 0, .leave 0] (by decide) rfl
  exact ⟨_, rfl, (queue_empty_of_quiescent hr).1⟩

/-- A `Put` between the last test of the only worker and its decrement queues its message and starts
no thread: all calls and workers end and the message stays. -/
theorem not_queue_empty_of_late_put :
    ¬ ∀ o : Options, 1 ≤ o.limitTasks → o.limitTasks < 2 ^ 31 →
      ∀ s, (machine o).ReachableUnder (fun _ a => Undisturbed a) s →
        s.Quiescent → s.handler.mqQueue = [] := by
  intro hclaim
  have hr := (Machine.ReachableUnder.init (M := machine ⟨1, 0⟩) (G := fun _ a => Undisturbed a)).exec
    [.putEnter 0, .put 0 7, .dequeue 0, .reply 0 .delivered, .testWorking 0, .testQueue 0,
      .putEnter 1, .put 1 8, .leave 0] (by decide) rfl
  refine absurd (hclaim ⟨1, 0⟩ (by decide) (by decide) _ hr ⟨fun c => ?_, by decide⟩) (by decide)
  -- No call is inside `Put` any more, and all but the two have not begun.
  match c with
  | 0 => decide
  | 1 => decide
  | c + 2 => exact (show Call.idle ≠ .entered by decide)

end SyncSapi

end NavekFiber
