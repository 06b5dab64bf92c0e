import NavekFiber.Machine.Simulation
import NavekFiber.Machine.WorkQueue
import NavekFiber.Mq.SyncSapiMessages

/-! # What becomes of a message of the script queue class

`SyncSAPIHandler` is a work queue with its `ExecuteThread`s as the agents: `Put` accepts a message, the
section of a thread takes the first one, and the last reply that the thread tries for it, the reply 200 or
the reply 503 of its `catch (...)`, finishes it. As no key ever leaves `mq_messages`, no id is accepted
twice, whatever ids the requests come with; so each accepted message is queued, or in the hands of one
thread, or has been finished by one thread, once. -/

namespace NavekFiber

namespace SyncSapi

open SyncSAPIHandler WorkQueue

variable {o : Options} {s s' : State} {a : Action} {w : WorkerId}

/-- The work queue that the handler is: the queued ids and those in the hands of the threads. -/
def State.workQueue (s : State) : WorkQueue WorkerId MsgId := ⟨s.handler.mqQueue, s.held⟩

/-- What a step of the handler shows: what it does to the messages, as events of a work queue. -/
def shows (o : Options) (s : State) : Action → List (Event WorkerId MsgId)
  | .put _ id => if Accepts o s.handler id then [.accept id] else []
  | .dequeue w => (s.handler.mqQueue.head?.map (Event.take w)).toList
  | .reply w result =>
      if result = .runtimeException then [] else ((s.held w).map (Event.finish w)).toList
  | .excuse w _ => ((s.held w).map (Event.finish w)).toList
  | _ => []

/-- A thread that lets go of its message takes a step of the work queue: it finishes what it has in its hands. -/
theorem exec_finish {old worker : Worker} {x : MsgId} (hw : s.workers[w]? = some old)
    (hold : old.holding = some x) (hnew : worker.holding = none) :
    (WorkQueue.machine WorkerId MsgId).exec s.workQueue ((s.held w).map (Event.finish w)).toList
      = some (s.setWorker w worker).workQueue := by
  have hheld : s.held w = some x := by rw [held_of_getElem? hw, hold]
  rw [State.workQueue, State.workQueue, held_setWorker hw, hnew]
  simp [hheld, Machine.exec, WorkQueue.machine, WorkQueue.step, State.setWorker]

/-- A step that only moves a thread, one that keeps what it has in its hands, leaves the work queue as it is. -/
theorem workQueue_setWorker (worker : Worker) {old : Worker} (hw : s.workers[w]? = some old)
    (hsame : worker.holding = old.holding) : (s.setWorker w worker).workQueue = s.workQueue := by
  rw [State.workQueue, held_setWorker_of_same hw hsame]
  rfl

/-- The work queue of a state is made of what is queued and what is `held`. -/
theorem workQueue_eq {waiting : List MsgId} {hands : WorkerId → Option MsgId}
    (hqueue : s.handler.mqQueue = waiting) (hheld : s.held = hands) : s.workQueue = ⟨waiting, hands⟩ := by
  rw [State.workQueue, hqueue, hheld]

/-- What a step of the handler shows are steps of its work queue, when the queued ids are stored. -/
theorem workQueue_step (hstored : ∀ x ∈ s.handler.mqQueue, x ∈ s.handler.mqMessages)
    (hs : step o s a = some s') :
    (WorkQueue.machine WorkerId MsgId).exec s.workQueue (shows o s a) = some s'.workQueue := by
  cases a with
  | putEnter c =>
      obtain ⟨-, rfl⟩ := step_putEnter_eq_some.mp hs
      rfl
  | put c id =>
      obtain ⟨-, rfl⟩ := step_put_eq_some.mp hs
      by_cases haccepts : Accepts o s.handler id
      · have hafter : (s.afterPut o c id).workQueue = ⟨s.handler.mqQueue ++ [id], s.held⟩ := by
          rw [afterPut_of_accepts c haccepts]
          refine workQueue_eq rfl ?_
          -- A thread that is started for the message comes with empty hands.
          by_cases hhires : Hires o s.handler
          · exact held_append_dequeuing (if_pos hhires)
          · exact held_congr (if_neg hhires)
        rw [hafter, shows, if_pos haccepts]
        simp [Machine.exec, WorkQueue.machine, WorkQueue.step, State.workQueue]
      · rw [afterPut_of_not_accepts c haccepts, shows, if_neg haccepts]
        rfl
  | dequeue w =>
      obtain ⟨hw, rfl⟩ := step_dequeue_eq_some.mp hs
      cases hqueue : s.handler.mqQueue with
      | nil =>
          have hsame := workQueue_setWorker .leaving hw rfl
          rw [afterDequeue_of_nil w hqueue, hsame, shows, hqueue]
          rfl
      | cons msgid rest =>
          obtain ⟨request, hat⟩ := Option.isSome_iff_exists.mp
            (UnorderedMap.isSome_atKey.mpr (hstored msgid (by simp [hqueue])))
          have hempty : s.held w = none := held_of_getElem? hw
          have hafter : (s.afterDequeue w).workQueue = ⟨rest, Function.update s.held w (some msgid)⟩ := by
            rw [afterDequeue_of_cons w hqueue hat]
            exact workQueue_eq rfl ((held_congr rfl).trans (held_setWorker hw))
          rw [hafter, shows, hqueue]
          simp [hqueue, hempty, Machine.exec, WorkQueue.machine, WorkQueue.step, State.workQueue]
  | reply w result =>
      obtain ⟨msgid, request, hw, rfl⟩ := step_reply_eq_some.mp hs
      by_cases hthrows : result = .runtimeException
      · have hsame := workQueue_setWorker (.excusing msgid request) hw rfl
        rw [State.afterReply, if_pos hthrows, hsame, shows, if_pos hthrows]
        rfl
      · rw [State.afterReply, if_neg hthrows, shows, if_neg hthrows]
        exact exec_finish hw rfl rfl
  | excuse w result =>
      obtain ⟨⟨msgid, request, hw⟩, rfl⟩ := step_excuse_eq_some.mp hs
      refine exec_finish hw rfl ?_
      split <;> rfl
  | testWorking w =>
      obtain ⟨hw, rfl⟩ := step_testWorking_eq_some.mp hs
      rw [State.afterTestWorking, workQueue_setWorker _ hw (by split <;> rfl)]
      rfl
  | testQueue w =>
      obtain ⟨hw, rfl⟩ := step_testQueue_eq_some.mp hs
      rw [State.afterTestQueue, workQueue_setWorker _ hw (by split <;> rfl)]
      rfl
  | leave w =>
      obtain ⟨hw, rfl⟩ := step_leave_eq_some.mp hs
      have hafter : (s.afterLeave w).workQueue = s.workQueue :=
        workQueue_eq rfl ((held_congr rfl).trans (held_setWorker_of_same hw rfl))
      rw [hafter]
      rfl
  | finalize =>
      obtain ⟨-, rfl⟩ := step_finalize_eq_some.mp hs
      rfl

/-- Every queued id is a key of `mq_messages`. -/
def State.QueueStored (s : State) : Prop := ∀ x ∈ s.handler.mqQueue, x ∈ s.handler.mqMessages

/-- The handler refines the work queue, in every run. -/
def refinesWorkQueue (o : Options) :
    Machine.Refinement (machine o) (WorkQueue.machine WorkerId MsgId) fun _ _ => True where
  Rel s q := s.QueueStored ∧ s.workQueue = q
  shows := shows o
  init := ⟨fun x hx => absurd hx (by simp [machine, State.init]), rfl⟩
  step := by
    rintro s q a s' ⟨hstored, rfl⟩ - hs
    exact ⟨_, workQueue_step hstored hs, stored_step hstored hs, rfl⟩

/-- The ids accepted so far are different from each other, and all are keys of `mq_messages`. -/
structure AcceptedInvariant (s : State) : Prop where
  /-- No id was accepted twice. -/
  nodup : s.accepted.Nodup
  /-- No key has left `mq_messages`. -/
  stored : ∀ x ∈ s.accepted, x ∈ s.handler.mqMessages

/-- What a step does to the accepted ids and the keys of `mq_messages`: nothing, or it accepts an id that was
no key and makes it one. -/
theorem accepted_cases (hs : step o s a = some s') :
    (accepts (shows o s a) = [] ∧ s'.accepted = s.accepted ∧
        s'.handler.mqMessages = s.handler.mqMessages) ∨
      ∃ id request, id ∉ s.handler.mqMessages ∧ accepts (shows o s a) = [id] ∧
        s'.accepted = s.accepted ++ [id] ∧
        s'.handler.mqMessages = s.handler.mqMessages.insert id request := by
  cases a with
  | putEnter c =>
      obtain ⟨-, rfl⟩ := step_putEnter_eq_some.mp hs
      exact Or.inl ⟨rfl, rfl, rfl⟩
  | put c id =>
      obtain ⟨-, rfl⟩ := step_put_eq_some.mp hs
      by_cases haccepts : Accepts o s.handler id
      · rw [afterPut_of_accepts c haccepts, shows, if_pos haccepts]
        exact Or.inr ⟨id, ⟨s.puts.length, id⟩, haccepts.2, rfl, rfl, rfl⟩
      · rw [afterPut_of_not_accepts c haccepts, shows, if_neg haccepts]
        exact Or.inl ⟨rfl, rfl, rfl⟩
  | dequeue w =>
      obtain ⟨hw, rfl⟩ := step_dequeue_eq_some.mp hs
      refine Or.inl ⟨?_, rfl, by simp [State.afterDequeue]⟩
      cases hqueue : s.handler.mqQueue <;> simp [shows, hqueue]
  | reply w result =>
      obtain ⟨msgid, request, hw, rfl⟩ := step_reply_eq_some.mp hs
      refine Or.inl ⟨?_, rfl, rfl⟩
      rw [shows, held_of_getElem? hw]
      split <;> simp [Worker.holding]
  | excuse w result =>
      obtain ⟨⟨msgid, request, hw⟩, rfl⟩ := step_excuse_eq_some.mp hs
      refine Or.inl ⟨?_, rfl, rfl⟩
      rw [shows, held_of_getElem? hw]
      simp [Worker.holding]
  | testWorking w =>
      obtain ⟨-, rfl⟩ := step_testWorking_eq_some.mp hs
      exact Or.inl ⟨rfl, rfl, rfl⟩
  | testQueue w =>
      obtain ⟨-, rfl⟩ := step_testQueue_eq_some.mp hs
      exact Or.inl ⟨rfl, rfl, rfl⟩
  | leave w =>
      obtain ⟨-, rfl⟩ := step_leave_eq_some.mp hs
      exact Or.inl ⟨rfl, rfl, rfl⟩
  | finalize =>
      obtain ⟨-, rfl⟩ := step_finalize_eq_some.mp hs
      exact Or.inl ⟨rfl, rfl, rfl⟩

/-- Every step keeps the `AcceptedInvariant`: what is accepted was no key of `mq_messages`. -/
theorem AcceptedInvariant.preserved (hi : AcceptedInvariant s) (hs : step o s a = some s') :
    AcceptedInvariant s' := by
  rcases accepted_cases hs with ⟨-, haccepted, hkeys⟩ | ⟨id, request, hnew, -, haccepted, hkeys⟩
  · exact ⟨haccepted ▸ hi.nodup, by rw [haccepted, hkeys]; exact hi.stored⟩
  · refine ⟨?_, fun x hx => ?_⟩
    · rw [haccepted]
      refine List.nodup_append'.mpr ⟨hi.nodup, List.nodup_singleton id, ?_⟩
      rw [List.disjoint_singleton]
      exact fun hold => hnew (hi.stored id hold)
    · rw [haccepted] at hx
      rw [hkeys, AList.mem_insert]
      rcases List.mem_append.mp hx with hold | hid
      · exact Or.inr (hi.stored x hold)
      · exact Or.inl (List.mem_singleton.mp hid)

/-- The messages accepted, taken and finished in a run, event by event. -/
def history (o : Options) (as : List Action) : List (Event WorkerId MsgId) :=
  (machine o).shown (shows o) State.init as

/-- After every run of the handler, whatever the interleaving, whatever the ids of the requests and whatever
becomes of the replies: no id has been accepted twice; the accepted ids, in order, are those the threads
took and then `mq_queue`; a thread finishes the messages that it took one after the other, in order, and one
that has returned has finished all of them; and each accepted message is queued and untaken, or in the
hands of the one thread that took it, or has been finished once, by that thread. A message is finished by the
last reply that is tried for it, the 200 or, when that has thrown, the 503, also when this reply throws in
turn. -/
theorem message_fate_of_exec {as : List Action} (hexec : (machine o).exec State.init as = some s) :
    s.accepted.Nodup ∧ s.accepted = takes (history o as) ++ s.handler.mqQueue ∧
      (∀ w, takesBy w (history o as) = finishesBy w (history o as) ++ (s.held w).toList) ∧
      ∀ x ∈ s.accepted, Fate (history o as) s.workQueue x := by
  have hlog (s : State) (a : Action) (s' : State) (hs : (machine o).step s a = some s') :
      s'.accepted = s.accepted ++ accepts (shows o s a) := by
    rcases accepted_cases hs with ⟨hshown, haccepted, -⟩ | ⟨id, request, -, hshown, haccepted, -⟩
    · rw [haccepted, hshown, List.append_nil]
    · rw [haccepted, hshown]
  have haccepted : accepts (history o as) = s.accepted :=
    (Machine.log_eq_of_exec (M := machine o) hlog as hexec).symm
  obtain ⟨q, hq, -, rfl⟩ := (refinesWorkQueue o).exec as (refinesWorkQueue o).init
    (Machine.meets_true as) hexec
  have horderly : Orderly (history o as) s.workQueue := orderly_of_exec hq
  have hinit : AcceptedInvariant State.init := ⟨List.nodup_nil, fun x hx => absurd hx (by simp [State.init])⟩
  have hnodup := (Machine.exec_invariant (M := machine o)
    (fun _ _ _ hi hs => AcceptedInvariant.preserved hi hs) as hinit hexec).nodup
  refine ⟨hnodup, ?_, horderly.2, fun x hx => ?_⟩
  · rw [← haccepted]
    exact horderly.1
  · rw [← haccepted] at hnodup hx
    exact fate_of_orderly horderly hnodup hx

/-- Of two messages one has been answered and the other one is in the hands of the thread; a `Put` with the id of the
answered one is refused. -/
theorem message_fate_of_exec_two :
    ∃ s, (machine ⟨1, 0⟩).exec State.init
        [.putEnter 0, .put 0 7, .putEnter 1, .put 1 8, .dequeue 0, .reply 0 .delivered, .testWorking 0,
          .testQueue 0, .dequeue 0, .putEnter 2, .put 2 7] = some s ∧
      s.accepted = [7, 8] ∧ s.held 0 = some 8 ∧
      ∀ x ∈ [7, 8], Fate [.accept 7, .accept 8, .take 0 7, .finish 0 7, .take 0 8] s.workQueue x := by
  have hexec : (machine ⟨1, 0⟩).exec State.init
      [.putEnter 0, .put 0 7, .putEnter 1, .put 1 8, .dequeue 0, .reply 0 .delivered, .testWorking 0,
        .testQueue 0, .dequeue 0, .putEnter 2, .put 2 7] = some _ := rfl
  exact ⟨_, hexec, rfl, rfl, (message_fate_of_exec hexec).2.2.2⟩

end SyncSapi

end NavekFiber
