import NavekFiber.Main.RequestImpl
import NavekFiber.Mq.SyncSapiWorkers

/-! # How a thread of the script queue class ends

`ExecuteThread` answers the messages it takes inside a `try`; when the reply 200 throws, the `catch`
replies 503 on the same request object, whose connection has been closed by then. When that reply throws
too, the exception leaves the thread function before the decrement of `mq_workers`. Whatever the other
threads do, a thread takes no more than five steps for an accepted message, and it returns with one
decrement exactly when none of its 503 replies has thrown (`returnsOnce_iff`). -/

namespace NavekFiber

namespace SyncSapi

open SyncSAPIHandler

variable {o : Options} {s s' : State} {a : Action} {as : List Action} {w : WorkerId}

/-- The thread that takes a step; the others are steps of `Put` and of `Finalize`. -/
def Action.thread : Action → Option WorkerId
  | .dequeue w | .reply w _ | .excuse w _ | .testWorking w | .testQueue w | .leave w => some w
  | .putEnter _ | .put _ _ | .finalize => none

/-- A thread has no step left. -/
def Ended (o : Options) (s : State) (w : WorkerId) : Prop :=
  ∀ a : Action, a.thread = some w → step o s a = none

/-- A thread has returned, and it has decremented `mq_workers` once. -/
def ReturnsOnce (as : List Action) (s : State) (w : WorkerId) : Prop :=
  s.workers[w]? = some .finished ∧ as.count (.leave w) = 1

/-- How many steps a thread can take at most until it takes another message; one that has not been started
will start with its section. -/
def rank : Option Worker → ℕ
  | none | some .dequeuing => 2
  | some (.replying _ _) => 6
  | some (.excusing _ _) => 5
  | some .testingWorking => 4
  | some .testingQueue => 3
  | some .leaving => 1
  | some .finished | some .terminated => 0

/-- What a step of a thread does. -/
structure ThreadStep (s s' : State) (a : Action) (w : WorkerId) (old new : Worker) : Prop where
  /-- Where the thread stood. -/
  stood : s.workers[w]? = some old
  /-- The thread had not ended. -/
  live : old ≠ .finished ∧ old ≠ .terminated
  /-- The other threads stay where they are. -/
  workers : s'.workers = s.workers.set w new
  /-- No message is accepted. -/
  accepted : s'.accepted = s.accepted
  /-- No message is queued. -/
  queue_le : s'.handler.mqQueue.length ≤ s.handler.mqQueue.length
  /-- The thread comes closer to its end. -/
  rank_lt : 5 * s'.handler.mqQueue.length + rank (some new) < 5 * s.handler.mqQueue.length + rank (some old)
  /-- The thread returns by the decrement. -/
  finished : new = .finished ↔ a = .leave w
  /-- The thread ends by an exception when its 503 reply throws. -/
  terminated : new = .terminated ↔ a = .excuse w .runtimeException

/-- The section of `ExecuteThread` is a `ThreadStep`, as the queued ids are stored. -/
theorem threadStep_dequeue (hstored : ∀ x ∈ s.handler.mqQueue, x ∈ s.handler.mqMessages)
    (hw : s.workers[w]? = some .dequeuing) :
    ∃ new, ThreadStep s (s.afterDequeue w) (.dequeue w) w .dequeuing new := by
  cases hqueue : s.handler.mqQueue with
  | nil =>
      rw [afterDequeue_of_nil w hqueue]
      exact ⟨.leaving, hw, by simp, rfl, rfl, le_rfl, by simp [State.setWorker, rank], by simp, by simp⟩
  | cons msgid rest =>
      obtain ⟨request, hat⟩ := Option.isSome_iff_exists.mp
        (UnorderedMap.isSome_atKey.mpr (hstored msgid (by simp [hqueue])))
      rw [afterDequeue_of_cons w hqueue hat]
      refine ⟨.replying msgid request, hw, by simp, rfl, rfl, by simp [hqueue], ?_, by simp, by simp⟩
      -- The message has left the queue, and with it five steps.
      simp only [hqueue, List.length_cons, rank]
      omega

/-- A step that only moves its thread, to a point of a lower `rank`, is a `ThreadStep`. -/
theorem threadStep_setWorker {old new : Worker} (hw : s.workers[w]? = some old)
    (hlive : old ≠ .finished ∧ old ≠ .terminated) (hrank : rank (some new) < rank (some old))
    (hfinished : new = .finished ↔ a = .leave w)
    (hterminated : new = .terminated ↔ a = .excuse w .runtimeException) :
    ThreadStep s (s.setWorker w new) a w old new :=
  ⟨hw, hlive, rfl, rfl, le_rfl, Nat.add_lt_add_left hrank _, hfinished, hterminated⟩

/-- Every step of a thread is a `ThreadStep`. -/
theorem exists_threadStep (hstored : ∀ x ∈ s.handler.mqQueue, x ∈ s.handler.mqMessages)
    (ha : a.thread = some w) (hs : step o s a = some s') : ∃ old new, ThreadStep s s' a w old new := by
  cases a with
  | putEnter c => cases ha
  | put c id => cases ha
  | finalize => cases ha
  | dequeue w' =>
      obtain rfl : w' = w := Option.some.inj ha
      obtain ⟨hw, rfl⟩ := step_dequeue_eq_some.mp hs
      exact ⟨_, threadStep_dequeue hstored hw⟩
  | reply w' result =>
      obtain rfl : w' = w := Option.some.inj ha
      obtain ⟨msgid, request, hw, rfl⟩ := step_reply_eq_some.mp hs
      refine ⟨_, _, threadStep_setWorker hw (by simp) ?_ ?_ ?_⟩ <;> split <;> simp [rank]
  | excuse w' result =>
      obtain rfl : w' = w := Option.some.inj ha
      obtain ⟨⟨msgid, request, hw⟩, rfl⟩ := step_excuse_eq_some.mp hs
      refine ⟨_, _, threadStep_setWorker hw (by simp) ?_ ?_ ?_⟩ <;> split <;> simp [rank, *]
  | testWorking w' =>
      obtain rfl : w' = w := Option.some.inj ha
      obtain ⟨hw, rfl⟩ := step_testWorking_eq_some.mp hs
      refine ⟨_, _, threadStep_setWorker hw (by simp) ?_ ?_ ?_⟩ <;> split <;> simp [rank]
  | testQueue w' =>
      obtain rfl : w' = w := Option.some.inj ha
      obtain ⟨hw, rfl⟩ := step_testQueue_eq_some.mp hs
      refine ⟨_, _, threadStep_setWorker hw (by simp) ?_ ?_ ?_⟩ <;> split <;> simp [rank]
  | leave w' =>
      obtain rfl : w' = w := Option.some.inj ha
      obtain ⟨hw, rfl⟩ := step_leave_eq_some.mp hs
      exact ⟨.leaving, .finished, hw, by simp, rfl, rfl, le_rfl,
        by simp [State.afterLeave, State.setWorker, rank], by simp, by simp⟩

/-- The steps of `Put` and of `Finalize` start at most one thread, and queue what they accept. -/
theorem step_of_thread_eq_none (ha : a.thread = none) (hs : step o s a = some s') :
    (∀ w : WorkerId,
        s'.workers[w]? = s.workers[w]? ∨ s.workers[w]? = none ∧ s'.workers[w]? = some .dequeuing) ∧
      s'.handler.mqQueue.length + s.accepted.length = s.handler.mqQueue.length + s'.accepted.length := by
  cases a with
  | putEnter c =>
      obtain ⟨-, rfl⟩ := step_putEnter_eq_some.mp hs
      exact ⟨fun w => Or.inl rfl, rfl⟩
  | put c id =>
      obtain ⟨-, rfl⟩ := step_put_eq_some.mp hs
      by_cases haccepts : Accepts o s.handler id
      · rw [afterPut_of_accepts c haccepts]
        refine ⟨fun w => ?_, by simp only [List.length_append, List.length_singleton]; omega⟩
        by_cases hhires : Hires o s.handler
        · simp only [if_pos hhires]
          rcases lt_trichotomy w s.workers.length with hlt | rfl | hgt
          · exact Or.inl (List.getElem?_append_left hlt)
          · exact Or.inr ⟨List.getElem?_eq_none le_rfl, by simp⟩
          · refine Or.inl ?_
            rw [List.getElem?_eq_none (by simpa using hgt), List.getElem?_eq_none hgt.le]
        · exact Or.inl (by simp only [if_neg hhires])
      · rw [afterPut_of_not_accepts c haccepts]
        exact ⟨fun w => Or.inl rfl, rfl⟩
  | finalize =>
      obtain ⟨-, rfl⟩ := step_finalize_eq_some.mp hs
      exact ⟨fun w => Or.inl rfl, rfl⟩
  | dequeue w => cases ha
  | reply w result => cases ha
  | excuse w result => cases ha
  | testWorking w => cases ha
  | testQueue w => cases ha
  | leave w => cases ha

/-- What holds after every run, of the run and the state that it has led to. -/
structure ThreadInvariant (as : List Action) (s : State) : Prop where
  /-- Queued ids are keys of `mq_messages`. -/
  stored : ∀ x ∈ s.handler.mqQueue, x ∈ s.handler.mqMessages
  /-- The steps that a thread has taken, and can still take, are at most five for each accepted message, and
  the two of a thread that finds the queue empty. -/
  steps : ∀ w, as.countP (fun a => a.thread = some w) + (5 * s.handler.mqQueue.length + rank s.workers[w]?)
    ≤ 5 * s.accepted.length + 2
  /-- A thread that has returned has decremented `mq_workers` once, any other has not. -/
  leaves : ∀ w, as.count (.leave w) = if s.workers[w]? = some .finished then 1 else 0
  /-- An exception has left the threads whose 503 reply has thrown. -/
  threw : ∀ w, s.workers[w]? = some .terminated ↔ .excuse w .runtimeException ∈ as

/-- The `ThreadInvariant` holds at the start, when there are no threads. -/
theorem ThreadInvariant.init : ThreadInvariant [] State.init := by
  refine ⟨fun x hx => ?_, fun w => ?_, fun w => ?_, fun w => ?_⟩
  · simp [State.init] at hx
  · simp [State.init, rank]
  · simp [State.init]
  · simp [State.init]

/-- A step of a thread keeps the `ThreadInvariant`. -/
theorem ThreadInvariant.thread {old new : Worker} (hi : ThreadInvariant as s) (hstep : ThreadStep s s' a w old new)
    (ha : a.thread = some w) (hs : step o s a = some s') : ThreadInvariant (as ++ [a]) s' := by
  have hlt : w < s.workers.length := (List.getElem?_eq_some_iff.mp hstep.stood).1
  have hself : s'.workers[w]? = some new := by
    rw [hstep.workers]
    exact List.getElem?_set_self hlt
  have hother : ∀ w', w' ≠ w → s'.workers[w']? = s.workers[w']? := fun w' hne => by
    rw [hstep.workers, List.getElem?_set_ne hne.symm]
  have hthread : ∀ w', w' ≠ w → a.thread ≠ some w' := fun w' hne heq => hne (Option.some.inj (heq.symm.trans ha))
  have hqueue := hstep.queue_le
  have hrank := hstep.rank_lt
  refine ⟨stored_step hi.stored hs, fun w' => ?_, fun w' => ?_, fun w' => ?_⟩
  · have hsteps := hi.steps w'
    rw [List.countP_append, List.countP_singleton, hstep.accepted]
    by_cases hw : w' = w
    · subst hw
      rw [hstep.stood] at hsteps
      rw [hself]
      simp only [ha, decide_true, if_true]
      omega
    · rw [hother w' hw]
      simp only [hthread w' hw, decide_false, Bool.false_eq_true, if_false]
      omega
  · rw [List.count_append, hi.leaves w', List.count_singleton]
    by_cases hw : w' = w
    · subst hw
      rw [hstep.stood, hself, if_neg (by simpa using hstep.live.1)]
      simp [hstep.finished]
    · have hne : a ≠ .leave w' := fun heq => hthread w' hw (heq ▸ rfl)
      rw [hother w' hw]
      simp [hne]
  · rw [List.mem_append, List.mem_singleton, ← hi.threw w']
    by_cases hw : w' = w
    · subst hw
      rw [hstep.stood, hself]
      simp [hstep.live.2, hstep.terminated, eq_comm]
    · have hne : .excuse w' .runtimeException ≠ a := fun heq => hthread w' hw (heq ▸ rfl)
      rw [hother w' hw]
      simp [hne]

/-- A step of `Put` or of `Finalize` keeps the `ThreadInvariant`. -/
theorem ThreadInvariant.other (hi : ThreadInvariant as s) (ha : a.thread = none)
    (hs : step o s a = some s') : ThreadInvariant (as ++ [a]) s' := by
  obtain ⟨hworkers, hlength⟩ := step_of_thread_eq_none ha hs
  have hrank : ∀ w, rank s'.workers[w]? = rank s.workers[w]? := fun w => by
    rcases hworkers w with heq | ⟨hold, hnew⟩
    · rw [heq]
    · rw [hold, hnew]
      rfl
  -- No thread ends by such a step.
  have hended : ∀ w worker, worker ≠ Worker.dequeuing →
      (s'.workers[w]? = some worker ↔ s.workers[w]? = some worker) := fun w worker hne => by
    rcases hworkers w with heq | ⟨hold, hnew⟩
    · rw [heq]
    · simp [hold, hnew, hne.symm]
  refine ⟨stored_step hi.stored hs, fun w => ?_, fun w => ?_, fun w => ?_⟩
  · have hsteps := hi.steps w
    rw [List.countP_append, List.countP_singleton, hrank w]
    simp only [ha, reduceCtorEq, decide_false, Bool.false_eq_true, if_false]
    omega
  · have hne : a ≠ .leave w := fun heq => by simp [heq, Action.thread] at ha
    rw [List.count_append, hi.leaves w, List.count_singleton]
    simp [hne, hended w .finished]
  · have hne : .excuse w .runtimeException ≠ a := fun heq => by simp [← heq, Action.thread] at ha
    rw [List.mem_append, List.mem_singleton, ← hi.threw w, hended w .terminated (by simp)]
    simp [hne]

/-- The `ThreadInvariant` holds after every run. -/
theorem threadInvariant_of_exec (h : (machine o).exec State.init as = some s) : ThreadInvariant as s := by
  refine Machine.exec_history (fun past s a s' hi hs => ?_) as ThreadInvariant.init h
  cases ha : a.thread with
  | none => exact hi.other ha hs
  | some w =>
      obtain ⟨old, new, hstep⟩ := exists_threadStep hi.stored ha hs
      exact hi.thread hstep ha hs

/-- A thread that was started has `Ended` exactly when it has returned or an exception has left it. -/
theorem ended_iff {worker : Worker} (hw : s.workers[w]? = some worker) :
    Ended o s w ↔ worker = .finished ∨ worker = .terminated := by
  constructor
  · intro h
    cases worker with
    | dequeuing => simpa [step, hw] using h (.dequeue w) rfl
    | replying msgid request => simpa [step, hw] using h (.reply w .delivered) rfl
    | excusing msgid request => simpa [step, hw] using h (.excuse w .delivered) rfl
    | testingWorking => simpa [step, hw] using h (.testWorking w) rfl
    | testingQueue => simpa [step, hw] using h (.testQueue w) rfl
    | leaving => simpa [step, hw] using h (.leave w) rfl
    | finished => exact Or.inl rfl
    | terminated => exact Or.inr rfl
  · intro h a ha
    cases a with
    | putEnter c => cases ha
    | put c id => cases ha
    | finalize => cases ha
    | dequeue w' | reply w' result | excuse w' result | testWorking w' | testQueue w' | leave w' =>
        obtain rfl : w' = w := Option.some.inj ha
        rcases h with rfl | rfl <;> simp [step, hw]

/-- In every run each thread comes to its end, with at most five steps for each accepted message; and when
it has, it has returned and decremented `mq_workers` once exactly when no 503 reply of its own has thrown. -/
theorem returnsOnce_iff (hrun : (machine o).exec State.init as = some s) (hw : w < s.workers.length) :
    as.countP (fun a => a.thread = some w) ≤ 5 * s.accepted.length + 2 ∧
      (Ended o s w → (ReturnsOnce as s w ↔ .excuse w .runtimeException ∉ as)) := by
  have hi := threadInvariant_of_exec hrun
  obtain ⟨worker, hworker⟩ : ∃ worker, s.workers[w]? = some worker :=
    ⟨_, List.getElem?_eq_getElem hw⟩
  refine ⟨by have := hi.steps w; omega, fun hended => ?_⟩
  rw [← hi.threw w, ReturnsOnce, hi.leaves w, hworker]
  rcases (ended_iff hworker).mp hended with rfl | rfl
  · simp
  · simp

/-- A thread takes two messages; the reply to the first one throws, the 503 does not. -/
def excusedRun : List Action :=
  [.putEnter 0, .put 0 7, .putEnter 1, .put 1 8, .dequeue 0, .reply 0 .runtimeException,
    .excuse 0 .delivered, .testWorking 0, .testQueue 0, .dequeue 0, .reply 0 .delivered, .testWorking 0,
    .testQueue 0, .leave 0]

/-- After `excusedRun` the thread has returned, and has decremented `mq_workers` once. -/
theorem returnsOnce_iff_excused :
    ∃ s, (machine ⟨1, 0⟩).exec State.init excusedRun = some s ∧ ReturnsOnce excusedRun s 0 := by
  obtain ⟨s, hrun⟩ : ∃ s, (machine ⟨1, 0⟩).exec State.init excusedRun = some s := ⟨_, rfl⟩
  have hworkers : s.workers = [.finished] := by
    obtain rfl := Option.some.inj hrun
    rfl
  have hended : Ended ⟨1, 0⟩ s 0 := (ended_iff (by rw [hworkers]; rfl)).mpr (Or.inl rfl)
  exact ⟨s, hrun, ((returnsOnce_iff hrun (by simp [hworkers])).2 hended).mpr (by decide)⟩

/-- When the client of the only message is gone, the second reply throws like the first, and the exception leaves the
thread. -/
theorem not_returnsOnce_of_clientGone :
    ¬ ∀ (o : Options) (as : List Action) (s : State) (w : WorkerId),
      (machine o).exec State.init as = some s → w < s.workers.length → Ended o s w → ReturnsOnce as s w := by
  intro h
  have hreturns := h ⟨1, 0⟩ [.putEnter 0, .put 0 7, .dequeue 0, .reply 0 .runtimeException,
    .excuse 0 .runtimeException] _ 0 rfl (by decide) ((ended_iff rfl).mpr (Or.inr rfl))
  exact absurd hreturns.2 (by decide)

end SyncSapi

open Proto

namespace SyncSAPIHandler

/-! ### The replies to a message -/

/-- What a call of `ReplyWithCode` does not decide. -/
structure ReplyContext where
  /-- `QueryInterface` finds an `IRequest`. -/
  isRequest : Bool
  /-- The length of the queue when it is read for `X-MQ-QUEUE`. -/
  queueLength : ℕ
  /-- The order of iteration of the header map. -/
  order : List (List UInt8 × List UInt8) → List (List UInt8 × List UInt8)

/-- The arguments that `ReplyWithCode` calls `Reply` with; the content type is its default. -/
def replyCall (ctx : ReplyContext) (code : ℕ) (message : Option (List UInt8)) (body : List UInt8)
    (headers : List (List UInt8 × List UInt8)) : ReplyCall :=
  ⟨code, message, some (body ++ [0]), body.length,
    ctx.order (headers ++ [(bytes "X-MQ-CLASS", bytes "Sync.MQ.SAPI"),
      (bytes "X-MQ-QUEUE", numberText ctx.queueLength), (bytes "Content-Type", bytes "application/json")]),
    true⟩

/-- `ReplyWithCode` on a request object, and how it ends. -/
def replyWithCode (env : Environment) (ctx : ReplyContext) (self : RequestImpl) (call : ReplyCall) :
    ReplyResult × RequestImpl :=
  if ctx.isRequest then
    match self.reply env call with
    | (.ok _, self) => (.delivered, self)
    | (.error _, self) => (.runtimeException, self)
  else (.notARequest, self)

/-- The reply in the `try` of `ExecuteThread`. -/
def executeCall (ctx : ReplyContext) : ReplyCall :=
  replyCall ctx 200 none (bytes "{}") [(bytes "XSample-HEADER", bytes "909")]

/-- The reply in the `catch (...)` of `ExecuteThread`. -/
def excuseCall (ctx : ReplyContext) : ReplyCall :=
  replyCall ctx 503 (some (bytes "SAPI Endpoint error")) [] []

/-- The `try` and the `catch` of `ExecuteThread`: how the reply 200 ends, and how the reply 503 does when
there is one. -/
def execute (env : Environment) (ctx : ReplyContext) (self : RequestImpl) :
    ReplyResult × Option ReplyResult × RequestImpl :=
  match replyWithCode env ctx self (executeCall ctx) with
  | (.runtimeException, self) =>
      let (result, self) := replyWithCode env ctx self (excuseCall ctx)
      (.runtimeException, some result, self)
  | (result, self) => (result, none, self)

variable {env : Environment} {ctx : ReplyContext} {self : RequestImpl} {call : ReplyCall}

/-- `ReplyWithCode` throws exactly when there is an `IRequest` and its reply is not sent completely. -/
theorem fst_replyWithCode_eq_runtimeException_iff :
    (replyWithCode env ctx self call).1 = .runtimeException ↔
      ctx.isRequest = true ∧ ¬ HttpImpl.Delivers env self.request call := by
  rw [replyWithCode]
  cases hrequest : ctx.isRequest with
  | false => simp
  | true =>
      simp only [if_true, true_and]
      rcases RequestImpl.fst_reply_cases env self call with ⟨hfst, hdelivers⟩ | ⟨⟨what, hfst⟩, hdelivers⟩
      · generalize self.reply env call = replied at hfst
        obtain ⟨result, left⟩ := replied
        obtain rfl : result = .ok true := hfst
        simpa using hdelivers
      · generalize self.reply env call = replied at hfst
        obtain ⟨result, left⟩ := replied
        obtain rfl : result = .error (.runtimeException what) := hfst
        simpa using hdelivers

/-- Both replies to a message throw when neither of them is sent completely; the second one is sent to the
descriptor zero, as the first has closed the connection. -/
theorem execute_throws_iff :
    (execute env ctx self).2.1 = some .runtimeException ↔
      ctx.isRequest = true ∧ ¬ HttpImpl.Delivers env self.request (executeCall ctx) ∧
        ¬ HttpImpl.Delivers env (self.request.reply env (executeCall ctx)).2 (excuseCall ctx) := by
  have hfirst : (replyWithCode env ctx self (executeCall ctx)).1 = .runtimeException ↔ _ :=
    fst_replyWithCode_eq_runtimeException_iff
  have hleft : ctx.isRequest = true →
      (replyWithCode env ctx self (executeCall ctx)).2.request =
        (self.request.reply env (executeCall ctx)).2 := by
    intro hrequest
    rw [← RequestImpl.request_reply, replyWithCode, if_pos hrequest]
    split <;> rename_i h <;> rw [h]
  rw [execute]
  generalize replyWithCode env ctx self (executeCall ctx) = replied at hfirst hleft
  obtain ⟨result, left⟩ := replied
  cases result with
  | delivered =>
      simp only [reduceCtorEq, false_iff, not_and, not_not] at hfirst ⊢
      exact fun hrequest hnot => absurd (hfirst hrequest) hnot
  | notARequest =>
      simp only [reduceCtorEq, false_iff, not_and, not_not] at hfirst ⊢
      exact fun hrequest hnot => absurd (hfirst hrequest) hnot
  | runtimeException =>
      obtain ⟨hrequest, hnot⟩ := hfirst.mp rfl
      simp only [Option.some.injEq, fst_replyWithCode_eq_runtimeException_iff, hrequest, hnot,
        not_false_eq_true, true_and]
      rw [← hleft hrequest]

/-- When the reply 200 has not been delivered, the reply 503 uses no descriptor but zero. -/
theorem uses_excuse (h : ¬ HttpImpl.Delivers env self.request (executeCall ctx)) :
    HttpImpl.Uses 0 ((self.request.reply env (executeCall ctx)).2.composed env (excuseCall ctx))
      ((self.request.reply env (executeCall ctx)).2.reply env (excuseCall ctx)).2 := by
  have huses := HttpImpl.uses_reply env (self.request.reply env (executeCall ctx)).2 (excuseCall ctx)
  rwa [HttpImpl.handle_reply_of_not_delivers h] at huses

end SyncSAPIHandler

namespace SyncSapi

open SyncSAPIHandler

variable {o : Options} {s : State} {w : WorkerId} {msgid : MsgId} {request : IRequest}

/-- The steps of a thread in the `try` and the `catch` of `ExecuteThread`. -/
def executeActions (w : WorkerId) : ReplyResult × Option ReplyResult × RequestImpl → List Action
  | (result, none, _) => [.reply w result]
  | (result, some excused, _) => [.reply w result, .excuse w excused]

/-- The `try` and the `catch` of `ExecuteThread` are steps of the machine: the thread goes on to its loop condition,
unless the second reply throws too. -/
theorem exec_execute (env : Environment) (ctx : SyncSAPIHandler.ReplyContext) (self : RequestImpl)
    (hw : s.workers[w]? = some (.replying msgid request)) :
    ∃ s', (machine o).exec s (executeActions w (execute env ctx self)) = some s' ∧
      s'.workers = s.workers.set w
        (if (execute env ctx self).2.1 = some .runtimeException then .terminated else .testingWorking) := by
  have hlt : w < s.workers.length := (List.getElem?_eq_some_iff.mp hw).1
  have hreply : ∀ result, (machine o).step s (.reply w result) =
      some (s.afterReply w msgid request result) := by
    intro result
    show step o s (.reply w result) = _
    exact step_reply_eq_some.mpr ⟨msgid, request, hw, rfl⟩
  rw [execute]
  generalize replyWithCode env ctx self (executeCall ctx) = replied
  obtain ⟨result, left⟩ := replied
  cases result with
  | delivered => exact ⟨_, by rw [executeActions, Machine.exec, hreply]; rfl, rfl⟩
  | notARequest => exact ⟨_, by rw [executeActions, Machine.exec, hreply]; rfl, rfl⟩
  | runtimeException =>
      have hexcusing : (s.afterReply w msgid request .runtimeException).workers[w]? =
          some (.excusing msgid request) := List.getElem?_set_self hlt
      have hexcuse : ∀ excused, (machine o).step (s.afterReply w msgid request .runtimeException)
          (.excuse w excused) = some ((s.afterReply w msgid request .runtimeException).afterExcuse w excused) := by
        intro excused
        show step o _ (.excuse w excused) = _
        exact step_excuse_eq_some.mpr ⟨⟨msgid, request, hexcusing⟩, rfl⟩
      refine ⟨_, by
        rw [executeActions, Machine.exec, hreply, Option.bind_some, Machine.exec, hexcuse]; rfl, ?_⟩
      simp [State.afterReply, State.afterExcuse, State.setWorker]

end SyncSapi

end NavekFiber
