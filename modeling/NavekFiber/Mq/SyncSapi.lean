import Mathlib.Logic.Function.Basic
import NavekFiber.Machine.Run
import NavekFiber.Machine.UnorderedMap
import NavekFiber.Mq.Interfaces

/-! # The script queue class `SyncSAPIHandler`

`Put` stores a message and starts a detached `ExecuteThread` while fewer than `LimitTasks` of them
run; a worker takes messages from the front of the queue until it finds the queue empty. The mutex
`mq_sync` guards the section of `Put` and the section that takes a message. The tests of the loop
condition and the decrement of `mq_workers` run without it.

* `SyncSAPIHandler`, `dequeueSection`, `putSection`: the state and the sections.
* `SyncSapi.machine`: any number of concurrent `Put` calls and the workers they start. The loop
  condition `mq_working && !mq_queue.empty()` is two steps, as the two reads are.

`Dom::Interface` lies outside the repository. `Put` asks a request for its id after moving it into
the map, so a moved-from interface is taken to keep its object; a value taken out of the map is never
looked up again, so what `ExecuteThread` leaves in its place does not matter. `WorkingThread` is
started nowhere and is left out.

An exception that leaves `ExecuteThread` ends the process. The machine is not stopped by it: the steps that
other threads and calls take after one is `terminated` are runs in addition to those of the program, and what
is shown for all runs is shown for the program's. -/

namespace NavekFiber

/-- The part of `SyncSAPIHandler` that its threads share. -/
structure SyncSAPIHandler where
  /-- `mq_working`. -/
  mqWorking : Bool
  /-- `mq_workers`, an `atomic_int32_t`. -/
  mqWorkers : Int32
  /-- `mq_queue`, the front first. -/
  mqQueue : List MsgId
  /-- `mq_messages`. -/
  mqMessages : UnorderedMap MsgId IRequest

namespace SyncSAPIHandler

/-- The limits of `mq_options` that `Put` reads. -/
structure Options where
  /-- `mq_options.LimitTasks`, no limit when zero. -/
  limitTasks : ℕ
  /-- `mq_options.LimitSize`, no limit when zero. -/
  limitSize : ℕ

/-- How the section of `ExecuteThread` ends. -/
inductive DequeueResult
  /-- `mq_queue` was empty and the loop is left. -/
  | empty
  /-- The front message was taken. -/
  | message (msgid : MsgId) (request : IRequest)
  /-- `mq_messages.at(msgid)` threw `std::out_of_range`. -/
  | outOfRange
  deriving DecidableEq, Repr

/-- The section of `ExecuteThread`: it takes the front message. -/
def dequeueSection (h : SyncSAPIHandler) : SyncSAPIHandler × DequeueResult :=
  match h.mqQueue with
  | [] => (h, .empty)
  | msgid :: rest =>
      let h' := { h with mqQueue := rest }
      match h.mqMessages.atKey msgid with
      | some request => (h', .message msgid request)
      | none => (h', .outOfRange)

/-- How the section of `Put` ends. -/
inductive PutResult
  /-- The message is queued and a new thread was started. -/
  | started
  /-- The message is queued for the threads that run already. -/
  | queued
  /-- The message is refused with 507. -/
  | refused
  deriving DecidableEq, Repr

/-- `Put` starts a thread: `!LimitTasks || mq_workers < (int32_t)LimitTasks`. -/
def Hires (o : Options) (h : SyncSAPIHandler) : Prop :=
  o.limitTasks = 0 ∨ h.mqWorkers < Int32.ofNat o.limitTasks

instance (o : Options) (h : SyncSAPIHandler) : Decidable (Hires o h) :=
  inferInstanceAs (Decidable (_ ∨ _))

/-- The section of `Put`. -/
def putSection (o : Options) (h : SyncSAPIHandler) (request : IRequest) :
    SyncSAPIHandler × PutResult :=
  if o.limitSize = 0 ∨ h.mqQueue.length < o.limitSize then
    let stored := h.mqMessages.emplace request.msgId request
    if stored.2 then
      let h' := { h with mqMessages := stored.1, mqQueue := h.mqQueue ++ [request.msgId] }
      if Hires o h then ({ h' with mqWorkers := h.mqWorkers + 1 }, .started) else (h', .queued)
    else ({ h with mqMessages := stored.1 }, .refused)
  else (h, .refused)

/-- The queue can take the message: there is room and the id is new. -/
def Accepts (o : Options) (h : SyncSAPIHandler) (id : MsgId) : Prop :=
  (o.limitSize = 0 ∨ h.mqQueue.length < o.limitSize) ∧ id ∉ h.mqMessages

instance (o : Options) (h : SyncSAPIHandler) (id : MsgId) : Decidable (Accepts o h id) :=
  inferInstanceAs (Decidable (_ ∧ _))

section Sections

variable {o : Options} {h : SyncSAPIHandler} {request : IRequest}

/-- The section of `Put` leaves the handler alone when it does not accept the message. -/
theorem putSection_of_not_accepts (request : IRequest) (ha : ¬ Accepts o h request.msgId) :
    h.putSection o request = (h, .refused) := by
  by_cases hroom : o.limitSize = 0 ∨ h.mqQueue.length < o.limitSize
  · have hmem : request.msgId ∈ h.mqMessages := by
      by_contra hnew
      exact ha ⟨hroom, hnew⟩
    simp [putSection, hroom, UnorderedMap.emplace_of_mem hmem]
  · rw [putSection, if_neg hroom]

/-- The section of `Put` stores and queues a message that it accepts, and starts a thread for it when the limit
allows. -/
theorem putSection_of_accepts (request : IRequest) (ha : Accepts o h request.msgId) :
    h.putSection o request =
      ({ h with
          mqWorkers := if Hires o h then h.mqWorkers + 1 else h.mqWorkers
          mqQueue := h.mqQueue ++ [request.msgId]
          mqMessages := h.mqMessages.insert request.msgId request },
        if Hires o h then .started else .queued) := by
  obtain ⟨hroom, hnew⟩ := ha
  by_cases hhires : Hires o h <;>
    simp [putSection, hroom, UnorderedMap.emplace_of_notMem hnew, hhires]

/-- The section of `Put` does not touch `mq_working`. -/
@[simp] theorem mqWorking_putSection : (h.putSection o request).1.mqWorking = h.mqWorking := by
  by_cases ha : Accepts o h request.msgId
  · rw [putSection_of_accepts request ha]
  · rw [putSection_of_not_accepts request ha]

/-- When the queued ids are stored, they still are after the section of `Put`. -/
theorem mem_putSection_of_mem {x : MsgId} (hh : ∀ y ∈ h.mqQueue, y ∈ h.mqMessages)
    (hx : x ∈ (h.putSection o request).1.mqQueue) :
    x ∈ (h.putSection o request).1.mqMessages := by
  by_cases ha : Accepts o h request.msgId
  · rw [putSection_of_accepts request ha] at hx ⊢
    rcases List.mem_append.mp hx with hold | hnew
    · exact (AList.mem_insert _).mpr (Or.inr (hh x hold))
    · exact (AList.mem_insert _).mpr (Or.inl (List.mem_singleton.mp hnew))
  · rw [putSection_of_not_accepts request ha] at hx ⊢
    exact hh x hx

/-- The section of `ExecuteThread` does not touch `mq_working`. -/
@[simp] theorem mqWorking_dequeueSection : h.dequeueSection.1.mqWorking = h.mqWorking := by
  unfold dequeueSection
  split
  · rfl
  · split <;> rfl

/-- The section of `ExecuteThread` takes at most the front of the queue. -/
@[simp] theorem mqQueue_dequeueSection : h.dequeueSection.1.mqQueue = h.mqQueue.tail := by
  unfold dequeueSection
  split
  · simp_all
  · split <;> simp_all

/-- The section of `ExecuteThread` forgets no message. -/
@[simp] theorem mqMessages_dequeueSection : h.dequeueSection.1.mqMessages = h.mqMessages := by
  unfold dequeueSection
  split
  · rfl
  · split <;> rfl

end Sections

end SyncSAPIHandler

namespace SyncSapi

open SyncSAPIHandler

/-- The name of one call of `Put`. -/
abbrev CallId := ℕ

/-- The number of one `ExecuteThread`, in the order they were started. -/
abbrev WorkerId := ℕ

/-- Where a call of `Put` stands. -/
inductive Call
  /-- Not started. -/
  | idle
  /-- Has seen `mq_working` and is about to enter its section. -/
  | entered
  /-- The message is stored. -/
  | stored
  /-- The call answers its caller with this code. -/
  | answering (code : ℕ)
  deriving DecidableEq, Repr

/-- Where an `ExecuteThread` stands. -/
inductive Worker
  /-- About to enter the section of `ExecuteThread`. -/
  | dequeuing
  /-- About to reply 200 to the message. -/
  | replying (msgid : MsgId) (request : IRequest)
  /-- In the `catch (...)`, about to reply 503. -/
  | excusing (msgid : MsgId) (request : IRequest)
  /-- About to read `mq_working` in the loop condition. -/
  | testingWorking
  /-- About to read `mq_queue.empty()` in the loop condition. -/
  | testingQueue
  /-- Has left the loop and is about to decrement `mq_workers`. -/
  | leaving
  /-- Has returned. -/
  | finished
  /-- An exception left the thread function. -/
  | terminated
  deriving DecidableEq, Repr

/-- A worker has not yet made its last test of the queue. -/
def Worker.Active : Worker → Prop
  | .leaving | .finished | .terminated => False
  | _ => True

/-- One atomic step of a call of `Put`, of an `ExecuteThread` or of `Finalize`. -/
inductive Action
  /-- `Put` tests `mq_working`. -/
  | putEnter (c : CallId)
  /-- The section of `Put` of a request with message id `id`. -/
  | put (c : CallId) (id : MsgId)
  /-- The section of `ExecuteThread`. -/
  | dequeue (w : WorkerId)
  /-- `ExecuteThread` replies 200. -/
  | reply (w : WorkerId) (result : ReplyResult)
  /-- `ExecuteThread` replies 503 in its `catch (...)`. -/
  | excuse (w : WorkerId) (result : ReplyResult)
  /-- `ExecuteThread` reads `mq_working`. -/
  | testWorking (w : WorkerId)
  /-- `ExecuteThread` reads `mq_queue.empty()`. -/
  | testQueue (w : WorkerId)
  /-- `ExecuteThread` decrements `mq_workers`. -/
  | leave (w : WorkerId)
  /-- `Finalize` clears `mq_working`. -/
  | finalize
  deriving DecidableEq, Repr

/-- The handler, its calls and workers, and what has happened so far. -/
structure State where
  /-- The shared state. -/
  handler : SyncSAPIHandler
  /-- The calls of `Put`. -/
  calls : CallId → Call
  /-- The workers, in the order they were started. -/
  workers : List Worker
  /-- The ids of all `Put` requests, in order. -/
  puts : List MsgId
  /-- The ids `Put` accepted, in order. -/
  accepted : List MsgId
  /-- The ids workers took, in order. -/
  taken : List MsgId

/-- A handler after `Initialize`, with no calls and no workers. -/
def State.init : State := ⟨⟨true, 0, [], ∅⟩, fun _ => .idle, [], [], [], []⟩

/-- The state with one worker moved on. -/
def State.setWorker (s : State) (w : WorkerId) (worker : Worker) : State :=
  { s with workers := s.workers.set w worker }

/-- The state after `Put` has tested `mq_working`. -/
def State.afterPutEnter (s : State) (c : CallId) : State :=
  { s with
    calls := Function.update s.calls c (if s.handler.mqWorking then .entered else .answering 521) }

/-- The state after the section of `Put`, whose request object is new. -/
def State.afterPut (o : Options) (s : State) (c : CallId) (id : MsgId) : State :=
  let put := s.handler.putSection o ⟨s.puts.length, id⟩
  { s with
    handler := put.1
    calls := Function.update s.calls c (if put.2 = .refused then .answering 507 else .stored)
    workers := if put.2 = .started then s.workers ++ [.dequeuing] else s.workers
    puts := s.puts ++ [id]
    accepted := if put.2 = .refused then s.accepted else s.accepted ++ [id] }

/-- The state after the section of `ExecuteThread`. -/
def State.afterDequeue (s : State) (w : WorkerId) : State :=
  let dequeue := s.handler.dequeueSection
  { s.setWorker w
      (match dequeue.2 with
      | .empty => .leaving
      | .message msgid request => .replying msgid request
      | .outOfRange => .terminated) with
    handler := dequeue.1
    taken := s.taken ++ s.handler.mqQueue.take 1 }

/-- The state after the reply 200. -/
def State.afterReply (s : State) (w : WorkerId) (msgid : MsgId) (request : IRequest)
    (result : ReplyResult) : State :=
  s.setWorker w (if result = .runtimeException then .excusing msgid request else .testingWorking)

/-- The state after the reply 503. -/
def State.afterExcuse (s : State) (w : WorkerId) (result : ReplyResult) : State :=
  s.setWorker w (if result = .runtimeException then .terminated else .testingWorking)

/-- The state after reading `mq_working`. -/
def State.afterTestWorking (s : State) (w : WorkerId) : State :=
  s.setWorker w (if s.handler.mqWorking then .testingQueue else .leaving)

/-- The state after reading `mq_queue.empty()`. -/
def State.afterTestQueue (s : State) (w : WorkerId) : State :=
  s.setWorker w (if s.handler.mqQueue = [] then .leaving else .dequeuing)

/-- The state after a worker has decremented `mq_workers` and returned. -/
def State.afterLeave (s : State) (w : WorkerId) : State :=
  { s.setWorker w .finished with
    handler := { s.handler with mqWorkers := s.handler.mqWorkers - 1 } }

/-- The state after `Finalize` has cleared `mq_working`. -/
def State.afterFinalize (s : State) : State :=
  { s with handler := { s.handler with mqWorking := false } }

/-- The steps of a handler with options `o`. A call or worker takes its next step only from the point
it stands at. That the process has ended when a worker is `terminated` is not asked for. -/
def step (o : Options) (s : State) : Action → Option State
  | .putEnter c => if s.calls c = .idle then some (s.afterPutEnter c) else none
  | .put c id => if s.calls c = .entered then some (s.afterPut o c id) else none
  | .dequeue w => if s.workers[w]? = some .dequeuing then some (s.afterDequeue w) else none
  | .reply w result =>
      match s.workers[w]? with
      | some (.replying msgid request) => some (s.afterReply w msgid request result)
      | _ => none
  | .excuse w result =>
      match s.workers[w]? with
      | some (.excusing _ _) => some (s.afterExcuse w result)
      | _ => none
  | .testWorking w =>
      if s.workers[w]? = some .testingWorking then some (s.afterTestWorking w) else none
  | .testQueue w =>
      if s.workers[w]? = some .testingQueue then some (s.afterTestQueue w) else none
  | .leave w => if s.workers[w]? = some .leaving then some (s.afterLeave w) else none
  | .finalize => if s.handler.mqWorking then some s.afterFinalize else none

/-- Any number of concurrent `Put` calls and the workers they start. -/
def machine (o : Options) : Machine State Action := ⟨State.init, step o⟩

section Steps

variable {o : Options} {s s' : State} {c : CallId} {w : WorkerId} {id : MsgId}
  {result : ReplyResult}

/-- The test of `mq_working` is the first step of `Put`, which a call takes from its start. -/
theorem step_putEnter_eq_some :
    step o s (.putEnter c) = some s' ↔ s.calls c = .idle ∧ s.afterPutEnter c = s' := by
  simp [step]

/-- The section of `Put` is one step, which a call takes once it has tested `mq_working`. -/
theorem step_put_eq_some :
    step o s (.put c id) = some s' ↔ s.calls c = .entered ∧ s.afterPut o c id = s' := by
  simp [step]

/-- The section of `ExecuteThread` is one step, which a worker takes at the top of its loop. -/
theorem step_dequeue_eq_some :
    step o s (.dequeue w) = some s' ↔
      s.workers[w]? = some .dequeuing ∧ s.afterDequeue w = s' := by
  simp [step]

/-- The reply 200 is one step, which a worker takes with the message that it has taken. -/
theorem step_reply_eq_some :
    step o s (.reply w result) = some s' ↔
      ∃ msgid request, s.workers[w]? = some (.replying msgid request) ∧
        s.afterReply w msgid request result = s' := by
  rcases hw : s.workers[w]? with - | worker
  · simp [step, hw]
  · cases worker <;> simp [step, hw]

/-- The reply 503 is one step, which a worker takes after its reply 200 has thrown. -/
theorem step_excuse_eq_some :
    step o s (.excuse w result) = some s' ↔
      (∃ msgid request, s.workers[w]? = some (.excusing msgid request)) ∧
        s.afterExcuse w result = s' := by
  rcases hw : s.workers[w]? with - | worker
  · simp [step, hw]
  · cases worker <;> simp [step, hw]

/-- Reading `mq_working` is one step, which a worker takes after a message. -/
theorem step_testWorking_eq_some :
    step o s (.testWorking w) = some s' ↔
      s.workers[w]? = some .testingWorking ∧ s.afterTestWorking w = s' := by
  simp [step]

/-- Reading `mq_queue.empty()` is one step, which a worker takes after `mq_working` was set. -/
theorem step_testQueue_eq_some :
    step o s (.testQueue w) = some s' ↔
      s.workers[w]? = some .testingQueue ∧ s.afterTestQueue w = s' := by
  simp [step]

/-- The decrement of `mq_workers` is the last step of a worker. -/
theorem step_leave_eq_some :
    step o s (.leave w) = some s' ↔ s.workers[w]? = some .leaving ∧ s.afterLeave w = s' := by
  simp [step]

/-- `Finalize` is one step, which is taken while `mq_working` is set. -/
theorem step_finalize_eq_some :
    step o s .finalize = some s' ↔ s.handler.mqWorking = true ∧ s.afterFinalize = s' := by
  simp [step]

/-- When its message is not accepted, `Put` leaves the handler and the threads alone. -/
theorem afterPut_of_not_accepts (c : CallId) (ha : ¬ Accepts o s.handler id) :
    s.afterPut o c id =
      { s with
        calls := Function.update s.calls c (.answering 507)
        puts := s.puts ++ [id] } := by
  rw [State.afterPut, putSection_of_not_accepts ⟨s.puts.length, id⟩ ha]
  simp

/-- When its message is accepted, `Put` stores and queues it, and a thread is started for it when the limit allows. -/
theorem afterPut_of_accepts (c : CallId) (ha : Accepts o s.handler id) :
    s.afterPut o c id =
      { s with
        handler := { s.handler with
          mqWorkers := if Hires o s.handler then s.handler.mqWorkers + 1 else s.handler.mqWorkers
          mqQueue := s.handler.mqQueue ++ [id]
          mqMessages := s.handler.mqMessages.insert id ⟨s.puts.length, id⟩ }
        calls := Function.update s.calls c .stored
        workers := if Hires o s.handler then s.workers ++ [.dequeuing] else s.workers
        puts := s.puts ++ [id]
        accepted := s.accepted ++ [id] } := by
  rw [State.afterPut, putSection_of_accepts ⟨s.puts.length, id⟩ ha]
  by_cases hhires : Hires o s.handler <;> simp [hhires]

/-- A worker that finds the queue empty leaves its loop. -/
theorem afterDequeue_of_nil (w : WorkerId) (hqueue : s.handler.mqQueue = []) :
    s.afterDequeue w = s.setWorker w .leaving := by
  simp [State.afterDequeue, dequeueSection, hqueue, State.setWorker]

/-- A worker takes the front message off the queue when it is stored, and replies to it next. -/
theorem afterDequeue_of_cons {msgid : MsgId} {request : IRequest} {rest : List MsgId} (w : WorkerId)
    (hqueue : s.handler.mqQueue = msgid :: rest)
    (hat : s.handler.mqMessages.atKey msgid = some request) :
    s.afterDequeue w =
      { s.setWorker w (.replying msgid request) with
        handler := { s.handler with mqQueue := rest }
        taken := s.taken ++ [msgid] } := by
  simp [State.afterDequeue, dequeueSection, hqueue, hat, State.setWorker]

/-- When the queued ids are stored, they still are after every step. -/
theorem stored_step {a : Action} (hstored : ∀ x ∈ s.handler.mqQueue, x ∈ s.handler.mqMessages)
    (hs : step o s a = some s') : ∀ x ∈ s'.handler.mqQueue, x ∈ s'.handler.mqMessages := by
  cases a with
  | putEnter c =>
      obtain ⟨-, rfl⟩ := step_putEnter_eq_some.mp hs
      exact hstored
  | put c id =>
      obtain ⟨-, rfl⟩ := step_put_eq_some.mp hs
      exact fun x hx => mem_putSection_of_mem hstored hx
  | dequeue w =>
      obtain ⟨-, rfl⟩ := step_dequeue_eq_some.mp hs
      intro x hx
      simp only [State.afterDequeue, mqQueue_dequeueSection] at hx
      simpa [State.afterDequeue] using hstored x (List.mem_of_mem_tail hx)
  | reply w result =>
      obtain ⟨msgid, request, -, rfl⟩ := step_reply_eq_some.mp hs
      exact hstored
  | excuse w result =>
      obtain ⟨-, rfl⟩ := step_excuse_eq_some.mp hs
      exact hstored
  | testWorking w =>
      obtain ⟨-, rfl⟩ := step_testWorking_eq_some.mp hs
      exact hstored
  | testQueue w =>
      obtain ⟨-, rfl⟩ := step_testQueue_eq_some.mp hs
      exact hstored
  | leave w =>
      obtain ⟨-, rfl⟩ := step_leave_eq_some.mp hs
      exact hstored
  | finalize =>
      obtain ⟨-, rfl⟩ := step_finalize_eq_some.mp hs
      exact hstored

end Steps

end SyncSapi

end NavekFiber
