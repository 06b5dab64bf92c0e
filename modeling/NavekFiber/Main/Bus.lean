import NavekFiber.Main.RequestImpl
import NavekFiber.Main.RequestTasks
import NavekFiber.Mq.SyncQueueClients
import NavekFiber.Mt.ThreadPoolTasks
import NavekFiber.Net.MessageIds
import NavekFiber.Utils.Numbers

/-! # The bus at work: the main loop of `Kernel::Run`

The main thread accepts connections. Each one gets its id from `getMsgId` and is enqueued as a task; the
worker of the pool that has taken the task runs `RouterImpl::Process` on it, which makes one call of the
queue object behind the URI of the request. Whatever `Process` throws stays in the future of the task, so the
worker goes on with the next one. The machine of this file puts the counter of the ids, the pool and the queue
objects together, and each step is a step of one of them. Receiving the request and replying are between the
steps.

* `Bus.requestOf`: what a request that has been received asks for, as the router understands it.
* `Bus.machine`: any number of connections, and the workers that serve them.
* `Bus.refinesPool`, `Bus.refinesQueue`: the part of each component in a run of the bus is a run of the
  component, so that what holds of all runs of the component holds here.

Only queue objects of the class `SyncQueueHandler` are followed; the requests for others are tasks of the
pool like all tasks. -/

namespace NavekFiber

open Utils Proto

namespace Bus

/-- A method of a queue object that does more than answer; `Post` with the number in its header. -/
inductive Method
  /-- `Get`. -/
  | get
  /-- `Put`. -/
  | put
  /-- `Post`. -/
  | post (xid : MsgId)
  deriving DecidableEq, Repr

/-- What a request asks for: a queue object and one of its methods. -/
structure Request (κ : Type) where
  /-- The queue object. -/
  queue : κ
  /-- The method. -/
  method : Method
  deriving DecidableEq, Repr

variable {κ : Type}

/-- The text of the header `X-MSG-FORWARD-UID` of a request. -/
def forwardUid (self : HttpImpl) : List UInt8 :=
  ((RequestImpl.new self).getHeaderOption (bytes "X-MSG-FORWARD-UID") none).1

/-- What a request that has been received asks for: the queue object that `Routes.find` finds, and the method
that `RequestImpl::Process` calls. A `Post` without a number in its header only answers. -/
def requestOf (routes : RouteList κ) (self : HttpImpl) : Option (Request κ) :=
  (routes.find (RouterImpl.uriOf self)).bind fun route =>
    match self.request.method with
    | some .get => some ⟨route.2, .get⟩
    | some .put => some ⟨route.2, .put⟩
    | some .post =>
        match stoul (forwardUid self) with
        | .ok xid => some ⟨route.2, .post xid⟩
        | .error _ => none
    | _ => none

/-- What the queue's method for a request does, as the router runs it. -/
def Method.handler (queue : IMQ) : Method → QueueRun
  | .get => queue.get
  | .put => queue.put
  | .post _ => queue.post

/-- The router runs the method that `requestOf` names, of the queue object that `requestOf` names. -/
theorem dispatch_of_requestOf (env : Environment) (queues : κ → IMQ) {routes : RouteList κ} {self : HttpImpl}
    {request : Request κ} (h : requestOf routes self = some request) :
    RouterImpl.dispatch env (routes.map fun route => (route.1, some (queues route.2))) self =
      (request.method.handler (queues request.queue)).run env self := by
  obtain ⟨route, hroute, hrequest⟩ := Option.bind_eq_some_iff.mp h
  have hfind : RouteList.find (routes.map fun route => (route.1, some (queues route.2))) (RouterImpl.uriOf self) =
      some (route.1, some (queues route.2)) := by
    rw [RouteList.find, List.find?_map]
    exact congrArg (Option.map _) hroute
  rw [RouterImpl.dispatch, hfind]
  simp only [RequestImpl.process]
  cases hmethod : self.request.method with
  | none => simp [hmethod] at hrequest
  | some method =>
      cases method <;> simp only [hmethod] at hrequest
      case get | put =>
        obtain rfl := Option.some.inj hrequest
        rfl
      case post =>
        split at hrequest
        · obtain rfl := Option.some.inj hrequest
          rfl
        · cases hrequest
      all_goals cases hrequest

/-- What a handler has received when its connection meets these calls of `recv`, unless its `Process` throws. -/
def receivedFrom (env : Environment) (self : HttpImpl) (block : Block self.maxRequestLength) (turns : List Turn) :
    Option HttpImpl :=
  match self.process env block turns with
  | some (none, self) => some self
  | _ => none

/-- When a connection has received and `requestOf` names a method, its `requestTask` runs the method and answers what
the method throws. -/
theorem requestTask_of_requestOf {env : Environment} (queues : κ → IMQ) {routes : RouteList κ}
    {self self' : HttpImpl} {block : Block self.maxRequestLength} {turns : List Turn} {request : Request κ}
    {answered : Option Exn × HttpImpl} (hreceived : receivedFrom env self block turns = some self')
    (hrequest : requestOf routes self' = some request)
    (hanswered : RouterImpl.answerException env ((request.method.handler (queues request.queue)).run env self') =
      answered) :
    RouterImpl.requestTask env (routes.map fun route => (route.1, some (queues route.2))) self block turns =
      some (.packaged answered.1, answered.2) := by
  unfold receivedFrom at hreceived
  split at hreceived
  · rename_i heq
    obtain rfl := Option.some.inj hreceived
    have hprocess : RouterImpl.process env (routes.map fun route => (route.1, some (queues route.2))) self block
        turns = some answered := by
      rw [RouterImpl.process, heq, ← hanswered]
      exact congrArg (fun out => some (RouterImpl.answerException env out))
        (dispatch_of_requestOf env queues hrequest)
    rw [RouterImpl.requestTask, hprocess]
    rfl
  · cases hreceived

/-- What a bus is set up with, and what its connections bring. -/
structure Setup (κ : Type) where
  /-- The build has `NDEBUG`. -/
  ndebug : Bool
  /-- The limits of the pool. -/
  limits : ThreadPool.Limits
  /-- `mq_options.LimitSize` of each queue object. -/
  limitSize : κ → ℕ
  /-- The routes. -/
  routes : RouteList κ
  /-- What the handler of each connection has received, unless its `Process` throws: see `receivedFrom`. -/
  received : Task → Option HttpImpl

/-- What the request of a connection asks for, if anything. -/
def Setup.asks (setup : Setup κ) (c : Task) : Option (Request κ) := (setup.received c).bind (requestOf setup.routes)

/-- The process at work. A connection is known by its number, which is that of its task, and of its call of
the queue object. -/
structure State (κ : Type) where
  /-- `msgIndex`. -/
  msgIndex : UInt64
  /-- The ids of the connections so far. -/
  ids : List MsgId
  /-- `fiberWorkers`. -/
  pool : Pool.State
  /-- The queue objects. -/
  queues : κ → SyncQueue.State

/-- The bus when the startup is over. -/
def State.init (setup : Setup κ) : State κ :=
  ⟨0, [], Pool.State.init setup.limits, fun _ => SyncQueue.State.init⟩

/-- A step of the bus. -/
inductive Action
  /-- The main thread accepts a connection at this time, and runs the section of `Enqueue` for it. -/
  | accept (time : UInt64)
  /-- A step of the pool that is none of `Enqueue`'s section. -/
  | pool (a : Pool.Action)
  /-- A worker takes the next step of the call that it is in; when the step is a reply, it ends like this. -/
  | call (id : ThreadId) (result : ReplyResult)
  deriving DecidableEq, Repr

/-- The first step of a call of a queue object. -/
def Method.first (method : Method) (c : Task) (mid : MsgId) : SyncQueue.Action :=
  match method with
  | .get => .get c
  | .put => .put c mid
  | .post xid => .postLookup c xid

/-- The next step of a call of a queue object, unless it has returned. -/
def Method.next (method : Method) (c : Task) (mid : MsgId) (result : ReplyResult) :
    SyncQueue.Call → Option SyncQueue.Action
  | .idle => some (method.first c mid)
  | .delivering _ _ => some (.getReply c result)
  | .forwarding _ _ => some (.postForward c result)
  | .forwarded _ _ => some (.postErase c)
  | .stored | .unsent _ _ | .answering _ | .threw => none

/-- A call has left the queue object. -/
def hasReturned : SyncQueue.Call → Bool
  | .stored | .unsent _ _ | .answering _ | .threw => true
  | .idle | .delivering _ _ | .forwarding _ _ | .forwarded _ _ => false

/-- The task that a worker is running. -/
def running : Pool.Worker → Option Task
  | .running _ task => some task
  | _ => none

variable (setup : Setup κ)

/-- The request of a connection needs nothing more of the queue objects. -/
def State.Served (s : State κ) (c : Task) : Prop :=
  ∀ request ∈ setup.asks c, hasReturned ((s.queues request.queue).calls c) = true

instance (s : State κ) (c : Task) : Decidable (s.Served setup c) :=
  Option.decidableForallMem
    (p := fun request : Request κ => hasReturned ((s.queues request.queue).calls c) = true) (setup.asks c)

/-- What the pool does on its own: tasks come from the main thread, and a task ends when its request has been
served. -/
def State.Allows (s : State κ) : Pool.Action → Prop
  | .enqueue _ _ => False
  | .busyDown id => ∀ c ∈ running (s.pool.workers id), s.Served setup c
  | _ => True

instance (s : State κ) : ∀ a, Decidable (s.Allows setup a)
  | .enqueue _ _ => isFalse id
  | .busyDown id => Option.decidableForallMem (p := s.Served setup) (running (s.pool.workers id))
  | .checkResize _ | .hire _ _ | .work _ | .busyUp _ | .join => isTrue trivial

/-- The step that a worker takes next in a queue object, and which queue object it is. -/
def State.nextStep (s : State κ) (id : ThreadId) (result : ReplyResult) : Option (κ × SyncQueue.Action) := do
  let c ← running (s.pool.workers id)
  let request ← setup.asks c
  let mid ← s.ids[c]?
  let a ← request.method.next c mid result ((s.queues request.queue).calls c)
  return (request.queue, a)

/-- The state when a connection has been accepted. -/
def State.afterAccept (s : State κ) (time : UInt64) (pool : Pool.State) : State κ :=
  { s with
    msgIndex := (getMsgId time s.msgIndex).2
    ids := s.ids ++ [(getMsgId time s.msgIndex).1]
    pool }

/-- The state with another state of a queue object. -/
def State.setQueue [DecidableEq κ] (s : State κ) (k : κ) (queue : SyncQueue.State) : State κ :=
  { s with queues := Function.update s.queues k queue }

/-- `setQueue` changes the state of one queue object only. -/
@[simp] theorem State.queues_setQueue [DecidableEq κ] (s : State κ) (k : κ) (queue : SyncQueue.State) :
    (s.setQueue k queue).queues = Function.update s.queues k queue := rfl

variable [DecidableEq κ]

/-- The steps of a bus whose process runs. The pool is stopped only when the main loop has ended. -/
def stepAlive (s : State κ) : Action → Option (State κ)
  | .accept time =>
      if s.pool.pool.poolYet then
        (Pool.step setup.ndebug setup.limits s.pool (.enqueue 0 s.ids.length)).map (s.afterAccept time)
      else none
  | .pool a =>
      if s.Allows setup a then
        (Pool.step setup.ndebug setup.limits s.pool a).map fun pool => { s with pool }
      else none
  | .call id result =>
      (s.nextStep setup id result).bind fun next =>
        (SyncQueue.step (setup.limitSize next.1) (s.queues next.1) next.2).map (s.setQueue next.1)

/-- The process runs: no exception in `Hire` has ended it. -/
def State.Runs (s : State κ) : Prop := s.pool.aborted = false

instance (s : State κ) : Decidable s.Runs := inferInstanceAs (Decidable (_ = false))

/-- The steps of the bus. -/
def step (s : State κ) (a : Action) : Option (State κ) := if s.Runs then stepAlive setup s a else none

/-- The bus: any number of connections and the workers that serve them, over the queue objects. -/
def machine : Machine (State κ) Action := ⟨State.init setup, step setup⟩

variable {setup} {s s' : State κ} {k : κ} {as : List Action}

/-- A step of the bus is a step of `stepAlive` in a process that runs. -/
theorem step_eq_some {a : Action} : step setup s a = some s' ↔ s.Runs ∧ stepAlive setup s a = some s' := by
  by_cases hruns : s.Runs <;> simp [step, hruns]

/-- Accepting a connection is possible while the process runs and the pool is there; it enqueues the task of the
connection in the pool and gives out an id. -/
theorem step_accept_eq_some {time : UInt64} :
    step setup s (.accept time) = some s' ↔ (s.Runs ∧ s.pool.pool.poolYet = true) ∧
      ∃ pool, Pool.step setup.ndebug setup.limits s.pool (.enqueue 0 s.ids.length) = some pool ∧
        s.afterAccept time pool = s' := by
  simp [step_eq_some, stepAlive, and_assoc]

/-- A step of the pool on its own is possible while the process runs and the bus allows it; it changes nothing but the
pool. -/
theorem step_pool_eq_some {a : Pool.Action} :
    step setup s (.pool a) = some s' ↔ (s.Runs ∧ s.Allows setup a) ∧
      ∃ pool, Pool.step setup.ndebug setup.limits s.pool a = some pool ∧ { s with pool } = s' := by
  simp [step_eq_some, stepAlive, and_assoc]

/-- A step of a worker in a call is its `nextStep`, which changes nothing but the queue object of the call. -/
theorem step_call_eq_some {id : ThreadId} {result : ReplyResult} :
    step setup s (.call id result) = some s' ↔ s.Runs ∧
      ∃ k a queue, s.nextStep setup id result = some (k, a) ∧
        SyncQueue.step (setup.limitSize k) (s.queues k) a = some queue ∧ s.setQueue k queue = s' := by
  simp [step_eq_some, stepAlive, Option.bind_eq_some_iff]

omit [DecidableEq κ] in
/-- The `nextStep` of a worker is the next step of the method that the request of its connection asks for, with the id
of the connection. -/
theorem nextStep_eq_some {id : ThreadId} {result : ReplyResult} {a : SyncQueue.Action} :
    s.nextStep setup id result = some (k, a) ↔
      ∃ c method mid, running (s.pool.workers id) = some c ∧ setup.asks c = some ⟨k, method⟩ ∧
        s.ids[c]? = some mid ∧ method.next c mid result ((s.queues k).calls c) = some a := by
  unfold State.nextStep
  simp only [Option.bind_eq_bind, Option.bind_eq_some_iff, Option.pure_def, Option.some.injEq, Prod.mk.injEq]
  constructor
  · rintro ⟨c, hc, ⟨queue, method⟩, hasks, mid, hmid, a, ha, rfl, rfl⟩
    exact ⟨c, method, mid, hc, hasks, hmid, ha⟩
  · rintro ⟨c, method, mid, hc, hasks, hmid, ha⟩
    exact ⟨c, hc, ⟨k, method⟩, hasks, mid, hmid, a, ha, rfl, rfl⟩

/-! ### The parts of the components -/

/-- The steps of the pool that a step of the bus shows. -/
def showsPool (s : State κ) : Action → List Pool.Action
  | .accept _ => [.enqueue 0 s.ids.length]
  | .pool a => [a]
  | .call _ _ => []

/-- The steps of a queue object that a step of the bus shows. -/
def showsQueue (setup : Setup κ) (k : κ) (s : State κ) : Action → List SyncQueue.Action
  | .call id result =>
      ((s.nextStep setup id result).bind fun next => if next.1 = k then some next.2 else none).toList
  | _ => []

/-- The pool takes part in every run as in a run of its own. -/
def refinesPool (setup : Setup κ) :
    Machine.Refinement (machine setup) (Pool.machine setup.ndebug setup.limits) fun _ _ => True where
  Rel s pool := s.pool = pool
  shows := showsPool
  init := rfl
  step := by
    rintro s pool a s' rfl - hs
    cases a with
    | accept time =>
        obtain ⟨-, pool, hpool, rfl⟩ := step_accept_eq_some.mp hs
        exact ⟨pool, by simp [showsPool, Machine.exec, Pool.machine, hpool], rfl⟩
    | pool a =>
        obtain ⟨-, pool, hpool, rfl⟩ := step_pool_eq_some.mp hs
        exact ⟨pool, by simp [showsPool, Machine.exec, Pool.machine, hpool], rfl⟩
    | call id result =>
        obtain ⟨-, k, a, queue, -, -, rfl⟩ := step_call_eq_some.mp hs
        exact ⟨s.pool, rfl, rfl⟩

/-- Each queue object takes part in every run as in a run of its own. -/
def refinesQueue (setup : Setup κ) (k : κ) :
    Machine.Refinement (machine setup) (SyncQueue.machine (setup.limitSize k)) fun _ _ => True where
  Rel s queue := s.queues k = queue
  shows := showsQueue setup k
  init := rfl
  step := by
    rintro s queue a s' rfl - hs
    cases a with
    | accept time =>
        obtain ⟨-, pool, -, rfl⟩ := step_accept_eq_some.mp hs
        exact ⟨s.queues k, rfl, rfl⟩
    | pool a =>
        obtain ⟨-, pool, -, rfl⟩ := step_pool_eq_some.mp hs
        exact ⟨s.queues k, rfl, rfl⟩
    | call id result =>
        obtain ⟨-, k', a, queue, hnext, hqueue, rfl⟩ := step_call_eq_some.mp hs
        by_cases hk : k' = k
        · subst hk
          exact ⟨queue, by simp [showsQueue, hnext, Machine.exec, SyncQueue.machine, hqueue],
            by simp [State.setQueue]⟩
        · refine ⟨s.queues k, by simp [showsQueue, hnext, hk, Machine.exec], ?_⟩
          rw [State.queues_setQueue, Function.update_of_ne (Ne.symm hk)]

/-- The steps of the pool in a run. -/
def poolSteps (setup : Setup κ) (as : List Action) : List Pool.Action :=
  (machine setup).shown showsPool (State.init setup) as

/-- The steps of a queue object in a run. -/
def queueSteps (setup : Setup κ) (k : κ) (as : List Action) : List SyncQueue.Action :=
  (machine setup).shown (showsQueue setup k) (State.init setup) as

/-- The steps of the pool in a run of the bus are a run of the pool, which ends in the pool of the bus. -/
theorem exec_poolSteps (hexec : (machine setup).exec (State.init setup) as = some s) :
    (Pool.machine setup.ndebug setup.limits).exec (Pool.State.init setup.limits) (poolSteps setup as) =
      some s.pool := by
  obtain ⟨pool, hpool, rfl⟩ := (refinesPool setup).exec as (refinesPool setup).init (Machine.meets_true as) hexec
  exact hpool

/-- The steps of a queue object in a run of the bus are a run of the queue object, which ends in its state on the
bus. -/
theorem exec_queueSteps (k : κ) (hexec : (machine setup).exec (State.init setup) as = some s) :
    (SyncQueue.machine (setup.limitSize k)).exec SyncQueue.State.init (queueSteps setup k as) =
      some (s.queues k) := by
  obtain ⟨queue, hqueue, rfl⟩ :=
    (refinesQueue setup k).exec as (refinesQueue setup k).init (Machine.meets_true as) hexec
  exact hqueue

/-! ### The ids of the connections -/

/-- A step of the bus keeps the ids that have been given out. -/
theorem ids_prefix {a : Action} (hs : step setup s a = some s') : s.ids <+: s'.ids := by
  cases a with
  | accept time =>
      obtain ⟨-, pool, -, rfl⟩ := step_accept_eq_some.mp hs
      exact List.prefix_append _ _
  | pool a =>
      obtain ⟨-, pool, -, rfl⟩ := step_pool_eq_some.mp hs
      exact List.prefix_refl _
  | call id result =>
      obtain ⟨-, k, a, queue, -, -, rfl⟩ := step_call_eq_some.mp hs
      exact List.prefix_refl _

/-- The ids given out in a run of the bus are those that calls of `getMsgId` return at some times. -/
theorem msgIds_of_exec (hexec : (machine setup).exec (State.init setup) as = some s) :
    ∃ times, msgIds times 0 = (s.ids, s.msgIndex) := by
  refine Machine.exec_invariant (M := machine setup) (I := fun s => ∃ times, msgIds times 0 = (s.ids, s.msgIndex))
    ?_ as ⟨[], rfl⟩ hexec
  rintro s a s' ⟨times, htimes⟩ hs
  cases a with
  | accept time =>
      obtain ⟨-, pool, -, rfl⟩ := step_accept_eq_some.mp hs
      refine ⟨times ++ [time], ?_⟩
      rw [msgIds_append, htimes]
      rfl
  | pool a =>
      obtain ⟨-, pool, -, rfl⟩ := step_pool_eq_some.mp hs
      exact ⟨times, htimes⟩
  | call id result =>
      obtain ⟨-, k, a, queue, -, -, rfl⟩ := step_call_eq_some.mp hs
      exact ⟨times, htimes⟩

/-- In a run with at most `2 ^ 32` connections, so that the counter has not gone through its low half, no two
connections have one id. -/
theorem nodup_ids (hexec : (machine setup).exec (State.init setup) as = some s) (hfew : s.ids.length ≤ 2 ^ 32) :
    s.ids.Nodup := by
  obtain ⟨times, htimes⟩ := msgIds_of_exec hexec
  have hnodup := nodup_msgIds times 0 0
  rwa [htimes, List.drop_zero, List.take_of_length_le hfew] at hnodup

/-! ### Whose steps they are -/

/-- What the call of a connection with this id can do at all. -/
def Method.Makes (method : Method) (mid : MsgId) : SyncQueue.Action → Prop
  | .put _ id => method = .put ∧ id = mid
  | .get _ => method = .get
  | .postLookup _ xid => method = .post xid
  | .getReply _ _ | .postForward _ _ | .postErase _ => True

/-- A step of a queue object is one that a request asks for. -/
structure AskedFor (setup : Setup κ) (s : State κ) (k : κ) (a : SyncQueue.Action) : Prop where
  /-- The request of the connection whose call it is, with the id of the connection. -/
  request : ∃ method mid, setup.asks a.call = some ⟨k, method⟩ ∧ s.ids[a.call]? = some mid ∧ method.Makes mid a

omit [DecidableEq κ] in
/-- The next step of a call is a step of this call, and one that its method `Makes`. -/
theorem Method.makes_of_next {method : Method} {c : Task} {mid : MsgId} {result : ReplyResult}
    {call : SyncQueue.Call} {a : SyncQueue.Action} (h : method.next c mid result call = some a) :
    a.call = c ∧ method.Makes mid a := by
  cases call with
  | idle =>
      obtain rfl := Option.some.inj h
      cases method <;> simp [Method.first, SyncQueue.Action.call, Method.Makes]
  | delivering muid xrequest =>
      obtain rfl := Option.some.inj h
      exact ⟨rfl, trivial⟩
  | forwarding xid xrequest =>
      obtain rfl := Option.some.inj h
      exact ⟨rfl, trivial⟩
  | forwarded xid xrequest =>
      obtain rfl := Option.some.inj h
      exact ⟨rfl, trivial⟩
  | stored => cases h
  | unsent xrequest code => cases h
  | answering code => cases h
  | threw => cases h

/-- A step of the bus shows a step of a queue object only when a request asks for it. -/
theorem askedFor_step {a : Action} {bs : List SyncQueue.Action} (hi : ∀ b ∈ bs, AskedFor setup s k b)
    (hs : step setup s a = some s') : ∀ b ∈ bs ++ showsQueue setup k s a, AskedFor setup s' k b := by
  intro b hb
  rcases List.mem_append.mp hb with hb | hb
  · obtain ⟨method, mid, hasks, hmid, hmakes⟩ := (hi b hb).request
    obtain ⟨more, hmore⟩ := ids_prefix hs
    refine ⟨method, mid, hasks, ?_, hmakes⟩
    rw [← hmore, List.getElem?_append_left (List.getElem?_eq_some_iff.mp hmid).1]
    exact hmid
  · cases a with
    | accept time => cases hb
    | pool a => cases hb
    | call id result =>
        obtain ⟨-, k', a, queue, hnext, -, rfl⟩ := step_call_eq_some.mp hs
        obtain ⟨c, method, mid, -, hasks, hmid, hstep⟩ := nextStep_eq_some.mp hnext
        obtain ⟨rfl, hmakes⟩ := Method.makes_of_next hstep
        by_cases hk : k' = k
        · subst hk
          obtain rfl : b = a := by simpa [showsQueue, hnext] using hb
          exact ⟨method, mid, hasks, hmid, hmakes⟩
        · exact absurd hb (by simp [showsQueue, hnext, hk])

/-- Each step of a queue object in a run of the bus is one that the request of a connection asks for. -/
theorem askedFor_of_exec (hexec : (machine setup).exec (State.init setup) as = some s) :
    ∀ a ∈ queueSteps setup k as, AskedFor setup s k a :=
  Machine.exec_shown (M := machine setup) (I := fun bs s => ∀ a ∈ bs, AskedFor setup s k a)
    (fun _ _ _ _ hi hs => askedFor_step hi hs) [] as (by simp) hexec

/-- A call of `Put` is that of a connection that asks for it, with the id of the connection. -/
theorem asks_of_putCalls (hexec : (machine setup).exec (State.init setup) as = some s) {c : Task} {x : MsgId}
    (hput : (c, x) ∈ SyncQueue.putCalls (queueSteps setup k as)) :
    setup.asks c = some ⟨k, .put⟩ ∧ s.ids[c]? = some x := by
  obtain ⟨a, ha, hput⟩ := List.mem_filterMap.mp hput
  obtain ⟨method, mid, hasks, hmid, hmakes⟩ := (askedFor_of_exec hexec a ha).request
  cases a with
  | put c' id =>
      obtain ⟨rfl, rfl⟩ := Prod.mk.inj (Option.some.inj hput)
      obtain ⟨rfl, rfl⟩ := hmakes
      exact ⟨hasks, hmid⟩
  | _ => cases hput

/-- In a run with at most `2 ^ 32` connections, the `Put` requests of a queue object have distinct ids. -/
theorem nodup_puts (hexec : (machine setup).exec (State.init setup) as = some s) (hfew : s.ids.length ≤ 2 ^ 32)
    (k : κ) : (s.queues k).puts.Nodup := by
  have hcalls := SyncQueue.callsInvariant_of_exec (exec_queueSteps k hexec)
  have hnodup := nodup_ids hexec hfew
  rw [hcalls.puts]
  refine List.Nodup.map_on ?_ (List.Nodup.of_map _ hcalls.nodup)
  rintro ⟨c, x⟩ hc ⟨d, y⟩ hd rfl
  obtain ⟨-, hcid⟩ := asks_of_putCalls hexec hc
  obtain ⟨-, hdid⟩ := asks_of_putCalls hexec hd
  obtain ⟨hlt, -⟩ := List.getElem?_eq_some_iff.mp hcid
  rw [(List.getElem?_inj hlt hnodup).mp (hcid.trans hdid.symm)]

end Bus

end NavekFiber
