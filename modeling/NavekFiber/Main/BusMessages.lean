import NavekFiber.Main.Bus

/-! # What becomes of connections and messages

Over the whole bus, for any number of connections, channels and workers, whatever the interleaving and
whatever becomes of the replies.

* `connection_fate_of_exec`: each connection waits for a worker, or one worker serves it, or it has been
  served, once; a queue object sees nothing of it before, and everything by then.
* `forward_reaches_client`: what a `POST` brings goes to the client whose `PUT` got the id that it names,
  through the queue object of both.
* `put_ends_of_exec`: a message that is accepted is kept until its client has been answered, and one that is
  refused leaves no trace.

The last two need the ids to be distinct, which they are for the first `2 ^ 32` connections. -/

namespace NavekFiber

namespace Bus

open WorkQueue

variable {κ : Type} {setup : Setup κ} {s s' : State κ} {as : List Action} {a : Action}

/-! ### A message that is put, fetched and answered -/

/-- The requests of three connections: a `PUT`, a `GET` and a `POST`. The parse drops the last header, so each one has
a header to spare. -/
def requestText : Task → List UInt8
  | 0 => bytes "PUT /a/ HTTP/1.1\r\nA: b\r\n\r\n"
  | 1 => bytes "GET /a/ HTTP/1.1\r\nA: b\r\n\r\n"
  | _ => bytes "POST /a/ HTTP/1.1\r\nX-MSG-FORWARD-UID: 4294967296\r\nA: b\r\n\r\n"

/-- A bus with one channel and one worker. -/
def oneChannel : Setup Unit where
  ndebug := false
  limits := ⟨1, 1, Nat.one_pos, le_rfl⟩
  limitSize _ := 0
  routes := [(bytes "/a/", ())]
  received c := receivedFrom RouterImpl.taking208 RouterImpl.probe RouterImpl.probeBlock
    [⟨.got (requestText c), some 0⟩]

/-- The steps from a connection to the worker that serves it. -/
def serving : List Action := [.accept 1, .pool (.checkResize 0), .pool (.work 0), .pool (.busyUp 0)]

/-- A run of `oneChannel` that serves the three connections one after the other. -/
def putGetPost : List Action :=
  serving ++ [.call 0 .delivered, .pool (.busyDown 0)] ++
    serving ++ [.call 0 .delivered, .call 0 .delivered, .pool (.busyDown 0)] ++
    serving ++ [.call 0 .delivered, .call 0 .delivered, .call 0 .delivered, .pool (.busyDown 0)]

/-- `putGetPost` is a run of `oneChannel`: the message of the first connection has been stored, and the third has
passed a reply on to it. -/
theorem exec_putGetPost : ∃ s, (machine oneChannel).exec (State.init oneChannel) putGetPost = some s ∧
    s.ids.length = 3 ∧ (s.queues ()).calls 0 = .stored ∧ (2, ⟨0, 4294967296⟩) ∈ (s.queues ()).forwards := by
  have hrun : ((machine oneChannel).exec (State.init oneChannel) putGetPost).map (fun s =>
      (s.ids.length, (s.queues ()).calls 0, (s.queues ()).forwards)) =
        some (3, .stored, [(2, ⟨0, 4294967296⟩)]) := by decide +kernel
  obtain ⟨s, hexec, hs⟩ := Option.map_eq_some_iff.mp hrun
  obtain ⟨hids, hs⟩ := Prod.mk.inj hs
  obtain ⟨hcall, hforwards⟩ := Prod.mk.inj hs
  exact ⟨s, hexec, hids, hcall, hforwards ▸ List.mem_singleton_self _⟩

/-! ### Connections -/

/-- What holds of the connections after every run of the bus. -/
structure ConnectionInvariant (setup : Setup κ) (s : State κ) : Prop where
  /-- The connections are the tasks of the pool, in order. -/
  tasks : s.pool.accepted = List.range s.ids.length
  /-- What a worker has in its hands has been taken. -/
  taken : ∀ id c, (s.pool.workers id).inHand = some c → c ∈ s.pool.dequeued
  /-- A call has begun only for a connection that has been taken, and of the queue object it asks for. -/
  begun : ∀ k c, (s.queues k).calls c ≠ .idle → c ∈ s.pool.dequeued ∧ ∃ method, setup.asks c = some ⟨k, method⟩
  /-- A connection that has been taken and that no worker has in its hands has been served. -/
  served : ∀ c ∈ s.pool.dequeued, (∀ id, (s.pool.workers id).inHand ≠ some c) → s.Served setup c

/-- The `ConnectionInvariant` holds at the start, when there are no connections. -/
theorem ConnectionInvariant.init : ConnectionInvariant setup (State.init setup) := by
  refine ⟨rfl, fun id c hc => ?_, fun k c hc => absurd rfl hc, fun c hc => ?_⟩
  · have hempty := congrFun (congrArg WorkQueue.hands (Pool.workQueue_init setup.limits)) id
    have hc : (Pool.State.init setup.limits).workQueue.hands id = some c := hc
    rw [hempty] at hc
    cases hc
  · simp [State.init, Pool.State.init] at hc

/-- A connection whose calls have not moved is served exactly when it was. -/
theorem served_congr {c : Task} (hcalls : ∀ k, (s'.queues k).calls c = (s.queues k).calls c) :
    s'.Served setup c ↔ s.Served setup c := by
  simp only [State.Served, hcalls]

/-- A step of the pool keeps the `ConnectionInvariant` when it ends only tasks that have been served. -/
theorem ConnectionInvariant.pool_step {pool : Pool.State} {b : Pool.Action} {ids : List MsgId} {msgIndex : UInt64}
    (hi : ConnectionInvariant setup s) (hpool : Pool.step setup.ndebug setup.limits s.pool b = some pool)
    (htasks : pool.accepted = List.range ids.length)
    (hends : ∀ id, b = .busyDown id → ∀ c ∈ running (s.pool.workers id), s.Served setup c) :
    ConnectionInvariant setup { s with msgIndex, ids, pool } := by
  rcases Pool.inHand_cases hpool with ⟨hdequeued, hhands⟩ | ⟨id, task, hempty, hdequeued, hhands⟩ |
    ⟨id, type, task, hb, hw, hdequeued, hhands⟩
  · refine ⟨htasks, fun id c hc => ?_, fun k c hc => ?_, fun c hc hfree => ?_⟩
    · rw [hdequeued]
      exact hi.taken id c (hhands id ▸ hc)
    · rw [hdequeued]
      exact hi.begun k c hc
    · rw [hdequeued] at hc
      exact hi.served c hc fun id => hhands id ▸ hfree id
  · refine ⟨htasks, fun id' c hc => ?_, fun k c hc => ?_, fun c hc hfree => ?_⟩
    · rw [hdequeued]
      have hc : (pool.workers id').inHand = some c := hc
      rw [hhands] at hc
      split at hc
      · obtain rfl := Option.some.inj hc
        exact List.mem_append_right _ (List.mem_singleton_self _)
      · exact List.mem_append_left _ (hi.taken id' c hc)
    · rw [hdequeued]
      exact (hi.begun k c hc).imp_left (List.mem_append_left _)
    · have hhand (id' : ThreadId) : (s.pool.workers id').inHand ≠ some c := by
        have hfree : (pool.workers id').inHand ≠ some c := hfree id'
        rw [hhands] at hfree
        split at hfree
        · rename_i hid
          rw [hid, hempty]
          simp
        · exact hfree
      rw [hdequeued] at hc
      rcases List.mem_append.mp hc with hc | hc
      · exact hi.served c hc hhand
      · -- The task that has just been taken is in the hands of the worker.
        obtain rfl := List.mem_singleton.mp hc
        exact absurd ((hhands id).trans (if_pos rfl)) (hfree id)
  · refine ⟨htasks, fun id' c hc => ?_, fun k c hc => ?_, fun c hc hfree => ?_⟩
    · rw [hdequeued]
      have hc : (pool.workers id').inHand = some c := hc
      rw [hhands] at hc
      split at hc
      · cases hc
      · exact hi.taken id' c hc
    · rw [hdequeued]
      exact hi.begun k c hc
    · rw [hdequeued] at hc
      by_cases htask : c = task
      · subst htask
        exact hends id hb c (by rw [hw]; rfl)
      · refine hi.served c hc fun id' => ?_
        by_cases hid : id' = id
        · rw [hid, hw]
          simp [Pool.Worker.inHand, Ne.symm htask]
        · have hfree : (pool.workers id').inHand ≠ some c := hfree id'
          rwa [hhands, if_neg hid] at hfree

/-- A step of a call moves the call that it belongs to, and no other. -/
theorem calls_setQueue [DecidableEq κ] {k : κ} {b : SyncQueue.Action} {queue : SyncQueue.State}
    (hqueue : SyncQueue.step (setup.limitSize k) (s.queues k) b = some queue) {k' : κ} {c : Task}
    (hne : c ≠ b.call ∨ k' ≠ k) : ((s.setQueue k queue).queues k').calls c = (s.queues k').calls c := by
  obtain ⟨call, -, hcalls⟩ := SyncQueue.calls_step hqueue
  rw [State.queues_setQueue]
  by_cases hk : k' = k
  · subst hk
    rw [Function.update_self, hcalls, Function.update_of_ne (hne.resolve_right (fun h => h rfl))]
  · rw [Function.update_of_ne hk]

/-- A worker that runs a task has it in its hands. -/
theorem inHand_of_running {worker : Pool.Worker} {c : Task} (h : running worker = some c) :
    worker.inHand = some c := by
  cases worker <;> simp_all [running, Pool.Worker.inHand]

/-- A step of a worker in a call keeps the `ConnectionInvariant`. -/
theorem ConnectionInvariant.call_step [DecidableEq κ] {id : ThreadId} {result : ReplyResult} {k : κ}
    {b : SyncQueue.Action} {queue : SyncQueue.State} (hi : ConnectionInvariant setup s)
    (hnext : s.nextStep setup id result = some (k, b))
    (hqueue : SyncQueue.step (setup.limitSize k) (s.queues k) b = some queue) :
    ConnectionInvariant setup (s.setQueue k queue) := by
  obtain ⟨c, method, mid, hrunning, hasks, -, hstep⟩ := nextStep_eq_some.mp hnext
  obtain ⟨rfl, -⟩ := Method.makes_of_next hstep
  have hhand := inHand_of_running hrunning
  refine ⟨hi.tasks, hi.taken, fun k' c' hbegun => ?_, fun c' hc' hfree => ?_⟩
  · by_cases hsame : c' = b.call ∧ k' = k
    · obtain ⟨rfl, rfl⟩ := hsame
      exact ⟨hi.taken id _ hhand, method, hasks⟩
    · rw [calls_setQueue hqueue (not_and_or.mp hsame)] at hbegun
      exact hi.begun k' c' hbegun
  · have hne : c' ≠ b.call := by
      rintro rfl
      exact hfree id hhand
    exact (served_congr fun k' => calls_setQueue hqueue (Or.inl hne)).mpr (hi.served c' hc' hfree)

variable [DecidableEq κ]

/-- Every step of the bus keeps the `ConnectionInvariant`. -/
theorem ConnectionInvariant.preserved (hi : ConnectionInvariant setup s) (hs : step setup s a = some s') :
    ConnectionInvariant setup s' := by
  cases a with
  | accept time =>
      obtain ⟨⟨-, hyet⟩, pool, hpool, rfl⟩ := step_accept_eq_some.mp hs
      refine hi.pool_step hpool ?_ (fun id hid => by cases hid)
      rw [(Pool.logs_step hpool).1, hi.tasks, Pool.shows, if_pos hyet]
      simp [List.range_succ]
  | pool b =>
      obtain ⟨⟨-, hallows⟩, pool, hpool, rfl⟩ := step_pool_eq_some.mp hs
      refine hi.pool_step hpool ?_ (fun id hid => by subst hid; exact hallows)
      rw [(Pool.logs_step hpool).1, ← hi.tasks]
      rcases Pool.shows_cases hpool with hshows | ⟨p, task, rfl, -⟩ | ⟨id, task, hshows⟩ |
        ⟨id, type, task, -, -, hshows⟩
      · simp [hshows]
      · exact hallows.elim
      · simp [hshows]
      · simp [hshows]
  | call id result =>
      obtain ⟨-, k, b, queue, hnext, hqueue, rfl⟩ := step_call_eq_some.mp hs
      exact hi.call_step hnext hqueue

/-- The `ConnectionInvariant` holds after every run of the bus. -/
theorem connectionInvariant_of_exec (hexec : (machine setup).exec (State.init setup) as = some s) :
    ConnectionInvariant setup s :=
  Machine.exec_invariant (M := machine setup) (fun _ _ _ hi hs => ConnectionInvariant.preserved hi hs) as
    ConnectionInvariant.init hexec

/-- What the workers have done in a run, as events of a work queue. -/
def workHistory (setup : Setup κ) (as : List Action) : List (Event ThreadId Task) :=
  Pool.history setup.ndebug setup.limits (poolSteps setup as)

/-- After every run of the bus, each connection has one of the three fates of an item of the work queue. -/
theorem fate_of_connection (hexec : (machine setup).exec (State.init setup) as = some s) {c : Task}
    (hc : c < s.ids.length) : Fate (workHistory setup as) s.pool.workQueue c := by
  obtain ⟨haccepted, -, horderly⟩ := Pool.orderly_history (exec_poolSteps hexec)
  rw [(connectionInvariant_of_exec hexec).tasks] at haccepted
  refine fate_of_orderly horderly ?_ ?_
  · rw [haccepted]
    exact List.nodup_range
  · rw [haccepted]
    exact List.mem_range.mpr hc

/-- The connections that have left `PoolTasks` are those that a worker has taken. -/
theorem mem_dequeued_iff (hexec : (machine setup).exec (State.init setup) as = some s) {c : Task} :
    c ∈ s.pool.dequeued ↔ ∃ w, c ∈ takesBy w (workHistory setup as) := by
  rw [← (Pool.orderly_history (exec_poolSteps hexec)).2.1]
  exact ⟨exists_mem_takesBy, fun ⟨w, hw⟩ => (takesBy_sublist_takes w _).subset hw⟩

/-- A connection that a worker has finished has been served. -/
theorem served_of_finished (hexec : (machine setup).exec (State.init setup) as = some s) {c : Task}
    {w : ThreadId} (hc : c < s.ids.length) (hw : c ∈ finishesBy w (workHistory setup as)) :
    s.Served setup c := by
  have hagents := (Pool.orderly_history (exec_poolSteps hexec)).2.2.2 w
  have htaken : c ∈ takesBy w (workHistory setup as) := by
    rw [workHistory, hagents]
    exact List.mem_append_left _ hw
  cases fate_of_connection hexec hc with
  | waits _ hnone => exact absurd htaken (hnone w)
  | held w' _ _ _ hunfinished => exact absurd hw (hunfinished w)
  | finished w' _ _ hhands _ =>
      exact (connectionInvariant_of_exec hexec).served c ((mem_dequeued_iff hexec).mpr ⟨w, htaken⟩) hhands

/-- After every run of the bus, whatever the interleaving and whatever becomes of the replies: each connection
is in `PoolTasks`, or the one worker that took it has it in its hands, or the one worker that took it has
finished it, once. The queue objects see nothing of it while it is in `PoolTasks`, the ones that it does not
ask for never do, and the one that it asks for has seen all of it when it is finished. -/
theorem connection_fate_of_exec (hexec : (machine setup).exec (State.init setup) as = some s) (c : Task)
    (hc : c < s.ids.length) :
    Fate (workHistory setup as) s.pool.workQueue c ∧
      (∀ k, (s.queues k).calls c ≠ .idle →
        c ∉ s.pool.pool.poolTasks ∧ ∃ method, setup.asks c = some ⟨k, method⟩) ∧
      ((∃ id, c ∈ finishesBy id (workHistory setup as)) → s.Served setup c) := by
  have hfate := fate_of_connection hexec hc
  refine ⟨hfate, fun k hbegun => ?_, fun ⟨w, hw⟩ => served_of_finished hexec hc hw⟩
  obtain ⟨htaken, hasks⟩ := (connectionInvariant_of_exec hexec).begun k c hbegun
  refine ⟨fun hwaits => ?_, hasks⟩
  obtain ⟨w, hw⟩ := (mem_dequeued_iff hexec).mp htaken
  cases hfate with
  | waits _ hnone => exact hnone w hw
  | held _ hline _ _ _ => exact hline hwaits
  | finished _ hline _ _ _ => exact hline hwaits

/-- After `putGetPost` each of the three connections has one of the three fates. -/
theorem connection_fate_of_exec_three : ∃ s,
    (machine oneChannel).exec (State.init oneChannel) putGetPost = some s ∧
      ∀ c < 3, Fate (workHistory oneChannel putGetPost) s.pool.workQueue c := by
  obtain ⟨s, hexec, hids, -⟩ := exec_putGetPost
  exact ⟨s, hexec, fun c hc => (connection_fate_of_exec hexec c (hids ▸ hc)).1⟩

/-! ### Messages -/

/-- The connection that the request of a message came with. -/
def clientOf (setup : Setup κ) (k : κ) (as : List Action) (request : IRequest) : Option Task :=
  ((SyncQueue.putCalls (queueSteps setup k as))[request.conn]?).map Prod.fst

variable {k : κ}

/-- In every run of the bus with at most `2 ^ 32` connections, whatever the interleaving, what a request has
passed on to a client is the content of a `POST`, and the client is the one connection whose id the `POST`
names: its request was a `PUT` to the same queue object, and it waits, so that it has had no answer of its
own. -/
theorem forward_reaches_client (hexec : (machine setup).exec (State.init setup) as = some s)
    (hfew : s.ids.length ≤ 2 ^ 32) {d : Task} {r : IRequest} (hforward : (d, r) ∈ (s.queues k).forwards) :
    ∃ c, clientOf setup k as r = some c ∧ setup.asks d = some ⟨k, .post r.msgId⟩ ∧
      setup.asks c = some ⟨k, .put⟩ ∧ (s.queues k).calls c = .stored ∧
      ∀ c', s.ids[c']? = some r.msgId ↔ c' = c := by
  have hclients := SyncQueue.clientInvariant_of_exec (exec_queueSteps k hexec) (nodup_puts hexec hfew k)
  obtain ⟨c, hclient, hwaits, hnames⟩ := hclients.client_of_forward hforward
  obtain ⟨hasks, hid⟩ := asks_of_putCalls hexec (List.mem_of_getElem? hclient)
  obtain ⟨method, mid, hasksd, -, hmakes⟩ := (askedFor_of_exec hexec _ hnames).request
  obtain rfl : method = .post r.msgId := hmakes
  refine ⟨c, by rw [clientOf, hclient]; rfl, hasksd, hasks, hwaits, fun c' => ⟨fun hc' => ?_, fun hc' => ?_⟩⟩
  · obtain ⟨hlt, -⟩ := List.getElem?_eq_some_iff.mp hc'
    exact (List.getElem?_inj hlt (nodup_ids hexec hfew)).mp (hc'.trans hid.symm)
  · rw [hc', hid]

/-- After `putGetPost` the reply of the third connection has been passed on to the first one, whose `PUT` it names. -/
theorem forward_reaches_client_one : ∃ s,
    (machine oneChannel).exec (State.init oneChannel) putGetPost = some s ∧
      ∃ c, clientOf oneChannel () putGetPost ⟨0, 4294967296⟩ = some c ∧
        oneChannel.asks c = some ⟨(), .put⟩ ∧ (s.queues ()).calls c = .stored := by
  obtain ⟨s, hexec, hids, -, hforward⟩ := exec_putGetPost
  obtain ⟨c, hclient, -, hasks, hwaits, -⟩ := forward_reaches_client hexec (by omega) hforward
  exact ⟨s, hexec, c, hclient, hasks, hwaits⟩

/-- A connection that asks for `Put`, and whose call has begun, is among the calls of `Put`. -/
theorem mem_putCalls_of_asks (hexec : (machine setup).exec (State.init setup) as = some s) {c : Task}
    (hasks : setup.asks c = some ⟨k, .put⟩) (hbegun : (s.queues k).calls c ≠ .idle) :
    ∃ x, (c, x) ∈ SyncQueue.putCalls (queueSteps setup k as) := by
  obtain ⟨a, ha, rfl, hbegins⟩ := (SyncQueue.callsInvariant_of_exec (exec_queueSteps k hexec)).first c hbegun
  obtain ⟨method, mid, hasks', -, hmakes⟩ := (askedFor_of_exec hexec a ha).request
  obtain rfl : method = .put := by
    rw [hasks'] at hasks
    simpa using hasks
  cases a with
  | put c id => exact ⟨id, List.mem_filterMap.mpr ⟨_, ha, rfl⟩⟩
  | get c => cases hmakes
  | postLookup c xid => cases hmakes
  | getReply c result => exact hbegins.elim
  | postForward c result => exact hbegins.elim
  | postErase c => exact hbegins.elim

/-- In every run of the bus with at most `2 ^ 32` connections, whatever the interleaving, whatever the `POST`
requests name and whatever becomes of the replies, a `PUT` that has begun ends in one of two ways. Its client
waits, and the message is stored under the id of the connection until a `POST` has delivered a reply to this
client. Or it answers 507, and then the message is neither queued nor stored, and nothing is ever passed on
to this client. -/
theorem put_ends_of_exec (hexec : (machine setup).exec (State.init setup) as = some s)
    (hfew : s.ids.length ≤ 2 ^ 32) {c : Task} (hasks : setup.asks c = some ⟨k, .put⟩)
    (hbegun : (s.queues k).calls c ≠ .idle) :
    ∃ x, s.ids[c]? = some x ∧
      (((s.queues k).calls c = .stored ∧ ∃ r, clientOf setup k as r = some c ∧
          ((s.queues k).handler.mqMessages.find x = some r ∨
            r ∈ SyncQueue.deliveries (setup.limitSize k) (queueSteps setup k as))) ∨
        ((s.queues k).calls c = .answering 507 ∧ x ∉ (s.queues k).handler.mqQueue ∧
          x ∉ (s.queues k).handler.mqMessages ∧
          ∀ d r, (d, r) ∈ (s.queues k).forwards → clientOf setup k as r ≠ some c)) := by
  have hqueue := exec_queueSteps k hexec
  have hnodup := nodup_puts hexec hfew k
  have hclients := SyncQueue.clientInvariant_of_exec hqueue hnodup
  obtain ⟨x, hput⟩ := mem_putCalls_of_asks hexec hasks hbegun
  obtain ⟨-, hid⟩ := asks_of_putCalls hexec hput
  refine ⟨x, hid, ?_⟩
  rcases hclients.outcome c x hput with ⟨hwaits, -⟩ | ⟨hrefused, hout⟩
  · obtain ⟨n, y, hclient, hkept⟩ := SyncQueue.kept_of_waiting hqueue hnodup hwaits
    obtain ⟨-, hid'⟩ := asks_of_putCalls hexec (List.mem_of_getElem? hclient)
    obtain rfl : x = y := Option.some.inj (hid.symm.trans hid')
    exact Or.inl ⟨hwaits, ⟨n, x⟩, by rw [clientOf, hclient]; rfl, hkept⟩
  · refine Or.inr ⟨hrefused, fun hqueued => ?_, fun hstored => hout (hclients.stored x hstored), fun d r hd => ?_⟩
    · have horder := SyncQueue.orderInvariant_of_exec hqueue hnodup
      have hinOrder := horder.inOrder
      unfold InOrder at hinOrder
      rw [hinOrder] at hout
      exact hout (List.mem_append_right _ hqueued)
    · obtain ⟨c', hclient, hwaits, -⟩ := hclients.client_of_forward hd
      rw [clientOf, hclient]
      rintro heq
      obtain rfl : c' = c := Option.some.inj heq
      exact absurd (hwaits.symm.trans hrefused) (by simp)

/-- After `putGetPost` the `PUT` of the first connection, which has begun, has ended in one of the two ways. -/
theorem put_ends_of_exec_one : ∃ s,
    (machine oneChannel).exec (State.init oneChannel) putGetPost = some s ∧
      ∃ x, s.ids[0]? = some x ∧
        (((s.queues ()).calls 0 = .stored ∧ ∃ r, clientOf oneChannel () putGetPost r = some 0 ∧
            ((s.queues ()).handler.mqMessages.find x = some r ∨
              r ∈ SyncQueue.deliveries 0 (queueSteps oneChannel () putGetPost))) ∨
          ((s.queues ()).calls 0 = .answering 507 ∧ x ∉ (s.queues ()).handler.mqQueue ∧
            x ∉ (s.queues ()).handler.mqMessages ∧
            ∀ d r, (d, r) ∈ (s.queues ()).forwards → clientOf oneChannel () putGetPost r ≠ some 0)) := by
  obtain ⟨s, hexec, hids, hcall, -⟩ := exec_putGetPost
  have hasks : oneChannel.asks 0 = some ⟨(), .put⟩ := by decide +kernel
  have hbegun : (s.queues ()).calls 0 ≠ .idle := by simp [hcall]
  exact ⟨s, hexec, put_ends_of_exec hexec (by omega) hasks hbegun⟩

end Bus

end NavekFiber
