import NavekFiber.Main.BusMessages
import NavekFiber.Mt.ThreadPoolService

/-! # The bus serves every connection

A connection needs a few steps of the workers: one takes it, counts itself busy, makes the call of the queue
object, of at most three steps, and is free again. So the steps that the workers have before them can be
counted, each of them takes one off, and only a new connection brings new ones. And while the process runs
there is always a worker that can take one.

* `Bus.State.stepsLeft`: the steps before the workers.
* `serves_of_exec`: the bound for every run, and a run that serves every connection. -/

namespace NavekFiber

namespace SyncQueue

/-- The number of steps that a call of a queue object has before it. -/
def Call.stepsLeft : Call → ℕ
  | .idle => 3
  | .forwarding _ _ => 2
  | .delivering _ _ | .forwarded _ _ => 1
  | .stored | .unsent _ _ | .answering _ | .threw => 0

/-- Each step of a queue object lowers `Call.stepsLeft` of the call that it belongs to. -/
theorem stepsLeft_step {limitSize : ℕ} {s s' : State} {a : Action} (hs : step limitSize s a = some s') :
    (s'.calls a.call).stepsLeft < (s.calls a.call).stepsLeft := by
  cases a with
  | put c id =>
      obtain ⟨hidle, rfl⟩ := step_put_eq_some.mp hs
      simp only [Action.call, State.afterPut, Function.update_self, hidle]
      split <;> simp [Call.stepsLeft]
  | get c =>
      obtain ⟨hidle, rfl⟩ := step_get_eq_some.mp hs
      simp only [Action.call, State.afterGet, Function.update_self, hidle]
      split <;> simp [Call.stepsLeft]
  | getReply c result =>
      obtain ⟨⟨muid, xrequest, hcall⟩, rfl⟩ := step_getReply_eq_some.mp hs
      simp only [Action.call, State.afterGetReply, Function.update_self, hcall]
      split <;> simp [Call.stepsLeft]
  | postLookup c xid =>
      obtain ⟨hidle, rfl⟩ := step_postLookup_eq_some.mp hs
      simp only [Action.call, State.afterPostLookup, Function.update_self, hidle]
      split <;> simp [Call.stepsLeft]
  | postForward c result =>
      obtain ⟨xid, xrequest, hcall, rfl⟩ := step_postForward_eq_some.mp hs
      simp only [Action.call, State.afterPostForward, Function.update_self, hcall]
      split <;> simp [Call.stepsLeft]
  | postErase c =>
      obtain ⟨xid, xrequest, hcall, rfl⟩ := step_postErase_eq_some.mp hs
      simp [Action.call, State.afterPostErase, hcall, Call.stepsLeft]

end SyncQueue

namespace Bus

open WorkQueue

variable {κ : Type} {setup : Setup κ} {s s' : State κ} {as : List Action} {a : Action} {k : κ}

/-- A step of the bus is one of a worker that serves a connection. -/
def Action.serves : Action → Bool
  | .accept _ => false
  | .pool a => a.counts
  | .call _ _ => true

/-- A step of the bus is one of a worker whose replies are delivered. -/
def Action.OfWorker : Action → Prop
  | .accept _ => False
  | .pool a => a.worker.isSome = true
  | .call _ result => result = .delivered

/-- The number of steps that the request of a connection has before it in the queue objects. -/
def State.requestLeft (setup : Setup κ) (s : State κ) (c : Task) : ℕ :=
  ((setup.asks c).map fun request => ((s.queues request.queue).calls c).stepsLeft).getD 0

/-- The number of steps that the workers have before them. -/
def State.stepsLeft (setup : Setup κ) (s : State κ) : ℕ := s.pool.service 3 (s.requestLeft setup)

/-- A request has at most three steps in the queue objects. -/
theorem requestLeft_le (setup : Setup κ) (s : State κ) (c : Task) : s.requestLeft setup c ≤ 3 := by
  unfold State.requestLeft
  cases setup.asks c with
  | none => simp
  | some request =>
      simp only [Option.map_some, Option.getD_some]
      cases (s.queues request.queue).calls c <;> simp [SyncQueue.Call.stepsLeft]

variable [DecidableEq κ]

/-- A step of a worker in a call lowers `State.stepsLeft`. -/
theorem stepsLeft_call {id : ThreadId} {result : ReplyResult} {b : SyncQueue.Action} {queue : SyncQueue.State}
    (hreg : Pool.Registered s.pool) (hnext : s.nextStep setup id result = some (k, b))
    (hqueue : SyncQueue.step (setup.limitSize k) (s.queues k) b = some queue) :
    (s.setQueue k queue).stepsLeft setup < s.stepsLeft setup := by
  obtain ⟨c, method, mid, hrunning, hasks, -, hstep⟩ := nextStep_eq_some.mp hnext
  obtain ⟨rfl, -⟩ := Method.makes_of_next hstep
  obtain ⟨type, hw⟩ : ∃ type, s.pool.workers id = .running type b.call := by
    cases hw : s.pool.workers id <;> simp_all [running]
  have hid : id ∈ s.pool.pool.poolWorkers := hreg.live id (by rw [hw]; rfl)
  have hless : (s.setQueue k queue).requestLeft setup b.call < s.requestLeft setup b.call := by
    simpa [State.requestLeft, hasks] using SyncQueue.stepsLeft_step hqueue
  have hle (c : Task) : (s.setQueue k queue).requestLeft setup c ≤ s.requestLeft setup c := by
    by_cases hc : c = b.call
    · exact hc ▸ hless.le
    · refine le_of_eq ?_
      simp only [State.requestLeft, calls_setQueue hqueue (Or.inl hc)]
  refine Nat.add_lt_add_left (Finset.sum_lt_sum (fun id' _ => ?_) ⟨id, hid, ?_⟩) _
  · have hsame : (s.setQueue k queue).pool.workers id' = s.pool.workers id' := rfl
    rw [hsame]
    cases s.pool.workers id' with
    | running type c => exact Nat.add_le_add_right (hle c) 1
    | _ => exact Nat.le_refl _
  · have hsame : (s.setQueue k queue).pool.workers id = s.pool.workers id := rfl
    rw [hsame, hw]
    exact Nat.add_lt_add_right hless 1

/-- Every step of a worker that serves a connection is paid for out of `State.stepsLeft`, and so is its taking the
connection; a connection that is accepted brings six new steps. -/
theorem stepsLeft_step (hi : ConnectionInvariant setup s) (hreg : Pool.Registered s.pool)
    (hs : step setup s a = some s') :
    a.serves.toNat + (s'.stepsLeft setup + s'.pool.dequeued.length) + 6 * s.ids.length ≤
      s.stepsLeft setup + s.pool.dequeued.length + 6 * s'.ids.length := by
  have hlength := congrArg List.length hi.tasks
  have hlength' := congrArg List.length (hi.preserved hs).tasks
  rw [List.length_range] at hlength hlength'
  cases a with
  | accept time =>
      obtain ⟨-, pool, hpool, rfl⟩ := step_accept_eq_some.mp hs
      have hpaid := Pool.service_step (B := 3) (requestLeft_le setup s) hreg hpool
      rw [hlength] at hpaid
      exact hlength' ▸ hpaid
  | pool b =>
      obtain ⟨-, pool, hpool, rfl⟩ := step_pool_eq_some.mp hs
      have hpaid := Pool.service_step (B := 3) (requestLeft_le setup s) hreg hpool
      rw [hlength] at hpaid
      exact hlength' ▸ hpaid
  | call id result =>
      obtain ⟨-, k, b, queue, hnext, hqueue, rfl⟩ := step_call_eq_some.mp hs
      have hless := stepsLeft_call hreg hnext hqueue
      have hpool : (s.setQueue k queue).pool = s.pool := rfl
      have hids : (s.setQueue k queue).ids = s.ids := rfl
      rw [hpool, hids, Action.serves, Bool.toNat_true]
      omega

/-- A step of the bus gives no connection back that has been taken. -/
theorem dequeued_step (hs : step setup s a = some s') : s.pool.dequeued <+: s'.pool.dequeued := by
  obtain ⟨pool, hpool, rfl⟩ := (refinesPool setup).step rfl trivial hs
  refine Machine.exec_invariant (M := Pool.machine setup.ndebug setup.limits)
    (I := fun pool => s.pool.dequeued <+: pool.dequeued) (fun pool b pool' hi hb => ?_) _
    (List.prefix_refl _) hpool
  rw [(Pool.logs_step hb).2]
  exact hi.trans (List.prefix_append _ _)

omit [DecidableEq κ] in
/-- While the request of a connection is not served, its call has a next step, and the queue object can take it. -/
theorem exists_next {c : Task} (hserved : ¬ s.Served setup c) (mid : MsgId) (result : ReplyResult) :
    ∃ k method b, setup.asks c = some ⟨k, method⟩ ∧
      method.next c mid result ((s.queues k).calls c) = some b ∧
      ∀ limitSize, ∃ queue, SyncQueue.step limitSize (s.queues k) b = some queue := by
  simp only [State.Served, Option.mem_def, not_forall] at hserved
  obtain ⟨⟨k, method⟩, hasks, hleft⟩ := hserved
  refine ⟨k, method, ?_⟩
  cases hcall : (s.queues k).calls c with
  | idle =>
      refine ⟨_, hasks, rfl, fun limitSize => ?_⟩
      cases method with
      | get => exact ⟨_, SyncQueue.step_get_eq_some.mpr ⟨hcall, rfl⟩⟩
      | put => exact ⟨_, SyncQueue.step_put_eq_some.mpr ⟨hcall, rfl⟩⟩
      | post xid => exact ⟨_, SyncQueue.step_postLookup_eq_some.mpr ⟨hcall, rfl⟩⟩
  | delivering muid xrequest =>
      exact ⟨_, hasks, rfl, fun limitSize => ⟨_, SyncQueue.step_getReply_eq_some.mpr ⟨⟨muid, xrequest, hcall⟩, rfl⟩⟩⟩
  | forwarding xid xrequest =>
      exact ⟨_, hasks, rfl, fun limitSize => ⟨_, SyncQueue.step_postForward_eq_some.mpr ⟨xid, xrequest, hcall, rfl⟩⟩⟩
  | forwarded xid xrequest =>
      exact ⟨_, hasks, rfl, fun limitSize => ⟨_, SyncQueue.step_postErase_eq_some.mpr ⟨xid, xrequest, hcall, rfl⟩⟩⟩
  | stored => exact absurd (congrArg hasReturned hcall) hleft
  | unsent xrequest code => exact absurd (congrArg hasReturned hcall) hleft
  | answering code => exact absurd (congrArg hasReturned hcall) hleft
  | threw => exact absurd (congrArg hasReturned hcall) hleft

/-- A bus whose process runs, whose pool has not been stopped, and which is in order. -/
structure Serving (setup : Setup κ) (s : State κ) : Prop where
  /-- Connections are where they should be. -/
  connections : ConnectionInvariant setup s
  /-- Tasks are taken in order. -/
  inOrder : InOrder s.pool.accepted s.pool.dequeued s.pool.pool.poolTasks
  /-- Live threads are registered. -/
  registered : Pool.Registered s.pool
  /-- `PoolYet` is set. -/
  yet : s.pool.pool.poolYet = true
  /-- The process runs. -/
  runs : s.Runs
  /-- The persistent workers are there. -/
  persistent : ∀ id < setup.limits.poolInitWorkers.toNat, (s.pool.workers id).type = some .persistent

/-- No worker has a task and none waits for one. -/
def State.AtRest (s : State κ) : Prop :=
  s.pool.pool.poolTasks = [] ∧ ∀ id, (s.pool.workers id).inHand = none

/-- A step of a worker keeps the bus `Serving`, and accepts no connection. -/
theorem Serving.preserved (hi : Serving setup s) (ha : a.OfWorker) (hs : step setup s a = some s') :
    Serving setup s' ∧ s'.ids = s.ids := by
  have hconnections := hi.connections.preserved hs
  cases a with
  | accept time => exact ha.elim
  | pool b =>
      obtain ⟨-, pool, hpool, rfl⟩ := step_pool_eq_some.mp hs
      obtain ⟨id, hid⟩ := Option.isSome_iff_exists.mp ha
      obtain ⟨hyet, haborted, -⟩ := Pool.keeps_step hid hpool
      refine ⟨⟨hconnections, Pool.inOrder_step hi.inOrder hpool, hi.registered.preserved hpool, hyet.trans hi.yet,
        haborted.trans hi.runs, fun id hid => ?_⟩, rfl⟩
      exact Pool.persistent_step (hyet.trans hi.yet) (hi.persistent id hid) hpool
  | call id result =>
      obtain ⟨-, k, b, queue, -, -, rfl⟩ := step_call_eq_some.mp hs
      exact ⟨⟨hconnections, hi.inOrder, hi.registered, hi.yet, hi.runs, hi.persistent⟩, rfl⟩

omit [DecidableEq κ] in
/-- On a `Serving` bus, a connection that has been taken has an id. -/
theorem Serving.lt_of_taken {c : Task} (hi : Serving setup s) (hc : c ∈ s.pool.dequeued) : c < s.ids.length := by
  have hinOrder := hi.inOrder
  unfold InOrder at hinOrder
  rw [← List.mem_range, ← hi.connections.tasks, hinOrder]
  exact List.mem_append_left _ hc

/-- On a `Serving` bus, a worker with a task in its hands can take a step that serves it. -/
theorem Serving.exists_serving_step {c : Task} {id : ThreadId} (hi : Serving setup s)
    (hhand : (s.pool.workers id).inHand = some c) :
    ∃ a s', a.OfWorker ∧ a.serves = true ∧ step setup s a = some s' := by
  have hlt := hi.lt_of_taken (hi.connections.taken id c hhand)
  cases hw : s.pool.workers id with
  | taken type task =>
      obtain ⟨pool, hpool⟩ := Pool.exists_busyUp_step hi.runs hw
      exact ⟨.pool (.busyUp id), _, rfl, rfl, step_pool_eq_some.mpr ⟨⟨hi.runs, trivial⟩, pool, hpool, rfl⟩⟩
  | running type task =>
      obtain rfl : task = c := by simpa [hw, Pool.Worker.inHand] using hhand
      by_cases hserved : s.Served setup task
      · obtain ⟨pool, hpool⟩ := Pool.exists_busyDown_step hi.runs hw
        refine ⟨.pool (.busyDown id), _, rfl, rfl,
          step_pool_eq_some.mpr ⟨⟨hi.runs, fun c' hc' => ?_⟩, pool, hpool, rfl⟩⟩
        obtain rfl : task = c' := by simpa [hw, running] using hc'
        exact hserved
      · obtain ⟨k, method, b, hasks, hnext, henabled⟩ := exists_next hserved (s.ids[task]) .delivered
        obtain ⟨queue, hqueue⟩ := henabled (setup.limitSize k)
        refine ⟨.call id .delivered, _, rfl, rfl,
          step_call_eq_some.mpr ⟨hi.runs, k, b, queue, nextStep_eq_some.mpr ?_, hqueue, rfl⟩⟩
        exact ⟨task, method, s.ids[task], by rw [hw]; rfl, hasks, List.getElem?_eq_getElem hlt, hnext⟩
  | absent => cases hw ▸ hhand
  | waiting type => cases hw ▸ hhand
  | left => cases hw ▸ hhand
  | terminated => cases hw ▸ hhand

/-- As long as a `Serving` bus is not at rest, a worker can take a step that lowers `State.stepsLeft`. -/
theorem Serving.exists_lowering_step {ids : List MsgId} (hi : Serving setup s) (hids : s.ids = ids)
    (hwork : ¬ s.AtRest) :
    ∃ a s', a.OfWorker ∧ (machine setup).step s a = some s' ∧ (Serving setup s' ∧ s'.ids = ids) ∧
      s'.stepsLeft setup < s.stepsLeft setup := by
  by_cases hhands : ∃ id c, (s.pool.workers id).inHand = some c
  · obtain ⟨id, c, hhand⟩ := hhands
    obtain ⟨a, s', ha, hserves, hs⟩ := hi.exists_serving_step hhand
    obtain ⟨hi', hsame⟩ := hi.preserved ha hs
    have htaken := (dequeued_step hs).length_le
    have hpaid := stepsLeft_step hi.connections hi.registered hs
    rw [hserves, hsame, Bool.toNat_true] at hpaid
    exact ⟨a, s', ha, hs, ⟨hi', hsame.trans hids⟩, by omega⟩
  · have hempty (id : ThreadId) : (s.pool.workers id).inHand = none := by
      by_contra hsome
      obtain ⟨c, hc⟩ := Option.ne_none_iff_exists'.mp hsome
      exact hhands ⟨id, c, hc⟩
    obtain ⟨task, rest, htasks⟩ := List.exists_cons_of_ne_nil fun hnil => hwork ⟨hnil, hempty⟩
    -- There is at least one persistent worker.
    have hid : 0 < setup.limits.poolInitWorkers.toNat := setup.limits.init_pos
    obtain ⟨pool, hpool, hdequeued⟩ := Pool.exists_work_step setup.ndebug setup.limits hi.runs hi.yet
      htasks (hi.persistent 0 hid) (hempty 0)
    have hs : step setup s (.pool (.work 0)) = some { s with pool } :=
      step_pool_eq_some.mpr ⟨⟨hi.runs, trivial⟩, pool, hpool, rfl⟩
    obtain ⟨hi', hsame⟩ := hi.preserved (show (Action.pool (.work 0)).OfWorker from rfl) hs
    have hpaid := stepsLeft_step hi.connections hi.registered hs
    refine ⟨.pool (.work 0), _, rfl, hs, ⟨hi', hsame.trans hids⟩, ?_⟩
    simp only [hdequeued, List.length_append, List.length_singleton] at hpaid
    omega

end Bus

end NavekFiber
