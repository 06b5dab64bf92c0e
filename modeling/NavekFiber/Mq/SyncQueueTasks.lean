import NavekFiber.Machine.Simulation
import NavekFiber.Machine.WorkQueue
import NavekFiber.Mq.SyncQueueForwards
import NavekFiber.Mq.SyncQueueOrder

/-! # What becomes of a message of the queue class

As long as the ids of the `Put` requests are distinct and no `Post` erases an id that is still queued,
`SyncQueueHandler` is a work queue in which every message is an agent of its own: `Put` accepts it, `Get`
takes the first one in line and locks it, and the second section of `Post` finishes it. So an accepted
message is queued, or locked, or has been finished, and only once.

Without a condition on `Post`, and whatever becomes of the replies of `Get` and `Post`, no message is lost:
one that `Put` has accepted stays in `mq_messages` until a reply has been delivered to the client that put
it. -/

namespace NavekFiber

namespace SyncQueue

open SyncQueueHandler WorkQueue

variable {limitSize : ℕ} {s s' : State} {a : Action} {c : CallId}

/-- The work queue that the handler is: the queued ids, and each locked id in its own hands. -/
def State.workQueue (s : State) : WorkQueue MsgId MsgId :=
  ⟨s.handler.mqQueue, fun x => if x ∈ s.handler.mqLocked then some x else none⟩

/-- What a step of the handler shows: what it does to the messages, as events of a work queue. -/
def shows (limitSize : ℕ) (s : State) : Action → List (Event MsgId MsgId)
  | .put _ id => if (s.handler.putSection limitSize ⟨s.puts.length, id⟩).2 then [.accept id] else []
  | .get _ => (s.handler.mqQueue.head?.map fun muid => Event.take muid muid).toList
  | .postErase c =>
      match s.calls c with
      | .forwarded xid _ => if xid ∈ s.handler.mqLocked then [.finish xid xid] else []
      | _ => []
  | _ => []

/-- With one more id locked, this id is in its own hands and the others are where they were. -/
theorem hands_insert (locked : Finset MsgId) (muid : MsgId) :
    (fun x => if x ∈ insert muid locked then some x else none)
      = Function.update (fun x => if x ∈ locked then some x else none) muid (some muid) := by
  funext x
  by_cases hx : x = muid
  · subst hx
    simp
  · simp [hx]

/-- With an id unlocked, its hands are empty and the others are where they were. -/
theorem hands_erase (locked : Finset MsgId) (xid : MsgId) :
    (fun x => if x ∈ locked.erase xid then some x else none)
      = Function.update (fun x => if x ∈ locked then some x else none) xid none := by
  funext x
  by_cases hx : x = xid
  · subst hx
    simp
  · simp [hx]

/-- The section of `Get` takes the front id off the queue and locks it. -/
theorem getSection_of_cons {h : SyncQueueHandler} {muid : MsgId} {rest : List MsgId}
    (hqueue : h.mqQueue = muid :: rest) :
    h.getSection.1 = { h with mqQueue := rest, mqLocked := insert muid h.mqLocked } := by
  obtain ⟨queue, locked, messages⟩ := h
  subst hqueue
  cases hat : messages.lookup muid <;> simp [getSection, UnorderedMap.atKey, hat]

/-- What a step of a handler with the `Invariant` shows are steps of its work queue. -/
theorem workQueue_step (hi : Invariant s) (hfresh : FreshPut s a) (hs : step limitSize s a = some s') :
    (WorkQueue.machine MsgId MsgId).exec s.workQueue (shows limitSize s a) = some s'.workQueue := by
  cases a with
  | put c id =>
      obtain ⟨-, rfl⟩ := step_put_eq_some.mp hs
      -- Stored ids were put, so `emplace` cannot refuse a new one.
      have hnew : id ∉ s.handler.mqMessages := fun hmem => hfresh (hi.put id hmem)
      have hput := putSection_of_new limitSize ⟨s.puts.length, id⟩ hnew
      rw [shows, State.workQueue, State.workQueue, State.afterPut, hput]
      by_cases hroom : limitSize = 0 ∨ s.handler.mqQueue.length < limitSize
      · simp [hroom, Machine.exec, WorkQueue.machine, WorkQueue.step]
      · simp [hroom, Machine.exec]
  | get c =>
      obtain ⟨-, rfl⟩ := step_get_eq_some.mp hs
      cases hqueue : s.handler.mqQueue with
      | nil =>
          have hsame : s.handler.getSection.1 = s.handler := by simp [getSection, hqueue]
          simp [shows, State.workQueue, State.afterGet, hsame, hqueue, Machine.exec]
      | cons muid rest =>
          -- The front id is queued, hence not locked.
          have hfree := hi.consistent.disjoint muid (by simp [hqueue])
          rw [shows, State.workQueue, State.workQueue, State.afterGet, getSection_of_cons hqueue]
          simp only [hands_insert]
          simp [hqueue, hfree, Machine.exec, WorkQueue.machine, WorkQueue.step]
  | getReply c result =>
      obtain ⟨-, rfl⟩ := step_getReply_eq_some.mp hs
      rfl
  | postLookup c xid =>
      obtain ⟨-, rfl⟩ := step_postLookup_eq_some.mp hs
      rfl
  | postForward c result =>
      obtain ⟨xid, xrequest, -, rfl⟩ := step_postForward_eq_some.mp hs
      rfl
  | postErase c =>
      obtain ⟨xid, xrequest, hcall, rfl⟩ := step_postErase_eq_some.mp hs
      rw [shows, State.workQueue, State.workQueue, State.afterPostErase, postEraseSection]
      simp only [hands_erase]
      by_cases hlocked : xid ∈ s.handler.mqLocked
      · simp [hcall, hlocked, Machine.exec, WorkQueue.machine, WorkQueue.step]
      · -- Another `Post` has finished the message already.
        have hsame : Function.update (fun x => if x ∈ s.handler.mqLocked then some x else none) xid none
            = fun x => if x ∈ s.handler.mqLocked then some x else none := by
          refine Function.update_eq_self_iff.mpr ?_
          simp [hlocked]
        simp [hcall, hlocked, hsame, Machine.exec]

/-- The handler refines the work queue in the runs with distinct `Put` ids in which no `Post` erases an id
that is still queued. -/
def refinesWorkQueue (limitSize : ℕ) :
    Machine.Refinement (machine limitSize) (WorkQueue.machine MsgId MsgId)
      fun s a => FreshPut s a ∧ SparesQueued s a where
  Rel s q := Invariant s ∧ s.workQueue = q
  shows := shows limitSize
  init := ⟨Invariant.init, rfl⟩
  step := by
    rintro s q a s' ⟨hi, rfl⟩ ⟨hfresh, hspares⟩ hs
    refine ⟨_, workQueue_step hi hfresh hs, ⟨(hi.consistent_iff hfresh hs).mpr hspares, hi.put_step hs⟩, rfl⟩

/-- A step adds to the accepted ids what it shows as accepted. -/
theorem accepted_step (hs : step limitSize s a = some s') :
    s'.accepted = s.accepted ++ accepts (shows limitSize s a) := by
  cases a with
  | put c id =>
      obtain ⟨-, rfl⟩ := step_put_eq_some.mp hs
      rw [State.afterPut, shows]
      by_cases haccepted : (s.handler.putSection limitSize ⟨s.puts.length, id⟩).2 <;> simp [haccepted]
  | get c =>
      obtain ⟨-, rfl⟩ := step_get_eq_some.mp hs
      cases hqueue : s.handler.mqQueue <;> simp [shows, hqueue, State.afterGet]
  | getReply c result =>
      obtain ⟨-, rfl⟩ := step_getReply_eq_some.mp hs
      exact (List.append_nil _).symm
  | postLookup c xid =>
      obtain ⟨-, rfl⟩ := step_postLookup_eq_some.mp hs
      exact (List.append_nil _).symm
  | postForward c result =>
      obtain ⟨xid, xrequest, -, rfl⟩ := step_postForward_eq_some.mp hs
      exact (List.append_nil _).symm
  | postErase c =>
      obtain ⟨xid, xrequest, hcall, rfl⟩ := step_postErase_eq_some.mp hs
      by_cases hlocked : xid ∈ s.handler.mqLocked <;>
        simp [shows, hcall, hlocked, State.afterPostErase]

/-- The messages accepted, taken and finished in a run, event by event. -/
def history (limitSize : ℕ) (as : List Action) : List (Event MsgId MsgId) :=
  (machine limitSize).shown (shows limitSize) State.init as

/-- After every run, whatever the interleaving and whatever becomes of the replies, in which the ids of the
`Put` requests are distinct and no `Post` erases an id that is still queued: each accepted message is
queued and no `Get` has taken it, or it is locked and one `Get` has taken it, or one `Get` has taken it and
it has been finished once; and `mq_messages` holds just the messages of the first two kinds. -/
theorem request_fate_of_exec {as : List Action}
    (hmeets : (machine limitSize).Meets (fun s a => FreshPut s a ∧ SparesQueued s a) State.init as)
    (hexec : (machine limitSize).exec State.init as = some s) :
    (∀ x ∈ s.accepted, Fate (history limitSize as) s.workQueue x) ∧
      s.accepted = takes (history limitSize as) ++ s.handler.mqQueue ∧
      ∀ x, x ∈ s.handler.mqMessages ↔ x ∈ s.handler.mqQueue ∨ s.workQueue.hands x = some x := by
  obtain ⟨q, hq, hi, rfl⟩ := (refinesWorkQueue limitSize).exec as (refinesWorkQueue limitSize).init hmeets hexec
  have horderly : Orderly (history limitSize as) s.workQueue := orderly_of_exec hq
  have haccepted : accepts (history limitSize as) = s.accepted :=
    (Machine.log_eq_of_exec (M := machine limitSize) (fun _ _ _ hs => accepted_step hs) as hexec).symm
  have hnodup : (accepts (history limitSize as)).Nodup := by
    have hr := (Machine.ReachableUnder.init (M := machine limitSize)).exec as hmeets hexec
    have horder : OrderInvariant limitSize s :=
      hr.invariant OrderInvariant.init fun _ _ _ hi ha hs => hi.preserved ha.1 hs
    rw [haccepted]
    exact horder.sublist.nodup horder.nodup
  refine ⟨fun x hx => ?_, ?_, fun x => ?_⟩
  · rw [← haccepted] at hx
    exact fate_of_orderly horderly hnodup hx
  · rw [← haccepted]
    exact horderly.1
  · rw [hi.consistent.keys x]
    by_cases hlocked : x ∈ s.handler.mqLocked <;> simp [State.workQueue, hlocked]

/-- Of two messages, one is put, fetched and answered and a second one is locked: each has one of the three fates. -/
theorem request_fate_of_exec_two :
    ∃ s, (machine 0).exec State.init
        [.put 0 7, .put 1 8, .get 2, .postLookup 3 7, .postForward 3 .delivered, .get 4, .postErase 3] = some s ∧
      s.workQueue.hands 8 = some 8 ∧
      ∀ x ∈ [7, 8], Fate [.accept 7, .accept 8, .take 7 7, .take 8 8, .finish 7 7] s.workQueue x := by
  have hexec : (machine 0).exec State.init
      [.put 0 7, .put 1 8, .get 2, .postLookup 3 7, .postForward 3 .delivered, .get 4, .postErase 3] = some _ := rfl
  exact ⟨_, hexec, rfl, (request_fate_of_exec (by decide) hexec).1⟩

/-! ## No message is lost -/

/-- The requests whose clients a step delivers a reply to. -/
def delivers (s : State) : Action → List IRequest
  | .postForward c .delivered =>
      match s.calls c with
      | .forwarding _ xrequest => [xrequest]
      | _ => []
  | _ => []

/-- The requests whose clients the `Post` calls of a run have delivered a reply to, in order. -/
def deliveries (limitSize : ℕ) (as : List Action) : List IRequest :=
  (machine limitSize).shown delivers State.init as

/-- The request that a `Post` between its sections has found, and the id that it found it under. -/
def Call.found : Call → Option (MsgId × IRequest)
  | .forwarding xid xrequest | .forwarded xid xrequest => some (xid, xrequest)
  | _ => none

/-- A request is that of a `Put` with this id. -/
def State.Brought (s : State) (x : MsgId) (request : IRequest) : Prop :=
  request.msgId = x ∧ s.puts[request.conn]? = some x

/-- What holds after every run with distinct `Put` ids, with the deliveries made in it. -/
structure KeptInvariant (delivered : List IRequest) (s : State) : Prop where
  /-- A message is stored under the id of the `Put` that brought it. -/
  stored : ∀ x r, s.handler.mqMessages.find x = some r → s.Brought x r
  /-- The request that a `Post` has found was brought by a `Put` with the id that it found it under. -/
  found : ∀ c x r, (s.calls c).found = some (x, r) → s.Brought x r
  /-- A `Post` that is about to erase a message has delivered a reply to its client. -/
  forwarded : ∀ c x r, s.calls c = .forwarded x r → r ∈ delivered
  /-- Accepted ids were put. -/
  put : ∀ x ∈ s.accepted, x ∈ s.puts
  /-- An accepted message is stored, or a reply has been delivered to its client. -/
  kept : ∀ x ∈ s.accepted, ∀ r, s.Brought x r → s.handler.mqMessages.find x = some r ∨ r ∈ delivered

/-- The `KeptInvariant` holds of a fresh handler, which has accepted nothing. -/
theorem KeptInvariant.init : KeptInvariant [] State.init := by
  refine ⟨fun x r hx => ?_, fun c x r hc => ?_, fun c x r hc => ?_, fun x hx => ?_, fun x hx => ?_⟩
  · simp [State.init, UnorderedMap.find] at hx
  · simp [State.init, Call.found] at hc
  · simp [State.init] at hc
  · simp [State.init] at hx
  · simp [State.init] at hx

/-- A request that a `Put` has brought is still brought by it after another `Put`. -/
theorem State.Brought.push {x id : MsgId} {r : IRequest} (h : s.Brought x r) (hputs : s'.puts = s.puts ++ [id]) :
    s'.Brought x r := by
  refine ⟨h.1, ?_⟩
  rw [hputs, List.getElem?_append_left (List.getElem?_eq_some_iff.mp h.2).1]
  exact h.2

/-- With distinct `Put` ids, one id has been brought with one request only. -/
theorem State.Brought.unique {x : MsgId} {r r' : IRequest} (hnodup : s.puts.Nodup) (h : s.Brought x r)
    (h' : s.Brought x r') : r = r' := by
  obtain ⟨hid, hput⟩ := h
  obtain ⟨hid', hput'⟩ := h'
  obtain ⟨conn, msgId⟩ := r
  obtain ⟨conn', msgId'⟩ := r'
  have hconn : conn = conn' := by
    obtain ⟨hlt, hx⟩ := List.getElem?_eq_some_iff.mp hput
    obtain ⟨hlt', hx'⟩ := List.getElem?_eq_some_iff.mp hput'
    exact (List.Nodup.getElem_inj_iff hnodup).mp (hx.trans hx'.symm)
  simp_all

/-- After one call has moved, what every call has found was brought by a `Put`, and what it has forwarded was
delivered. -/
theorem KeptInvariant.calls_update (now : List IRequest) {delivered : List IRequest} {call : Call}
    (hi : KeptInvariant delivered s) (hcalls : s'.calls = Function.update s.calls c call)
    (hbrought : ∀ x r, s.Brought x r → s'.Brought x r)
    (hfound : ∀ x r, call.found = some (x, r) → s'.Brought x r)
    (hforwarded : ∀ x r, call = .forwarded x r → r ∈ delivered ++ now) :
    (∀ c x r, (s'.calls c).found = some (x, r) → s'.Brought x r) ∧
      ∀ c x r, s'.calls c = .forwarded x r → r ∈ delivered ++ now := by
  refine ⟨fun c' x r hc => ?_, fun c' x r hc => ?_⟩
  · rw [hcalls] at hc
    by_cases heq : c' = c
    · subst heq
      rw [Function.update_self] at hc
      exact hfound x r hc
    · rw [Function.update_of_ne heq] at hc
      exact hbrought x r (hi.found c' x r hc)
  · rw [hcalls] at hc
    rcases update_eq_cases hc with ⟨-, hcall⟩ | ⟨-, hold⟩
    · exact hforwarded x r hcall
    · exact List.mem_append_left _ (hi.forwarded c' x r hold)

/-- A move of one call that neither puts nor erases a message keeps the `KeptInvariant`. -/
theorem KeptInvariant.move {delivered now : List IRequest} {call : Call} (hi : KeptInvariant delivered s)
    (hcalls : s'.calls = Function.update s.calls c call)
    (hmessages : s'.handler.mqMessages = s.handler.mqMessages) (hputs : s'.puts = s.puts)
    (haccepted : s'.accepted = s.accepted)
    (hfound : ∀ x r, call.found = some (x, r) → s.Brought x r)
    (hforwarded : ∀ x r, call = .forwarded x r → r ∈ delivered ++ now) :
    KeptInvariant (delivered ++ now) s' := by
  have hbrought (x : MsgId) (r : IRequest) : s'.Brought x r ↔ s.Brought x r := by
    rw [State.Brought, State.Brought, hputs]
  obtain ⟨hfound', hforwarded'⟩ := hi.calls_update now hcalls (fun x r h => (hbrought x r).mpr h)
    (fun x r h => (hbrought x r).mpr (hfound x r h)) hforwarded
  refine ⟨fun x r hx => ?_, hfound', hforwarded', ?_, fun x hx r hr => ?_⟩
  · rw [hmessages] at hx
    exact (hbrought x r).mpr (hi.stored x r hx)
  · rw [haccepted, hputs]
    exact hi.put
  · rw [haccepted] at hx
    rw [hmessages]
    exact (hi.kept x hx r ((hbrought x r).mp hr)).imp_right (List.mem_append_left _)

/-- `Put` keeps the `KeptInvariant` when its id is new. -/
theorem KeptInvariant.afterPut {delivered : List IRequest} {id : MsgId} (hi : KeptInvariant delivered s)
    (hnodup : (s.puts ++ [id]).Nodup) : KeptInvariant delivered (s.afterPut limitSize c id) := by
  have hfresh : id ∉ s.puts := fun hmem =>
    (List.nodup_append'.mp hnodup).2.2 hmem (List.mem_singleton_self id)
  have hnew : id ∉ s.handler.mqMessages := fun hmem => by
    obtain ⟨r, hr⟩ := Option.isSome_iff_exists.mp (UnorderedMap.isSome_atKey.mpr hmem)
    exact hfresh (List.mem_of_getElem? (hi.stored id r hr).2)
  have hput := putSection_of_new limitSize ⟨s.puts.length, id⟩ hnew
  have hpush (x : MsgId) (r : IRequest) (h : s.Brought x r) : (s.afterPut limitSize c id).Brought x r :=
    h.push rfl
  -- Who came with a `Put` now came with an earlier one, or it is the request of this one.
  have hcases (x : MsgId) (r : IRequest) (h : (s.afterPut limitSize c id).Brought x r) :
      s.Brought x r ∨ x = id ∧ r = ⟨s.puts.length, id⟩ := by
    obtain ⟨hid, hx⟩ := h
    have hx : (s.puts ++ [id])[r.conn]? = some x := hx
    rcases lt_or_ge r.conn s.puts.length with hlt | hge
    · rw [List.getElem?_append_left hlt] at hx
      exact Or.inl ⟨hid, hx⟩
    · rw [List.getElem?_append_right hge, List.getElem?_singleton] at hx
      split at hx
      · obtain rfl := Option.some.inj hx
        obtain ⟨conn, msgId⟩ := r
        have hconn : conn = s.puts.length := by
          simp only at *
          omega
        simp_all
      · exact absurd hx (by simp)
  have hbrought : (s.afterPut limitSize c id).Brought id ⟨s.puts.length, id⟩ := by
    refine ⟨rfl, ?_⟩
    show (s.puts ++ [id])[s.puts.length]? = some id
    simp
  have hcalls : (s.afterPut limitSize c id).calls = Function.update s.calls c _ := rfl
  obtain ⟨hfound, hforwarded⟩ := hi.calls_update [] hcalls hpush
    (fun x r h => absurd h (by split <;> simp [Call.found])) (fun x r h => absurd h (by split <;> simp))
  rw [List.append_nil] at hforwarded
  -- The accepted ids: those from before, and the new one if it has been stored.
  have haccepted (x : MsgId) (hx : x ∈ (s.afterPut limitSize c id).accepted) :
      x ∈ s.accepted ∨ x = id ∧
        (s.afterPut limitSize c id).handler.mqMessages.find id = some ⟨s.puts.length, id⟩ := by
    simp only [State.afterPut, hput] at hx ⊢
    by_cases hroom : limitSize = 0 ∨ s.handler.mqQueue.length < limitSize
    · simp only [hroom, if_true, List.mem_append, List.mem_singleton] at hx ⊢
      exact hx.imp_right fun h => ⟨h, AList.lookup_insert _⟩
    · simp only [hroom, if_false, Bool.false_eq_true] at hx
      exact Or.inl hx
  refine ⟨fun x r hx => ?_, hfound, hforwarded, fun x hx => ?_, fun x hx r hr => ?_⟩
  · rcases find_of_find_putSection hx with ⟨rfl, rfl⟩ | hold
    · exact hbrought
    · exact hpush x r (hi.stored x r hold)
  · rcases haccepted x hx with hold | ⟨rfl, -⟩
    · exact List.mem_append_left _ (hi.put x hold)
    · exact List.mem_append_right _ (List.mem_singleton_self x)
  · rcases haccepted x hx with hold | ⟨rfl, hstored⟩
    · rcases hcases x r hr with hr | ⟨rfl, -⟩
      · exact (hi.kept x hold r hr).imp_left find_putSection_of_find
      · exact absurd (hi.put x hold) hfresh
    · rcases hcases x r hr with ⟨-, hr⟩ | ⟨-, rfl⟩
      · exact absurd (List.mem_of_getElem? hr) hfresh
      · exact Or.inl hstored

/-- The second section of `Post` keeps the `KeptInvariant`: its message has been answered. -/
theorem KeptInvariant.afterPostErase {delivered : List IRequest} {xid : MsgId} {xrequest : IRequest}
    (hi : KeptInvariant delivered s) (hnodup : s.puts.Nodup) (hcall : s.calls c = .forwarded xid xrequest) :
    KeptInvariant delivered (s.afterPostErase c xid) := by
  have hcalls : (s.afterPostErase c xid).calls = Function.update s.calls c _ := rfl
  obtain ⟨hfound, hforwarded⟩ := hi.calls_update [] hcalls
    (fun x r h => h) (fun x r h => absurd h (by simp [Call.found])) (fun x r h => absurd h (by simp))
  rw [List.append_nil] at hforwarded
  refine ⟨fun x r hx => hi.stored x r (UnorderedMap.find_erase_eq_some.mp hx).2, hfound, hforwarded, hi.put,
    fun x hx r hr => ?_⟩
  by_cases heq : x = xid
  · subst heq
    have hfrom := hi.found c x xrequest (by rw [hcall]; rfl)
    obtain rfl : r = xrequest := State.Brought.unique hnodup hr hfrom
    exact Or.inr (hi.forwarded c x r hcall)
  · exact (hi.kept x hx r hr).imp_left fun hstored => UnorderedMap.find_erase_eq_some.mpr ⟨heq, hstored⟩

/-- Every step keeps the `KeptInvariant` as long as the `Put` ids stay distinct. -/
theorem KeptInvariant.preserved {delivered : List IRequest} (hi : KeptInvariant delivered s)
    (hnodup : s'.puts.Nodup) (hs : step limitSize s a = some s') :
    KeptInvariant (delivered ++ delivers s a) s' := by
  cases a with
  | put c id =>
      obtain ⟨-, rfl⟩ := step_put_eq_some.mp hs
      rw [show delivers s (.put c id) = [] from rfl, List.append_nil]
      exact hi.afterPut hnodup
  | get c =>
      obtain ⟨-, rfl⟩ := step_get_eq_some.mp hs
      refine hi.move rfl (by simp [State.afterGet]) rfl rfl (fun x r h => absurd h ?_)
        (fun x r h => absurd h ?_) <;> split <;> simp [Call.found]
  | getReply c result =>
      obtain ⟨-, rfl⟩ := step_getReply_eq_some.mp hs
      refine hi.move rfl rfl rfl rfl (fun x r h => absurd h ?_)
        (fun x r h => absurd h ?_) <;> split <;> simp [Call.found]
  | postLookup c xid =>
      obtain ⟨-, rfl⟩ := step_postLookup_eq_some.mp hs
      refine hi.move rfl rfl rfl rfl (fun x r h => ?_) (fun x r h => absurd h (by split <;> simp))
      -- What a `Post` finds is stored.
      split at h
      · rename_i xrequest hfind
        obtain ⟨rfl, rfl⟩ : xid = x ∧ xrequest = r := by simpa [Call.found] using h
        exact hi.stored xid xrequest hfind
      · exact absurd h (by simp [Call.found])
  | postForward c result =>
      obtain ⟨xid, xrequest, hcall, rfl⟩ := step_postForward_eq_some.mp hs
      have hfrom := hi.found c xid xrequest (by rw [hcall]; rfl)
      cases result with
      | delivered =>
          refine hi.move rfl rfl rfl rfl (fun x r h => ?_) (fun x r h => ?_)
          · obtain ⟨rfl, rfl⟩ : xid = x ∧ xrequest = r := by simpa [Call.found] using h
            exact hfrom
          · obtain ⟨rfl, rfl⟩ : xid = x ∧ xrequest = r := by simpa using h
            simp [delivers, hcall]
      | notARequest =>
          exact hi.move rfl rfl rfl rfl (fun x r h => absurd h (by simp [Call.found]))
            (fun x r h => absurd h (by simp))
      | runtimeException =>
          exact hi.move rfl rfl rfl rfl (fun x r h => absurd h (by simp [Call.found]))
            (fun x r h => absurd h (by simp))
  | postErase c =>
      obtain ⟨xid, xrequest, hcall, rfl⟩ := step_postErase_eq_some.mp hs
      rw [show delivers s (.postErase c) = [] from rfl, List.append_nil]
      exact hi.afterPostErase hnodup hcall

/-- A step keeps the ids of the `Put` requests and adds at most one. -/
theorem puts_kept (hs : step limitSize s a = some s') : s.puts <+: s'.puts := by
  cases a with
  | put c id =>
      obtain ⟨-, rfl⟩ := step_put_eq_some.mp hs
      exact List.prefix_append _ _
  | get c =>
      obtain ⟨-, rfl⟩ := step_get_eq_some.mp hs
      exact List.prefix_refl _
  | getReply c result =>
      obtain ⟨-, rfl⟩ := step_getReply_eq_some.mp hs
      exact List.prefix_refl _
  | postLookup c xid =>
      obtain ⟨-, rfl⟩ := step_postLookup_eq_some.mp hs
      exact List.prefix_refl _
  | postForward c result =>
      obtain ⟨xid, xrequest, -, rfl⟩ := step_postForward_eq_some.mp hs
      exact List.prefix_refl _
  | postErase c =>
      obtain ⟨xid, xrequest, -, rfl⟩ := step_postErase_eq_some.mp hs
      exact List.prefix_refl _

/-- The `KeptInvariant` holds after every run with distinct `Put` ids. -/
theorem keptInvariant_of_exec {as : List Action} (hexec : (machine limitSize).exec State.init as = some s)
    (hnodup : s.puts.Nodup) : KeptInvariant (deliveries limitSize as) s :=
  Machine.exec_shown (M := machine limitSize)
    (I := fun delivered s => s.puts.Nodup → KeptInvariant delivered s)
    (fun _ _ _ _ hi hs hnodup => (hi ((puts_kept hs).sublist.nodup hnodup)).preserved hnodup hs) [] as
    (fun _ => KeptInvariant.init) hexec hnodup

/-- In every run with distinct `Put` ids, whatever the interleaving, whatever ids the `Post` calls name and
whatever becomes of the replies, the request of an accepted `Put` is stored in `mq_messages` under its id
until a `Post` has delivered a reply to its client. -/
theorem stored_until_delivered {as : List Action} (hexec : (machine limitSize).exec State.init as = some s)
    (hnodup : s.puts.Nodup) (n : ℕ) (x : MsgId) (hput : s.puts[n]? = some x) (haccepted : x ∈ s.accepted) :
    s.handler.mqMessages.find x = some ⟨n, x⟩ ∨ ⟨n, x⟩ ∈ deliveries limitSize as :=
  (keptInvariant_of_exec hexec hnodup).kept x haccepted ⟨n, x⟩ ⟨rfl, hput⟩

/-- A message that nobody has fetched is answered by a client that guessed its id, and the reply arrives;
the second message is fetched, the worker is not reached, and it stays stored. -/
theorem stored_until_delivered_two :
    ∃ s, (machine 0).exec State.init
        [.put 0 7, .put 1 8, .postLookup 2 7, .postForward 2 .delivered, .postErase 2, .get 3, .get 4,
          .getReply 4 .runtimeException] = some s ∧
      (s.handler.mqMessages.find 7 = some ⟨0, 7⟩ ∨ ⟨0, 7⟩ ∈ [IRequest.mk 0 7]) ∧
      (s.handler.mqMessages.find 8 = some ⟨1, 8⟩ ∨ ⟨1, 8⟩ ∈ [IRequest.mk 0 7]) := by
  have hexec : (machine 0).exec State.init
      [.put 0 7, .put 1 8, .postLookup 2 7, .postForward 2 .delivered, .postErase 2, .get 3, .get 4,
        .getReply 4 .runtimeException] = some _ := rfl
  have hkept := stored_until_delivered hexec (by decide)
  exact ⟨_, hexec, hkept 0 7 rfl (by decide), hkept 1 8 rfl (by decide)⟩

end SyncQueue

end NavekFiber
