import NavekFiber.Machine.Fifo
import NavekFiber.Mq.SyncQueueConsistency

/-! # The order of messages, and what becomes of a message that is refused or does not arrive

The queue of ids keeps the order of the `Put` calls whatever happens to the messages behind the ids:
`Post` may forget a message whose id is still queued, but it does not touch the queue. `OrderInvariant`
carries the history, `Put` and `Get` being the only sections that change it
(`accepted_eq_popped_append_queue`).

`Get` pops the id and locks it before it replies. Nothing takes these changes back when the reply is not
delivered (`afterGetCall_restores_iff`). `Put` queues the id before the map can refuse the message, and
nothing takes it out again (`putsWhollyOrNot_iff`). -/

namespace NavekFiber

namespace SyncQueueHandler

variable {h : SyncQueueHandler}

/-- With a new id, `Put` accepts the message when there is room for it and changes nothing else. -/
theorem putSection_of_new (limitSize : ℕ) (request : IRequest) (hnew : request.msgId ∉ h.mqMessages) :
    h.putSection limitSize request =
      if limitSize = 0 ∨ h.mqQueue.length < limitSize then
        ({ h with
            mqQueue := h.mqQueue ++ [request.msgId]
            mqMessages := h.mqMessages.insert request.msgId request }, true)
      else (h, false) := by
  rw [putSection, UnorderedMap.emplace_of_notMem hnew]

/-- The section of `Get` takes the front off the queue, if there is one. -/
@[simp] theorem getSection_mqQueue : h.getSection.1.mqQueue = h.mqQueue.tail := by
  obtain ⟨queue, locked, messages⟩ := h
  cases queue with
  | nil => rfl
  | cons muid rest =>
      cases hat : messages.lookup muid <;> simp [getSection, UnorderedMap.atKey, hat]

end SyncQueueHandler

namespace SyncQueue

variable {limitSize : ℕ} {s s' : State} {a : Action}

/-- The history of a queue whose `Put` ids are distinct: what has been put, accepted and popped, next to what is
queued and stored. -/
structure OrderInvariant (limitSize : ℕ) (s : State) : Prop where
  /-- The accepted ids are the popped ids followed by the queue. -/
  inOrder : InOrder s.accepted s.popped s.handler.mqQueue
  /-- Stored ids were put. -/
  stored : ∀ x ∈ s.handler.mqMessages, x ∈ s.puts
  /-- The accepted ids are among the ids put, in the same order. -/
  sublist : s.accepted.Sublist s.puts
  /-- No id was put twice. -/
  nodup : s.puts.Nodup
  /-- The queue is not longer than its limit. -/
  length_le : limitSize ≠ 0 → s.handler.mqQueue.length ≤ limitSize

/-- The `OrderInvariant` holds of a fresh handler, which has no history. -/
theorem OrderInvariant.init : OrderInvariant limitSize State.init := by
  refine ⟨InOrder.nil, fun x hx => ?_, List.Sublist.refl _, List.nodup_nil, fun _ => Nat.zero_le _⟩
  simp [State.init] at hx

/-- A `Put` with a new id keeps the `OrderInvariant`: the id goes to the end of the accepted ids and of the queue, or
to neither. -/
theorem OrderInvariant.put {c : CallId} {id : MsgId} (hi : OrderInvariant limitSize s)
    (hfresh : id ∉ s.puts) : OrderInvariant limitSize (s.afterPut limitSize c id) := by
  -- Stored ids were put, so `emplace` cannot refuse a new one.
  have hnew : id ∉ s.handler.mqMessages := fun hmem => hfresh (hi.stored id hmem)
  have hput := SyncQueueHandler.putSection_of_new limitSize ⟨s.puts.length, id⟩ hnew
  have hnodup : (s.puts ++ [id]).Nodup := by
    rw [← List.concat_eq_append]
    exact hi.nodup.concat hfresh
  have hlength := hi.length_le
  unfold State.afterPut
  rw [hput]
  split
  · rename_i hroom
    refine ⟨hi.inOrder.push id, fun x hx => ?_, hi.sublist.append (List.Sublist.refl _), hnodup,
      fun hlimit => ?_⟩
    · rcases (AList.mem_insert _).mp hx with heq | hold
      · exact List.mem_append.mpr (Or.inr (List.mem_singleton.mpr heq))
      · exact List.mem_append.mpr (Or.inl (hi.stored x hold))
    · have hlt := hroom.resolve_left hlimit
      simp only [List.length_append, List.length_singleton]
      omega
  -- No room: the id is put and not accepted.
  · exact ⟨hi.inOrder, fun x hx => List.mem_append.mpr (Or.inl (hi.stored x hx)),
      hi.sublist.trans (List.sublist_append_left _ _), hnodup, hlength⟩

/-- The section of `Get` keeps the `OrderInvariant`: the front of the queue moves to the popped ids. -/
theorem OrderInvariant.get {c : CallId} (hi : OrderInvariant limitSize s) :
    OrderInvariant limitSize (s.afterGet c) := by
  refine ⟨?_, fun x hx => hi.stored x (by simpa [State.afterGet] using hx), hi.sublist, hi.nodup,
    fun hlimit => ?_⟩
  · simpa [State.afterGet] using hi.inOrder.pop
  · have hle := hi.length_le hlimit
    simp only [State.afterGet, SyncQueueHandler.getSection_mqQueue, List.length_tail]
    omega

/-- Every step of a run with distinct `Put` ids keeps the `OrderInvariant`. -/
theorem OrderInvariant.preserved (hi : OrderInvariant limitSize s) (hfresh : FreshPut s a)
    (hs : step limitSize s a = some s') : OrderInvariant limitSize s' := by
  cases a with
  | put c id =>
      obtain ⟨-, rfl⟩ := step_put_eq_some.mp hs
      exact hi.put hfresh
  | get c =>
      obtain ⟨-, rfl⟩ := step_get_eq_some.mp hs
      exact hi.get
  | getReply c result =>
      obtain ⟨-, rfl⟩ := step_getReply_eq_some.mp hs
      exact ⟨hi.inOrder, hi.stored, hi.sublist, hi.nodup, hi.length_le⟩
  | postLookup c xid =>
      obtain ⟨-, rfl⟩ := step_postLookup_eq_some.mp hs
      exact ⟨hi.inOrder, hi.stored, hi.sublist, hi.nodup, hi.length_le⟩
  | postForward c result =>
      obtain ⟨xid, xrequest, -, rfl⟩ := step_postForward_eq_some.mp hs
      exact ⟨hi.inOrder, hi.stored, hi.sublist, hi.nodup, hi.length_le⟩
  | postErase c =>
      -- `Post` forgets the message, not its place in the queue.
      obtain ⟨xid, xrequest, -, rfl⟩ := step_postErase_eq_some.mp hs
      exact ⟨hi.inOrder, fun x hx => hi.stored x (AList.mem_erase.mp hx).2, hi.sublist, hi.nodup,
        hi.length_le⟩

/-- In every state of a run with distinct `Put` ids, the ids accepted by `Put`, in order, are the ids
popped by `Get`, in order, followed by the queue. No id occurs twice there, so no message is handed out
twice, and the queue keeps to its limit. -/
theorem accepted_eq_popped_append_queue (h : (machine limitSize).ReachableUnder FreshPut s) :
    s.accepted = s.popped ++ s.handler.mqQueue ∧
      (s.popped ++ s.handler.mqQueue).Nodup ∧
      (limitSize ≠ 0 → s.handler.mqQueue.length ≤ limitSize) := by
  have hi : OrderInvariant limitSize s :=
    h.invariant OrderInvariant.init fun _ _ _ hi hfresh hs => hi.preserved hfresh hs
  exact ⟨hi.inOrder, hi.inOrder.nodup (hi.sublist.nodup hi.nodup), hi.length_le⟩

/-- With a limit of two, of two accepted messages the first is popped and answered, and a third is refused. -/
theorem accepted_eq_popped_append_queue_two :
    ∃ s, (machine 2).exec State.init
        [.put 0 7, .put 1 8, .put 2 9, .get 3, .postLookup 4 7, .postForward 4 .delivered,
          .postErase 4] = some s ∧
      s.accepted = s.popped ++ s.handler.mqQueue ∧ s.handler.mqQueue.length ≤ 2 := by
  have hr := (Machine.ReachableUnder.init (M := machine 2) (G := FreshPut)).exec
    [.put 0 7, .put 1 8, .put 2 9, .get 3, .postLookup 4 7, .postForward 4 .delivered,
      .postErase 4] (by decide) rfl
  obtain ⟨heq, -, hle⟩ := accepted_eq_popped_append_queue hr
  exact ⟨_, rfl, heq, hle (by decide)⟩

/-! ### A message that does not arrive -/

/-- The state after a whole call of `Get` that nothing interrupts: the section and, when it took a
message, the reply with the given result. -/
def State.afterGetCall (s : State) (c : CallId) (result : ReplyResult) : State :=
  match s.handler.getSection.2 with
  | .message _ _ => (s.afterGet c).afterGetReply c result
  | _ => s.afterGet c

/-- A message is taken out of the queue by `Get` and does not reach the worker: `mq_messages.at` throws, or the reply
fails. -/
def State.GetUndelivered (s : State) (result : ReplyResult) : Prop :=
  match s.handler.getSection.2 with
  | .empty => False
  | .message _ _ => result ≠ .delivered
  | .outOfRange => True

/-- A call of `Get` leaves the containers as its section leaves them. -/
@[simp] theorem handler_afterGetCall {c : CallId} {result : ReplyResult} :
    (s.afterGetCall c result).handler = s.handler.getSection.1 := by
  unfold State.afterGetCall
  split <;> rfl

/-- A call of `Get` that nothing interrupts is a run of the machine. -/
theorem exec_afterGetCall {c : CallId} {result : ReplyResult} (hidle : s.calls c = .idle) :
    (machine limitSize).exec s [.get c] = some (s.afterGetCall c result) ∨
      (machine limitSize).exec s [.get c, .getReply c result] = some (s.afterGetCall c result) := by
  cases hget : s.handler.getSection.2 with
  | empty =>
      refine Or.inl ?_
      simp [Machine.exec, machine, step, hidle, State.afterGetCall, hget]
  | message muid xrequest =>
      -- With a message in hand the call has a second step, the reply.
      refine Or.inr ?_
      have hcall : (s.afterGet c).calls c = .delivering muid xrequest := by
        simp [State.afterGet, hget]
      simp [Machine.exec, machine, step, hidle, hcall, State.afterGetCall, hget]
  | outOfRange =>
      refine Or.inl ?_
      simp [Machine.exec, machine, step, hidle, State.afterGetCall, hget]

/-- The section of `Get` leaves the containers alone exactly when the queue is empty. -/
theorem getSection_eq_self_iff {h : SyncQueueHandler} : h.getSection.1 = h ↔ h.mqQueue = [] := by
  constructor
  · intro heq
    -- The section shortens a queue that is not empty.
    have hlen := congrArg (fun h' => h'.mqQueue.length) heq
    simp only [SyncQueueHandler.getSection_mqQueue, List.length_tail] at hlen
    exact List.length_eq_zero_iff.mp (by omega)
  · intro hnil
    rw [SyncQueueHandler.getSection, hnil]

/-- A call of `Get` leaves the containers as they were whenever its message is not delivered, exactly
when the queue is empty, or the message of the front id is stored and the reply with it is
delivered. -/
theorem afterGetCall_restores_iff (s : State) (c : CallId) (result : ReplyResult) :
    (s.GetUndelivered result → (s.afterGetCall c result).handler = s.handler) ↔
      ∀ muid ∈ s.handler.mqQueue.head?, muid ∈ s.handler.mqMessages ∧ result = .delivered := by
  rw [handler_afterGetCall, getSection_eq_self_iff]
  obtain ⟨⟨queue, locked, messages⟩, calls, puts, accepted, popped, forwards⟩ := s
  cases queue with
  | nil => simp
  | cons muid rest =>
      have hmem : muid ∈ messages ↔ (messages.atKey muid).isSome = true :=
        UnorderedMap.isSome_atKey.symm
      cases hat : messages.atKey muid with
      | none => simp [State.GetUndelivered, SyncQueueHandler.getSection, hmem, hat]
      | some xrequest =>
          simp [State.GetUndelivered, SyncQueueHandler.getSection, hmem, hat]

/-- When `Get` has popped and locked a message and its reply fails, the containers are not as they were: the queue has
lost the message. -/
theorem not_afterGetCall_restores_of_failed_send :
    ¬ ∀ s, (machine 0).Reachable s → ∀ c, s.calls c = .idle → ∀ result,
      s.GetUndelivered result → (s.afterGetCall c result).handler = s.handler := by
  intro hclaim
  have hr := (Machine.ReachableUnder.init (M := machine 0) (G := fun _ _ => True)).exec
    [.put 0 7] ⟨trivial, fun _ _ => trivial⟩ rfl
  have hsame := hclaim _ hr 1 rfl .runtimeException (show ReplyResult.runtimeException ≠ .delivered by decide)
  rw [handler_afterGetCall, getSection_eq_self_iff] at hsame
  exact absurd hsame (by decide)

/-! ### A message that is refused -/

/-- What a call of `Put` leaves behind is all or nothing: a message answered 507 leaves the containers
as they were; a message that is not answered is queued once, at the end, and stored under its id. -/
def State.PutsWhollyOrNot (s s' : State) (c : CallId) (id : MsgId) : Prop :=
  (s'.calls c = .answering 507 → s'.handler = s.handler) ∧
    (s'.calls c ≠ .answering 507 →
      s'.handler.mqQueue = s.handler.mqQueue ++ [id] ∧
        s'.handler.mqMessages.find id = some ⟨s.puts.length, id⟩)

/-- When `Put` refuses a message because its id is stored, it has queued the id all the same. -/
theorem putSection_of_mem {h : SyncQueueHandler} (request : IRequest)
    (hroom : limitSize = 0 ∨ h.mqQueue.length < limitSize) (hmem : request.msgId ∈ h.mqMessages) :
    h.putSection limitSize request = ({ h with mqQueue := h.mqQueue ++ [request.msgId] }, false) := by
  rw [SyncQueueHandler.putSection, if_pos hroom, UnorderedMap.emplace_of_mem hmem]

/-- A call of `Put` leaves all of its message behind or nothing of it exactly when the queue is full or
the id is not a key yet. -/
theorem putsWhollyOrNot_iff (limitSize : ℕ) (s : State) (c : CallId) (id : MsgId) :
    s.PutsWhollyOrNot (s.afterPut limitSize c id) c id ↔
      (limitSize ≠ 0 ∧ limitSize ≤ s.handler.mqQueue.length) ∨ id ∉ s.handler.mqMessages := by
  by_cases hmem : id ∈ s.handler.mqMessages
  · by_cases hroom : limitSize = 0 ∨ s.handler.mqQueue.length < limitSize
    -- The map refuses the message when its id is queued already.
    · have hput := putSection_of_mem ⟨s.puts.length, id⟩ hroom hmem
      refine iff_of_false (fun h => ?_) ?_
      · have hsame := h.1 (by simp [State.afterPut, hput])
        have hlen := congrArg (fun h' => h'.mqQueue.length) hsame
        simp [State.afterPut, hput] at hlen
      · rintro (⟨hlimit, hfull⟩ | hnew)
        · rcases hroom with hzero | hlt
          · exact hlimit hzero
          · omega
        · exact hnew hmem
    · have hput : s.handler.putSection limitSize ⟨s.puts.length, id⟩ = (s.handler, false) := by
        rw [SyncQueueHandler.putSection, if_neg hroom]
      push Not at hroom
      refine iff_of_true ⟨fun _ => ?_, fun hne => ?_⟩ (Or.inl hroom)
      · simp [State.afterPut, hput]
      · simp [State.afterPut, hput] at hne
  · have hput := SyncQueueHandler.putSection_of_new limitSize ⟨s.puts.length, id⟩ hmem
    refine iff_of_true ?_ (Or.inr hmem)
    by_cases hroom : limitSize = 0 ∨ s.handler.mqQueue.length < limitSize
    · rw [if_pos hroom] at hput
      refine ⟨fun heq => ?_, fun _ => ?_⟩
      · simp [State.afterPut, hput] at heq
      · simp [State.afterPut, hput, UnorderedMap.find, AList.lookup_insert]
    · rw [if_neg hroom] at hput
      refine ⟨fun _ => ?_, fun hne => ?_⟩
      · simp [State.afterPut, hput]
      · simp [State.afterPut, hput] at hne

/-- A second message with the id of a stored one is answered 507, and its id stays in the queue. -/
theorem not_putsWhollyOrNot_of_stored :
    ¬ ∀ s, (machine 0).Reachable s → ∀ c, s.calls c = .idle → ∀ id,
      s.PutsWhollyOrNot (s.afterPut 0 c id) c id := by
  intro hclaim
  have hr := (Machine.ReachableUnder.init (M := machine 0) (G := fun _ _ => True)).exec
    [.put 0 7] ⟨trivial, fun _ _ => trivial⟩ rfl
  have hsame := congrArg (fun h => h.mqQueue) ((hclaim _ hr 1 rfl 7).1 rfl)
  exact absurd hsame (by decide)

end SyncQueue

end NavekFiber
