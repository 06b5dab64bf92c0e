import Mathlib.Data.Finset.Basic
import Mathlib.Data.Finset.Card
import Mathlib.Logic.Function.Basic
import NavekFiber.Machine.Run
import NavekFiber.Machine.UnorderedMap
import NavekFiber.Mq.Interfaces

/-! # The queue class `SyncQueueHandler`

`Get`, `Post` and `Put` share three containers guarded by `mq_sync`. A call takes the mutex for one
or two short sections and does everything else, replies included, without it. The sections are
functions on the handler; the machine of this file interleaves them, one action a section, with the
unlocked replies between them as actions of their own.

* `SyncQueueHandler`, `getSection`, `putSection`, `postEraseSection`: the state and the sections.
* `SyncQueue.machine`: any number of concurrent calls, each `CallId` one call of one method.

A `Post` whose header is missing or is not a number answers 400 before its first section and
touches nothing, so the machine starts a `Post` with the number already decoded. -/

namespace NavekFiber

/-- The containers of `SyncQueueHandler`. -/
structure SyncQueueHandler where
  /-- `mq_queue`, the front first. -/
  mqQueue : List MsgId
  /-- `mq_locked`. -/
  mqLocked : Finset MsgId
  /-- `mq_messages`. -/
  mqMessages : UnorderedMap MsgId IRequest

namespace SyncQueueHandler

/-- What `GetStats` reports. -/
structure Stats where
  /-- `X-MQ-QUEUE-COUNT`. -/
  queueCount : ℕ
  /-- `X-MQ-PENDING-COUNT`. -/
  lockedCount : ℕ
  /-- `X-MQ-MESSAGES-COUNT`. -/
  messagesCount : ℕ
  deriving DecidableEq, Repr

/-- `GetStats`. -/
def getStats (h : SyncQueueHandler) : Stats :=
  ⟨h.mqQueue.length, h.mqLocked.card, h.mqMessages.size⟩

/-- How the section of `Get` ends. -/
inductive GetResult
  /-- `mq_queue` was empty. -/
  | empty
  /-- The front message was taken out and locked. -/
  | message (muid : MsgId) (xrequest : IRequest)
  /-- `mq_messages.at(muid)` threw `std::out_of_range`. -/
  | outOfRange
  deriving DecidableEq, Repr

/-- The section of `Get`. The queue and the lock set are changed before `at` is called, so they
stay changed when it throws. -/
def getSection (h : SyncQueueHandler) : SyncQueueHandler × GetResult :=
  match h.mqQueue with
  | [] => (h, .empty)
  | muid :: rest =>
      let h' := { h with mqQueue := rest, mqLocked := insert muid h.mqLocked }
      match h.mqMessages.atKey muid with
      | some xrequest => (h', .message muid xrequest)
      | none => (h', .outOfRange)

/-- The first section of `Post`: it looks the message up. -/
def postLookupSection (h : SyncQueueHandler) (xid : MsgId) : Option IRequest :=
  h.mqMessages.find xid

/-- The second section of `Post`: it forgets the message. -/
def postEraseSection (h : SyncQueueHandler) (xid : MsgId) : SyncQueueHandler :=
  { h with mqMessages := h.mqMessages.erase xid, mqLocked := h.mqLocked.erase xid }

/-- The section of `Put`; the flag tells whether the call returns here or goes on to answer 507.
The id is queued before `emplace` can refuse the message. -/
def putSection (limitSize : ℕ) (h : SyncQueueHandler) (request : IRequest) :
    SyncQueueHandler × Bool :=
  if limitSize = 0 ∨ h.mqQueue.length < limitSize then
    let stored := h.mqMessages.emplace request.msgId request
    ({ h with mqQueue := h.mqQueue ++ [request.msgId], mqMessages := stored.1 }, stored.2)
  else (h, false)

/-- `Get` neither stores nor forgets a message. -/
@[simp] theorem getSection_mqMessages (h : SyncQueueHandler) :
    h.getSection.1.mqMessages = h.mqMessages := by
  obtain ⟨queue, locked, messages⟩ := h
  cases queue with
  | nil => rfl
  | cons muid rest =>
      cases hat : messages.lookup muid <;> simp [getSection, UnorderedMap.atKey, hat]

end SyncQueueHandler

namespace SyncQueue

/-- The name of one call of a queue method. -/
abbrev CallId := ℕ

/-- Where a call of a queue method stands. -/
inductive Call
  /-- Not started. -/
  | idle
  /-- `Put`: the message is stored and its connection waits for the forwarded reply. -/
  | stored
  /-- `Get`: holds a message and is about to send it to the worker. -/
  | delivering (muid : MsgId) (xrequest : IRequest)
  /-- `Post`: found the message and is about to forward the reply to its connection. -/
  | forwarding (xid : MsgId) (xrequest : IRequest)
  /-- `Post`: the reply was forwarded, the message is about to be erased. -/
  | forwarded (xid : MsgId) (xrequest : IRequest)
  /-- `Post`: forwarding failed and the message was left as it is; `code` is 499, or `none` when
  the `RuntimeException` left `Post` (it derives privately from `std::exception`, so the handler's
  `catch` does not see it). -/
  | unsent (xrequest : IRequest) (code : Option ℕ)
  /-- The call answers its own caller with this code. -/
  | answering (code : ℕ)
  /-- An exception left the method. -/
  | threw
  deriving DecidableEq, Repr

/-- The id that a `Post` is about to erase. -/
def Call.erasing : Call → Option MsgId
  | .forwarded xid _ => some xid
  | _ => none

/-- One atomic step of one call of a queue method. -/
inductive Action
  /-- `Put` of a request with message id `id`. -/
  | put (c : CallId) (id : MsgId)
  /-- The section of `Get`. -/
  | get (c : CallId)
  /-- The reply of `Get` to the worker. -/
  | getReply (c : CallId) (result : ReplyResult)
  /-- The first section of `Post`. -/
  | postLookup (c : CallId) (xid : MsgId)
  /-- `ReplyWithCode` on the request that `Post` found. -/
  | postForward (c : CallId) (result : ReplyResult)
  /-- The second section of `Post`. -/
  | postErase (c : CallId)
  deriving DecidableEq, Repr

/-- The handler, its calls, and what has happened so far. -/
structure State where
  /-- The shared containers. -/
  handler : SyncQueueHandler
  /-- The calls in progress. -/
  calls : CallId → Call
  /-- The ids of all `Put` requests, in order. -/
  puts : List MsgId
  /-- The ids `Put` accepted, in order. -/
  accepted : List MsgId
  /-- The ids `Get` popped, in order. -/
  popped : List MsgId
  /-- The calls of `ReplyWithCode` that `Post` made on a stored request, in order. -/
  forwards : List (CallId × IRequest)

/-- A fresh handler with no calls. -/
def State.init : State :=
  ⟨⟨[], ∅, ∅⟩, fun _ => .idle, [], [], [], []⟩

/-- The state after `Put`, whose request object is new: `conn` counts the `Put` calls. -/
def State.afterPut (limitSize : ℕ) (s : State) (c : CallId) (id : MsgId) : State :=
  let put := s.handler.putSection limitSize ⟨s.puts.length, id⟩
  { s with
    handler := put.1
    calls := Function.update s.calls c (if put.2 then .stored else .answering 507)
    puts := s.puts ++ [id]
    accepted := if put.2 then s.accepted ++ [id] else s.accepted }

/-- The state after the section of `Get`. -/
def State.afterGet (s : State) (c : CallId) : State :=
  let get := s.handler.getSection
  { s with
    handler := get.1
    calls := Function.update s.calls c <|
      match get.2 with
      | .empty => .answering 204
      | .message muid xrequest => .delivering muid xrequest
      | .outOfRange => .threw
    popped := s.popped ++ s.handler.mqQueue.take 1 }

/-- The state after the reply of `Get`: a 200 with the message, or the exception of a failed
send. -/
def State.afterGetReply (s : State) (c : CallId) (result : ReplyResult) : State :=
  { s with
    calls := Function.update s.calls c
      (if result = .runtimeException then .threw else .answering 200) }

/-- The state after the first section of `Post`. -/
def State.afterPostLookup (s : State) (c : CallId) (xid : MsgId) : State :=
  { s with
    calls := Function.update s.calls c <|
      match s.handler.postLookupSection xid with
      | some xrequest => .forwarding xid xrequest
      | none => .answering 300 }

/-- The state after the forwarded reply of `Post`. -/
def State.afterPostForward (s : State) (c : CallId) (xid : MsgId) (xrequest : IRequest)
    (result : ReplyResult) : State :=
  { s with
    calls := Function.update s.calls c <|
      match result with
      | .delivered => .forwarded xid xrequest
      | .notARequest => .unsent xrequest (some 499)
      | .runtimeException => .unsent xrequest none
    forwards := s.forwards ++ [(c, xrequest)] }

/-- The state after the second section of `Post`. -/
def State.afterPostErase (s : State) (c : CallId) (xid : MsgId) : State :=
  { s with
    handler := s.handler.postEraseSection xid
    calls := Function.update s.calls c (.answering 200) }

/-- The steps of a handler whose `LimitSize` is `limitSize`. A call takes its next step only
from the point it stands at. -/
def step (limitSize : ℕ) (s : State) : Action → Option State
  | .put c id => if s.calls c = .idle then some (s.afterPut limitSize c id) else none
  | .get c => if s.calls c = .idle then some (s.afterGet c) else none
  | .getReply c result =>
      match s.calls c with
      | .delivering _ _ => some (s.afterGetReply c result)
      | _ => none
  | .postLookup c xid => if s.calls c = .idle then some (s.afterPostLookup c xid) else none
  | .postForward c result =>
      match s.calls c with
      | .forwarding xid xrequest => some (s.afterPostForward c xid xrequest result)
      | _ => none
  | .postErase c =>
      match s.calls c with
      | .forwarded xid _ => some (s.afterPostErase c xid)
      | _ => none

/-- Any number of concurrent calls on one handler. -/
def machine (limitSize : ℕ) : Machine State Action := ⟨State.init, step limitSize⟩

section Steps

variable {limitSize : ℕ} {s s' : State} {c : CallId} {id xid : MsgId} {result : ReplyResult}

/-- The whole of `Put` is one step, which a call takes from its start. -/
theorem step_put_eq_some :
    step limitSize s (.put c id) = some s' ↔ s.calls c = .idle ∧ s.afterPut limitSize c id = s' := by
  simp [step]

/-- The section of `Get` is one step, which a call takes from its start. -/
theorem step_get_eq_some :
    step limitSize s (.get c) = some s' ↔ s.calls c = .idle ∧ s.afterGet c = s' := by
  simp [step]

/-- The reply of `Get` is one step, which a call takes while it delivers a message. -/
theorem step_getReply_eq_some :
    step limitSize s (.getReply c result) = some s' ↔
      (∃ muid xrequest, s.calls c = .delivering muid xrequest) ∧ s.afterGetReply c result = s' := by
  cases hcall : s.calls c <;> simp [step, hcall]

/-- The first section of `Post` is one step, which a call takes from its start. -/
theorem step_postLookup_eq_some :
    step limitSize s (.postLookup c xid) = some s' ↔
      s.calls c = .idle ∧ s.afterPostLookup c xid = s' := by
  simp [step]

/-- The forwarded reply of `Post` is one step, which a call takes once it has found a request. -/
theorem step_postForward_eq_some :
    step limitSize s (.postForward c result) = some s' ↔
      ∃ xid xrequest, s.calls c = .forwarding xid xrequest ∧
        s.afterPostForward c xid xrequest result = s' := by
  cases hcall : s.calls c <;> simp [step, hcall]

/-- The second section of `Post` is one step, which a call takes once it has forwarded. -/
theorem step_postErase_eq_some :
    step limitSize s (.postErase c) = some s' ↔
      ∃ xid xrequest, s.calls c = .forwarded xid xrequest ∧ s.afterPostErase c xid = s' := by
  cases hcall : s.calls c <;> simp [step, hcall]

end Steps

end SyncQueue

end NavekFiber
