import NavekFiber.Mq.SyncQueueReplies

/-! # `SyncQueueHandler::Post` with its replies

`Post` forwards the worker's content to the client that waits for it, and then answers the worker. When the
forwarded reply cannot be sent, `HttpImpl::Reply` throws a `RuntimeException`; `RequestImpl::Reply` lets it
pass, and so does the `catch` of `Post`, which is for `std::exception` only. The branch that answers 499 is
reached when `ReplyWithCode` has nothing to send with (`post_failsOrderly_iff`).

* `SyncQueueHandler.post`: the member function, with the containers and request objects it leaves behind.
* `SyncQueueHandler.exec_post`: what it does to the containers is a run of the machine. -/

namespace NavekFiber

open Utils Proto

namespace SyncQueueHandler

/-- What `Post` works on: the containers, and the request objects by their connections. -/
structure World where
  /-- The containers. -/
  handler : SyncQueueHandler
  /-- The request objects. -/
  requests : ℕ → RequestImpl

/-- What a call of `Post` does not decide. -/
structure PostContext where
  /-- What becomes of the connections. -/
  env : ℕ → Environment
  /-- How `ReplyWithCode` meets the request object of the client. -/
  forward : ReplyContext
  /-- How `ReplyWithCode` meets the request object of the worker. -/
  answer : ReplyContext
  /-- What other calls make of the containers while the reply is forwarded, without the lock. -/
  others : SyncQueueHandler → SyncQueueHandler

namespace World

/-- The world with another request object at a connection. -/
def setRequest (world : World) (conn : ℕ) (request : RequestImpl) : World :=
  { world with requests := Function.update world.requests conn request }

/-- `SetTelemetry(ExtractAt)`. -/
def setExtractAt (env : Environment) (world : World) (conn : ℕ) : World :=
  let self := world.requests conn
  let request := { self.request with
    telemetry := { self.request.telemetry with extractedAt := env.timestamp self.request.ticks }
    ticks := self.request.ticks + 1 }
  world.setRequest conn { self with request }

/-- `ReplyWithCode` to one of the connections. -/
def replyWithCode (env : Environment) (ctx : ReplyContext) (world : World) (conn : ℕ) (call : ReplyCall) :
    Except Exn Bool × World :=
  let (result, self) := SyncQueueHandler.replyWithCode env ctx (world.requests conn) call
  (result, world.setRequest conn self)

end World

/-- The answer of `Post` to the worker: a code and a message. -/
def answerCall (ctx : PostContext) (code : ℕ) (message : List UInt8) : ReplyCall :=
  replyCall ctx.answer code message (.ofString []) [] []

/-- `ReplyWithCode` of `Post` to its worker; what it returns is not looked at. -/
def answer (ctx : PostContext) (world : World) (worker : IRequest) (code : ℕ) (message : List UInt8) :
    Except Exn Unit × World :=
  match world.replyWithCode (ctx.env worker.conn) ctx.answer worker.conn (answerCall ctx code message) with
  | (.ok _, world) => (.ok (), world)
  | (.error exn, world) => (.error exn, world)

/-- The world in which `Post` forwards the reply: the time has been set. -/
def forwarding (ctx : PostContext) (world : World) (xrequest : IRequest) : World :=
  world.setExtractAt (ctx.env xrequest.conn) xrequest.conn

/-- The forwarded reply of `Post`, during which the containers may change. -/
def forward (ctx : PostContext) (world : World) (worker xrequest : IRequest) :
    Except Exn Bool × World :=
  let (result, world) := (forwarding ctx world xrequest).replyWithCode (ctx.env xrequest.conn) ctx.forward
    xrequest.conn (passOnCall ctx.forward worker.msgId (world.requests worker.conn))
  (result, { world with handler := ctx.others world.handler })

/-- The answer of `Post` to its worker when the reply has been forwarded, and when it has not. -/
def answerForwarded (ctx : PostContext) (worker : IRequest) (xid : MsgId) :
    Except Exn Bool × World → Except Exn Unit × World
  | (.error exn, world) => (.error exn, world)
  | (.ok true, world) =>
      answer ctx { world with handler := world.handler.postEraseSection xid } worker 200 (bytes "OK")
  | (.ok false, world) => answer ctx world worker 499 (bytes "Unable to sent client response")

/-- The `try` block of `Post`. -/
def postTry (ctx : PostContext) (world : World) (worker : IRequest) (xMid : List UInt8) :
    Except Exn Unit × World :=
  match stoul xMid with
  | .error exn => (.error exn, world)
  | .ok xid =>
      match world.handler.postLookupSection xid with
      | none => answer ctx world worker 300 (bytes "Multiple Replays. Reply Ignored.")
      | some xrequest => answerForwarded ctx worker xid (forward ctx world worker xrequest)

/-- The `catch` of `Post`. -/
def postCatch (ctx : PostContext) (worker : IRequest) :
    Except Exn Unit × World → Except Exn Unit × World
  | (.error (.stdException _), world) =>
      answer ctx world worker 400 (bytes "Bad Request. Invalid `X-MSG-FORWARD-UID` header")
  | out => out

/-- The text of `X-MSG-FORWARD-UID`, with the request object that is left behind. -/
def forwardUid (world : World) (worker : IRequest) : List UInt8 × RequestImpl :=
  (world.requests worker.conn).getHeaderOption (bytes "X-MSG-FORWARD-UID") none

/-- The world when `Post` has read the header. -/
def asked (world : World) (worker : IRequest) : World :=
  world.setRequest worker.conn (forwardUid world worker).2

/-- `Post`. The headers have been read when it asks for the content type, which therefore does not change the
request object any more. -/
def post (ctx : PostContext) (world : World) (worker : IRequest) : Except Exn Unit × World :=
  let xMid := (forwardUid world worker).1
  if xMid ≠ [] then postCatch ctx worker (postTry ctx (asked world worker) worker xMid)
  else answer ctx (asked world worker) worker 400
    (bytes "Bad Request. Header `X-MSG-FORWARD-UID` not found")

/-! ### What a reply leaves behind -/

/-- The codes of the replies on a request object so far. -/
def replyCodes (self : RequestImpl) : List ℕ :=
  self.request.log.filterMap fun event => match event with
    | .reply _ code => some code
    | _ => none

variable {ctx : PostContext} {world : World} {worker xrequest : IRequest} {xid : MsgId}

/-- `Reply` adds its code to the `replyCodes`, whether it returns or throws. -/
theorem replyCodes_reply (env : Environment) (self : RequestImpl) (call : ReplyCall) :
    replyCodes (self.reply env call).2 = replyCodes self ++ [call.code] := by
  obtain ⟨events, hlog, hevents⟩ := HttpImpl.uses_reply env self.request call
  rw [replyCodes, RequestImpl.request_reply, hlog, HttpImpl.composed, List.filterMap_append, List.filterMap_append]
  have hnone : (events.filterMap fun event => match event with
      | .reply _ code => some code
      | _ => none) = [] := by
    rw [List.filterMap_eq_nil_iff]
    intro event hmem
    rcases hevents event hmem with ⟨data, rfl⟩ | rfl <;> rfl
  rw [hnone, List.append_nil]
  rfl

/-- An answer of `Post` does not touch the containers. -/
@[simp] theorem handler_answer (code : ℕ) (message : List UInt8) :
    (answer ctx world worker code message).2.handler = world.handler := by
  rw [answer]
  split <;> rename_i h <;> rw [← congrArg Prod.snd h] <;> rfl

/-- An answer of `Post` is one reply to the worker, unless there is no `IRequest` to reply to. -/
theorem replyCodes_answer (code : ℕ) (message : List UInt8) :
    replyCodes ((answer ctx world worker code message).2.requests worker.conn) =
      replyCodes (world.requests worker.conn) ++ if ctx.answer.isRequest then [code] else [] := by
  have hworld : (answer ctx world worker code message).2 =
      (world.replyWithCode (ctx.env worker.conn) ctx.answer worker.conn (answerCall ctx code message)).2 := by
    rw [answer]
    split <;> rename_i h <;> rw [h]
  rw [hworld, World.replyWithCode, replyWithCode]
  simp only [World.setRequest, Function.update_self]
  split
  · exact replyCodes_reply _ _ _
  · exact (List.append_nil _).symm

/-- An answer of `Post` returns exactly when there is no `IRequest` to reply to, or the reply is sent completely. -/
theorem answer_returns_iff (code : ℕ) (message : List UInt8) :
    (answer ctx world worker code message).1 = .ok () ↔
      (ctx.answer.isRequest = true → HttpImpl.Delivers (ctx.env worker.conn)
        (world.requests worker.conn).request (answerCall ctx code message)) := by
  rw [answer, World.replyWithCode, replyWithCode]
  cases hrequest : ctx.answer.isRequest with
  | false => simp
  | true =>
      simp only [if_true, forall_true_left]
      rcases RequestImpl.fst_reply_cases (ctx.env worker.conn) (world.requests worker.conn)
        (answerCall ctx code message) with ⟨hfst, hdelivers⟩ | ⟨⟨what, hfst⟩, hdelivers⟩
      · simp [hfst, hdelivers]
      · simp [hfst, hdelivers]

/-! ### A reply that is not forwarded -/

/-- The worker's request names a stored message. -/
def Names (world : World) (worker : IRequest) (xid : MsgId) (xrequest : IRequest) : Prop :=
  stoul (forwardUid world worker).1 = .ok xid ∧ world.handler.mqMessages.find xid = some xrequest

/-- Reading the header replies to nobody: the `replyCodes` stay as they are. -/
theorem replyCodes_asked (conn : ℕ) :
    replyCodes ((asked world worker).requests conn) = replyCodes (world.requests conn) := by
  rw [asked, World.setRequest]
  by_cases h : conn = worker.conn
  · subst h
    simp [forwardUid, replyCodes]
  · simp [h]

/-- Setting the time replies to nobody: the `replyCodes` stay as they are. -/
theorem replyCodes_forwarding (conn : ℕ) :
    replyCodes ((forwarding ctx (asked world worker) xrequest).requests conn) =
      replyCodes (world.requests conn) := by
  have hasked : replyCodes ((asked world worker).requests conn) = replyCodes (world.requests conn) :=
    replyCodes_asked conn
  rw [← hasked, forwarding, World.setExtractAt, World.setRequest]
  by_cases h : conn = xrequest.conn
  · subst h
    simp [replyCodes]
  · simp [h]

/-- Without an `IRequest`, `forward` returns `false` and sends nothing. -/
theorem forward_of_notRequest (h : ctx.forward.isRequest = false) :
    forward ctx world worker xrequest =
      (.ok false, { forwarding ctx world xrequest with handler := ctx.others world.handler }) := by
  rw [forward, World.replyWithCode, replyWithCode, if_neg (by simp [h])]
  simp [World.setRequest, forwarding, World.setExtractAt]

/-- With an `IRequest`, `forward` ends as the `RequestImpl::Reply` with the worker's content does. -/
theorem fst_forward (h : ctx.forward.isRequest = true) :
    (forward ctx world worker xrequest).1 =
      (RequestImpl.reply (ctx.env xrequest.conn) ((forwarding ctx world xrequest).requests xrequest.conn)
        (passOnCall ctx.forward worker.msgId (world.requests worker.conn))).1 := by
  rw [forward, World.replyWithCode, replyWithCode, if_pos h]

/-- With an `IRequest`, `forward` returns `true` or throws a `RuntimeException`. -/
theorem fst_forward_of_isRequest (h : ctx.forward.isRequest = true) :
    (forward ctx world worker xrequest).1 = .ok true ∨
      ∃ what, (forward ctx world worker xrequest).1 = .error (.runtimeException what) := by
  rw [fst_forward h]
  rcases RequestImpl.fst_reply_cases (ctx.env xrequest.conn)
    ((forwarding ctx world xrequest).requests xrequest.conn)
    (passOnCall ctx.forward worker.msgId (world.requests worker.conn)) with ⟨hsent, -⟩ | ⟨hthrown, -⟩
  · exact Or.inl hsent
  · exact Or.inr hthrown

/-- When its request names a stored message, `Post` forwards the reply to the client and answers the worker. -/
theorem post_of_names (hnames : Names world worker xid xrequest) :
    post ctx world worker = postCatch ctx worker
      (answerForwarded ctx worker xid (forward ctx (asked world worker) worker xrequest)) := by
  obtain ⟨hstoul, hfind⟩ := hnames
  have hne : (forwardUid world worker).1 ≠ [] := by
    intro hnil
    have herror : stoul [] = .error (.stdException (bytes "stoul")) := rfl
    rw [hnil, herror] at hstoul
    cases hstoul
  have hlookup : (asked world worker).handler.postLookupSection xid = some xrequest := hfind
  rw [post]
  simp only [if_pos hne]
  rw [postTry, hstoul]
  simp only [hlookup]

/-- What an answer of `Post` throws passes the `catch`. -/
theorem postCatch_answer (code : ℕ) (message : List UInt8) :
    postCatch ctx worker (answer ctx world worker code message) = answer ctx world worker code message := by
  rw [answer, World.replyWithCode, replyWithCode]
  cases hrequest : ctx.answer.isRequest with
  | false => simp [postCatch]
  | true =>
      simp only [if_true]
      rcases RequestImpl.fst_reply_cases (ctx.env worker.conn) (world.requests worker.conn)
        (answerCall ctx code message) with ⟨hfst, -⟩ | ⟨⟨what, hfst⟩, -⟩
      · simp only [hfst]
        rfl
      · simp only [hfst]
        rfl

/-- `forward` returns `true` exactly when there is an `IRequest` and the reply is sent completely. -/
theorem fst_forward_eq_true_iff :
    (forward ctx world worker xrequest).1 = .ok true ↔
      ctx.forward.isRequest = true ∧ HttpImpl.Delivers (ctx.env xrequest.conn)
        ((forwarding ctx world xrequest).requests xrequest.conn).request
        (passOnCall ctx.forward worker.msgId (world.requests worker.conn)) := by
  cases hrequest : ctx.forward.isRequest with
  | false => simp [forward, World.replyWithCode, replyWithCode, hrequest]
  | true =>
      rw [fst_forward hrequest]
      simp only [true_and]
      rcases RequestImpl.fst_reply_cases (ctx.env xrequest.conn)
        ((forwarding ctx world xrequest).requests xrequest.conn)
        (passOnCall ctx.forward worker.msgId (world.requests worker.conn)) with
        ⟨hfst, hdelivers⟩ | ⟨⟨what, hfst⟩, hdelivers⟩
      · simp [hfst, hdelivers]
      · simp [hfst, hdelivers]

/-- No exception leaves `Post`, the worker gets one answer, and that has the code 499; the containers are as
the other calls have left them. -/
structure FailsOrderly (ctx : PostContext) (world : World) (worker : IRequest) : Prop where
  /-- `Post` returns. -/
  returns : (post ctx world worker).1 = .ok ()
  /-- The worker gets one answer. -/
  answered : replyCodes ((post ctx world worker).2.requests worker.conn) =
    replyCodes (world.requests worker.conn) ++ [499]
  /-- `Post` leaves the containers as they are. -/
  unchanged : (post ctx world worker).2.handler = ctx.others world.handler

/-- The 499 that `Post` means for a reply that cannot be forwarded. -/
def unsentCall (ctx : PostContext) : ReplyCall :=
  answerCall ctx 499 (bytes "Unable to sent client response")

/-- When the reply of the worker cannot be forwarded, `Post` ends orderly exactly when `ReplyWithCode` has
found no `IRequest` to forward to, and the answer to the worker is sent. When it is `HttpImpl::Reply` that
cannot send, `Post` never does. -/
theorem post_failsOrderly_iff (hnames : Names world worker xid xrequest)
    (hfails : (forward ctx (asked world worker) worker xrequest).1 ≠ .ok true) :
    FailsOrderly ctx world worker ↔
      ctx.forward.isRequest = false ∧ ctx.answer.isRequest = true ∧
        HttpImpl.Delivers (ctx.env worker.conn)
          ((forwarding ctx (asked world worker) xrequest).requests worker.conn).request (unsentCall ctx) := by
  have hpost : post ctx world worker = _ := post_of_names hnames
  cases hrequest : ctx.forward.isRequest with
  | true =>
      -- The exception passes `RequestImpl::Reply`, the branches of `Post` and its `catch`.
      obtain ⟨what, hfst⟩ := (fst_forward_of_isRequest hrequest).resolve_left hfails
      generalize forward ctx (asked world worker) worker xrequest = forwarded at hpost hfst
      obtain ⟨result, left⟩ := forwarded
      obtain rfl : result = .error (.runtimeException what) := hfst
      have hthrows : (post ctx world worker).1 = .error (.runtimeException what) := by
        rw [hpost]
        rfl
      constructor
      · intro h
        rw [h.returns] at hthrows
        cases hthrows
      · rintro ⟨h, -⟩
        cases h
  | false =>
      rw [forward_of_notRequest hrequest, answerForwarded, postCatch_answer] at hpost
      have hcodes : replyCodes ((post ctx world worker).2.requests worker.conn) =
          replyCodes (world.requests worker.conn) ++ if ctx.answer.isRequest then [499] else [] := by
        rw [hpost, replyCodes_answer]
        exact congrArg (· ++ _) (replyCodes_forwarding worker.conn)
      have hreturns : (post ctx world worker).1 = .ok () ↔
          (ctx.answer.isRequest = true → HttpImpl.Delivers (ctx.env worker.conn)
            ((forwarding ctx (asked world worker) xrequest).requests worker.conn).request
            (unsentCall ctx)) := by
        rw [hpost, answer_returns_iff]
        rfl
      have hhandler : (post ctx world worker).2.handler = ctx.others world.handler := by
        rw [hpost, handler_answer]
        rfl
      constructor
      · intro h
        have hanswer : ctx.answer.isRequest = true := by
          by_contra hnot
          have hanswered := h.answered
          rw [hcodes, if_neg hnot] at hanswered
          simp at hanswered
        exact ⟨rfl, hanswer, hreturns.mp h.returns hanswer⟩
      · rintro ⟨-, hanswer, hdelivers⟩
        refine ⟨hreturns.mpr fun _ => hdelivers, ?_, hhandler⟩
        rw [hcodes, if_pos hanswer]

/-- The request of a worker that answers the message 7. -/
def posted : ReadBufferImpl := received (bytes "POST /q HTTP/1.1\r\nX-MSG-FORWARD-UID: 7\r\nB: c\r\n\r\n")

/-- The request object of a received request. -/
def parsed (raw : ReadBufferImpl) : RequestImpl :=
  objectOf raw (((httpParseRequest raw .init).map Prod.snd).getD .init)

/-- The containers when the message 7 has been put. -/
def waiting : SyncQueueHandler := (putSection 0 ⟨[], ∅, ∅⟩ ⟨0, 7⟩).1

/-- The client of the message 7 waits at the connection 0, and a worker comes with the connection 1. -/
def waitingWorld : World := ⟨waiting, fun conn => if conn = 0 then parsed typed else parsed posted⟩

/-- A context in which every send returns `sent`, and no other call meddles. -/
def sending (sent : ℤ) (isRequest : Bool) : PostContext :=
  ⟨fun _ => ⟨fun _ => sent, fun _ => 0, fun _ => []⟩, { plainContext with isRequest }, plainContext, id⟩

/-- The request of the worker in `waitingWorld` names the message 7. -/
theorem names_waitingWorld : Names waitingWorld ⟨1, 8⟩ 7 ⟨0, 7⟩ := ⟨by decide +kernel, by decide +kernel⟩

/-- In `waitingWorld`, without an `IRequest` to forward to, the worker gets its 499. -/
theorem post_failsOrderly_iff_notRequest : FailsOrderly (sending 315 false) waitingWorld ⟨1, 8⟩ := by
  have hfails : (forward (sending 315 false) (asked waitingWorld ⟨1, 8⟩) ⟨1, 8⟩ ⟨0, 7⟩).1 ≠ .ok true := by
    rw [forward_of_notRequest rfl]
    simp
  exact (post_failsOrderly_iff names_waitingWorld hfails).mpr ⟨rfl, rfl, by decide +kernel⟩

/-- When a message has been put and its client cannot be sent to, an exception leaves `Post`. -/
theorem not_failsOrderly_of_clientGone :
    ¬ ∀ (limitSize : ℕ) (s : SyncQueue.State), (SyncQueue.machine limitSize).Reachable s →
      ∀ (ctx : PostContext) (world : World) (worker xrequest : IRequest) (xid : MsgId),
        world.handler = s.handler → Names world worker xid xrequest →
          (forward ctx (asked world worker) worker xrequest).1 ≠ .ok true →
            FailsOrderly ctx world worker := by
  intro h
  have hreachable : (SyncQueue.machine 0).Reachable (SyncQueue.State.init.afterPut 0 0 7) :=
    Machine.ReachableUnder.init.step (a := .put 0 7) trivial rfl
  have hfails : (forward (sending (-1) true) (asked waitingWorld ⟨1, 8⟩) ⟨1, 8⟩ ⟨0, 7⟩).1 ≠ .ok true := by
    intro hsent
    obtain ⟨-, hhead, -⟩ := fst_forward_eq_true_iff.mp hsent
    have hsend : ((sending (-1) true).env 0).send ((forwarding (sending (-1) true)
        (asked waitingWorld ⟨1, 8⟩) ⟨0, 7⟩).requests 0).request.sent = -1 := rfl
    rw [hsend] at hhead
    omega
  have horderly := h 0 _ hreachable (sending (-1) true) waitingWorld ⟨1, 8⟩ ⟨0, 7⟩ 7 rfl
    names_waitingWorld hfails
  exact absurd ((post_failsOrderly_iff names_waitingWorld hfails).mp horderly).1 (by decide)

/-! ### The containers -/

/-- How the machine of the queue class sees the end of a forwarded reply. -/
def forwardResult : Except Exn Bool → ReplyResult
  | .ok true => .delivered
  | .ok false => .notARequest
  | .error _ => .runtimeException

/-- The steps of the machine from the end of a forwarded reply on. -/
def forwardActions (c : SyncQueue.CallId) : ReplyResult → List SyncQueue.Action
  | .delivered => [.postForward c .delivered, .postErase c]
  | .notARequest => [.postForward c .notARequest]
  | .runtimeException => [.postForward c .runtimeException]

/-- The answer of `Post` to its worker leaves the containers as they are; the second section has changed them before
it. -/
theorem handler_answerForwarded (forwarded : Except Exn Bool × World) :
    (answerForwarded ctx worker xid forwarded).2.handler =
      if forwarded.1 = .ok true then forwarded.2.handler.postEraseSection xid else forwarded.2.handler := by
  obtain ⟨result, left⟩ := forwarded
  rcases result with exn | sent
  · rfl
  · cases sent
    · rw [answerForwarded, handler_answer]
      rfl
    · rw [answerForwarded, handler_answer]
      rfl

/-- The `catch` of `Post` leaves the containers as they are. -/
@[simp] theorem handler_postCatch (out : Except Exn Unit × World) :
    (postCatch ctx worker out).2.handler = out.2.handler := by
  obtain ⟨result, left⟩ := out
  rcases result with (what | what) | done
  · rfl
  · exact handler_answer 400 _
  · rfl

open SyncQueue in
/-- What `Post` does to the containers is a run of the machine: the lookup, whatever other calls do in the
meantime, the forwarded reply, and the second section when it has been sent. -/
theorem exec_post {limitSize : ℕ} {s s₁ : State} {c : CallId} {others : List Action}
    (hnames : Names world worker xid xrequest) (hhandler : world.handler = s.handler)
    (hidle : s.calls c = .idle)
    (hothers : (machine limitSize).exec (s.afterPostLookup c xid) others = some s₁)
    (hmeddled : s₁.handler = ctx.others s.handler) (hcall : s₁.calls c = .forwarding xid xrequest) :
    ∃ s', (machine limitSize).exec s (.postLookup c xid :: others ++ forwardActions c
        (forwardResult (forward ctx (asked world worker) worker xrequest).1)) = some s' ∧
      s'.handler = (post ctx world worker).2.handler := by
  have hlookup : (machine limitSize).step s (.postLookup c xid) = some (s.afterPostLookup c xid) := by
    show step limitSize s (.postLookup c xid) = _
    exact step_postLookup_eq_some.mpr ⟨hidle, rfl⟩
  have hpost : (post ctx world worker).2.handler =
      if (forward ctx (asked world worker) worker xrequest).1 = .ok true
        then s₁.handler.postEraseSection xid else s₁.handler := by
    rw [post_of_names hnames, handler_postCatch, handler_answerForwarded, hmeddled, ← hhandler]
    rfl
  have hforward : ∀ result, (machine limitSize).step s₁ (.postForward c result) =
      some (s₁.afterPostForward c xid xrequest result) := by
    intro result
    show step limitSize s₁ (.postForward c result) = _
    exact step_postForward_eq_some.mpr ⟨xid, xrequest, hcall, rfl⟩
  rw [Machine.exec_append, Machine.exec, hlookup, Option.bind_some, hothers, Option.bind_some, hpost]
  generalize (forward ctx (asked world worker) worker xrequest).1 = result
  rcases result with exn | sent
  · refine ⟨s₁.afterPostForward c xid xrequest .runtimeException, ?_, rfl⟩
    rw [forwardResult, forwardActions, Machine.exec, hforward]
    rfl
  · cases sent
    · refine ⟨s₁.afterPostForward c xid xrequest .notARequest, ?_, rfl⟩
      rw [forwardResult, forwardActions, Machine.exec, hforward]
      rfl
    · refine ⟨(s₁.afterPostForward c xid xrequest .delivered).afterPostErase c xid, ?_, rfl⟩
      have herase : (machine limitSize).step (s₁.afterPostForward c xid xrequest .delivered) (.postErase c) =
          some ((s₁.afterPostForward c xid xrequest .delivered).afterPostErase c xid) := by
        show step limitSize _ (.postErase c) = _
        exact step_postErase_eq_some.mpr ⟨xid, xrequest, by simp [State.afterPostForward], rfl⟩
      rw [forwardResult, forwardActions, Machine.exec, hforward, Option.bind_some, Machine.exec, herase]
      rfl

end SyncQueueHandler

end NavekFiber
