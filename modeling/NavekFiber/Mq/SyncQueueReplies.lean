import NavekFiber.Main.RequestImpl
import NavekFiber.Mq.SyncQueue
import NavekFiber.Net.HttpReply

/-! # The replies of the queue class: `SyncQueueHandler::ReplyWithCode`

`Get` passes the content of a stored request on to a worker, `Post` passes the content of the worker's
request on to the client that waits for it. Both go through `ReplyWithCode` and take the content type from
the request whose content they pass on.

* `SyncQueueHandler.replyWithCode`: the member function, on the request object it replies to.
* `SyncQueueHandler.passOnCall`: what the handler of the other party is asked to send.
* `SyncQueueHandler.contentType_contributes`: what the content type adds to the head of the answer. -/

namespace NavekFiber

open Utils Proto Http

/-- A body as `ReplyWithCode` hands it on: a pointer, and a length. -/
structure Body where
  /-- The memory from the pointer on, unless it is null. -/
  content : Option (List UInt8)
  /-- `length()`. -/
  length : ℕ

/-- The body of a `std::string`. -/
def Body.ofString (text : List UInt8) : Body := ⟨some (text ++ [0]), text.length⟩

/-- The body of a `zcstring`. -/
def Body.ofSpan (mem : List UInt8) : Option Span → Body
  | some span => ⟨some (mem.drop span.start), span.stop - span.start⟩
  | none => ⟨none, 0⟩

/-- What a call of `ReplyWithCode` does not decide. The counts go into the header map as pointers into
strings that are gone when the map is read. -/
structure ReplyContext where
  /-- `QueryInterface` finds an `IRequest`. -/
  isRequest : Bool
  /-- What is read for `X-MQ-QUEUE-COUNT`. -/
  queueCount : List UInt8
  /-- What is read for `X-MQ-PENDING-COUNT`. -/
  lockedCount : List UInt8
  /-- What is read for `X-MQ-MESSAGES-COUNT`. -/
  messagesCount : List UInt8
  /-- The order of iteration of the header map. -/
  order : List (List UInt8 × List UInt8) → List (List UInt8 × List UInt8)
  /-- Iteration meets every header once. -/
  order_perm : ∀ headers, (order headers).Perm headers

namespace RequestImpl

/-- The content type of a request; the queue class takes one that is missing for JSON. -/
def contentType (self : RequestImpl) : List UInt8 :=
  (self.getHeaderOption (bytes "Content-Type") (some (bytes "application/json"))).1

/-- `GetContent` as a body. -/
def body (self : RequestImpl) : Body := .ofSpan self.request.memory self.request.request.content

end RequestImpl

namespace SyncQueueHandler

/-- The header map of `ReplyWithCode` in the order of its insertions. -/
def replyHeaders (ctx : ReplyContext) (headers : List (List UInt8 × List UInt8))
    (contentType : List UInt8) : List (List UInt8 × List UInt8) :=
  headers ++
    [(bytes "X-MQ-CLASS", bytes "Sync.MQ.Queue"), (bytes "X-MQ-QUEUE-COUNT", ctx.queueCount),
      (bytes "X-MQ-PENDING-COUNT", ctx.lockedCount), (bytes "X-MQ-MESSAGES-COUNT", ctx.messagesCount)] ++
    if contentType = [] then [] else [(bytes "Content-Type", RequestImpl.cString contentType)]

/-- The arguments that `ReplyWithCode` calls `Reply` with. -/
def replyCall (ctx : ReplyContext) (code : ℕ) (message : List UInt8) (body : Body)
    (headers : List (List UInt8 × List UInt8)) (contentType : List UInt8) : ReplyCall :=
  ⟨code, some message, body.content, body.length, ctx.order (replyHeaders ctx headers contentType), true⟩

/-- `ReplyWithCode`, on the request object that it is given. -/
def replyWithCode (env : Environment) (ctx : ReplyContext) (self : RequestImpl) (call : ReplyCall) :
    Except Exn Bool × RequestImpl :=
  if ctx.isRequest then self.reply env call else (.ok false, self)

/-- The call that passes the content of a request on to another party: in `Get` the request is the stored
one and the id its own, in `Post` they are the worker's. -/
def passOnCall (ctx : ReplyContext) (uid : MsgId) (request : RequestImpl) : ReplyCall :=
  replyCall ctx 200 (bytes "OK") request.body [(bytes "X-MSG-FORWARD-UID", numberText uid.toNat)]
    request.contentType

variable {ctx : ReplyContext} {uid : MsgId} {request : RequestImpl} {raw : ReadBufferImpl}

/-- For an empty content, the call that passes it on announces the length of the C string that the pointer points
to. -/
theorem announced_passOnCall_of_empty {span : Span} (ctx : ReplyContext) (uid : MsgId)
    (hcontent : request.request.request.content = some span) (hempty : span.stop ≤ span.start) :
    (passOnCall ctx uid request).announced = ssize (strlen (request.request.memory.drop span.start)) := by
  have hlength : span.stop - span.start = 0 := by omega
  simp [passOnCall, replyCall, ReplyCall.announced, RequestImpl.body, Body.ofSpan, hcontent, hlength]

/-! ### The content type -/

/-- The request object of a request that has been received and parsed. -/
structure Receives (raw : ReadBufferImpl) (request : RequestImpl) : Prop where
  /-- The request is what the parse has stored. -/
  parsed : ∃ code, httpParseRequest raw .init = some (code, request.request.request)
  /-- The strings of the request point into the buffer. -/
  memory_eq : request.request.memory = raw.memory
  /-- Options may have been asked for before. -/
  cached : request.Cached

/-- No header of a request that has been received has a line end in its value. -/
theorem Receives.plainValues (h : Receives raw request) :
    ∀ header ∈ RequestImpl.getHeaders request.request, NoLineEnd header.2 := by
  obtain ⟨code, hparse⟩ := h.parsed
  intro header hmem
  obtain ⟨span, hspan, rfl⟩ := List.mem_map.mp hmem
  rw [h.memory_eq]
  exact (plainValues_init raw.memory).httpParseRequest hparse span hspan

/-- The content type of a request that has been received, be it a value or the default, has no line end. -/
theorem Receives.noLineEnd_contentType (h : Receives raw request) : NoLineEnd request.contentType := by
  have hdefault : NoLineEnd (RequestImpl.cString (bytes "application/json")) := by decide
  rw [RequestImpl.contentType, h.cached.fst_getHeaderOption, RequestImpl.headerOption]
  split
  · rename_i header hfind
    exact h.plainValues header (List.mem_of_find?_eq_some hfind)
  · exact hdefault

/-- A header stands somewhere in the order in which the header map is walked, and around it the others. -/
theorem exists_order_eq (ctx : ReplyContext) (headers : List (List UInt8 × List UInt8))
    (header : List UInt8 × List UInt8) :
    ∃ front back, ctx.order (headers ++ [header]) = front ++ header :: back ∧
      (front ++ back).Perm headers := by
  have hperm := ctx.order_perm (headers ++ [header])
  obtain ⟨front, back, horder⟩ := List.append_of_mem
    (hperm.mem_iff.mpr (List.mem_append_right _ List.mem_cons_self))
  refine ⟨front, back, horder, ?_⟩
  rw [horder] at hperm
  have hcons := (List.perm_middle.symm.trans hperm).trans (List.perm_append_singleton header headers)
  exact (List.perm_cons header).mp hcons

/-- The headers of an answer that passes a content on, but for the content type. -/
def otherHeaders (ctx : ReplyContext) (uid : MsgId) : List (List UInt8 × List UInt8) :=
  replyHeaders ctx [(bytes "X-MSG-FORWARD-UID", numberText uid.toNat)] []

/-- None of the `otherHeaders` is named `Content-Type`. -/
theorem name_ne_of_mem_otherHeaders {header : List UInt8 × List UInt8}
    (hmem : header ∈ otherHeaders ctx uid) : header.1 ≠ bytes "Content-Type" := by
  have hnames : ∀ name ∈ [bytes "X-MSG-FORWARD-UID", bytes "X-MQ-CLASS", bytes "X-MQ-QUEUE-COUNT",
      bytes "X-MQ-PENDING-COUNT", bytes "X-MQ-MESSAGES-COUNT"], name ≠ bytes "Content-Type" := by decide
  refine hnames header.1 ?_
  simp only [otherHeaders, replyHeaders, if_true, List.append_nil, List.cons_append, List.nil_append,
    List.mem_cons, List.not_mem_nil, or_false] at hmem
  rcases hmem with rfl | rfl | rfl | rfl | rfl <;> simp

/-- The content type of the request whose content is passed on is one line of the head: it is the only header
of its name, its value has no line end, and the head without it has the other lines. -/
def ContributesLine (ctx : ReplyContext) (uid : MsgId) (request : RequestImpl) : Prop :=
  ∃ value front back, NoLineEnd value ∧
    (passOnCall ctx uid request).headers = front ++ (bytes "Content-Type", value) :: back ∧
    (∀ header ∈ front ++ back, header.1 ≠ bytes "Content-Type") ∧
    ∀ party : HttpImpl, ∃ before after,
      headLines (party.answer (passOnCall ctx uid request))
        = before ++ (bytes "Content-Type: " ++ value) :: after ∧
      headLines (party.answer { passOnCall ctx uid request with headers := front ++ back })
        = before ++ after

/-- Whatever has been received, no value has a line end; in an answer that passes the content of the request
on, its content type is one line of the head, and no header at all when it is empty. -/
theorem contentType_contributes (h : Receives raw request) (ctx : ReplyContext) (uid : MsgId) :
    (∀ header ∈ RequestImpl.getHeaders request.request, NoLineEnd header.2) ∧
      (request.contentType ≠ [] → ContributesLine ctx uid request) ∧
      (request.contentType = [] →
        ∀ header ∈ (passOnCall ctx uid request).headers, header.1 ≠ bytes "Content-Type") := by
  refine ⟨h.plainValues, fun hne => ?_, fun hnil header hmem => ?_⟩
  · have hvalue : NoLineEnd (RequestImpl.cString request.contentType) := fun b hb =>
      h.noLineEnd_contentType b (List.mem_of_mem_take hb)
    have hname : NoLineEnd (bytes "Content-Type") := by decide
    obtain ⟨front, back, horder, hothers⟩ := exists_order_eq ctx (otherHeaders ctx uid)
      (bytes "Content-Type", RequestImpl.cString request.contentType)
    have hheaders : (passOnCall ctx uid request).headers
        = front ++ (bytes "Content-Type", RequestImpl.cString request.contentType) :: back := by
      rw [← horder]
      simp [passOnCall, replyCall, otherHeaders, replyHeaders, hne]
    refine ⟨_, front, back, hvalue, hheaders, fun header hmem => ?_, fun party => ?_⟩
    · exact name_ne_of_mem_otherHeaders (hothers.mem_iff.mp hmem)
    · exact HttpImpl.headLines_answer_header party hheaders hname hvalue
  · -- An empty content type is not put into the map.
    have hmap := (ctx.order_perm _).mem_iff.mp hmem
    rw [hnil] at hmap
    exact name_ne_of_mem_otherHeaders hmap

/-- A context in which the header map is iterated in the order of its insertions. -/
def plainContext : ReplyContext :=
  ⟨true, bytes "0", bytes "1", bytes "1", id, fun headers => List.Perm.refl headers⟩

/-- A buffer that has received a request, and the request object. -/
def received (text : List UInt8) : ReadBufferImpl := ⟨text.length, 64, text ++ List.replicate 64 0, by simp⟩

/-- The request object of a parsed request. -/
def objectOf (raw : ReadBufferImpl) (request : CRequest) : RequestImpl :=
  .new { HttpImpl.connection with memory := raw.memory, request }

/-- The request object of a buffer that has been parsed is that of a received request. -/
theorem receives_objectOf {code : ℕ} {parsed : CRequest}
    (h : httpParseRequest raw .init = some (code, parsed)) : Receives raw (objectOf raw parsed) :=
  ⟨⟨code, h⟩, rfl, RequestImpl.cached_new _⟩

/-- A message of type `a`. -/
def typed : ReadBufferImpl := received (bytes "PUT /q HTTP/1.1\r\nContent-Type: a\r\nB: c\r\n\r\n")

/-- The type of the message `typed` is passed on as one line. -/
theorem contentType_contributes_typed :
    ∃ request, Receives typed request ∧ ContributesLine plainContext 7 request := by
  have hparse : (httpParseRequest typed .init).map
      (fun answer => (objectOf typed answer.2).contentType) = some (bytes " a") := by
    decide +kernel
  obtain ⟨⟨code, request⟩, hparse, htype⟩ := Option.map_eq_some_iff.mp hparse
  have hreceives := receives_objectOf hparse
  refine ⟨_, hreceives, (contentType_contributes hreceives plainContext 7).2.1 ?_⟩
  rw [htype]
  decide

/-- A message whose type is empty. -/
def untyped : ReadBufferImpl := received (bytes "PUT /q HTTP/1.1\r\nContent-Type:\r\nB: c\r\n\r\n")

/-- The empty type of the message `untyped` is not passed on at all. -/
theorem not_contributesLine_of_empty :
    ¬ ∀ (raw : ReadBufferImpl) (request : RequestImpl), Receives raw request →
      ∀ (ctx : ReplyContext) (uid : MsgId), ContributesLine ctx uid request := by
  intro h
  have hparse : (httpParseRequest untyped .init).map
      (fun answer => (objectOf untyped answer.2).contentType) = some [] := by
    decide +kernel
  obtain ⟨⟨code, request⟩, hparse, htype⟩ := Option.map_eq_some_iff.mp hparse
  obtain ⟨value, front, back, -, hheaders, -, -⟩ :=
    h untyped _ (receives_objectOf hparse) plainContext 7
  have hmem : (bytes "Content-Type", value) ∈ replyHeaders plainContext
      [(bytes "X-MSG-FORWARD-UID", numberText (7 : MsgId).toNat)] (objectOf untyped request).contentType := by
    have hin := List.mem_append_right front (List.mem_cons_self (a := (bytes "Content-Type", value)) (l := back))
    rwa [← hheaders] at hin
  rw [htype] at hmem
  exact name_ne_of_mem_otherHeaders hmem rfl

end SyncQueueHandler

end NavekFiber
