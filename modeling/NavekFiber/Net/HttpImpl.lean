import NavekFiber.Mq.Interfaces
import NavekFiber.Net.HttpCodes
import NavekFiber.Net.HttpParse
import NavekFiber.Net.Receive
import NavekFiber.Utils.Numbers

/-! # The connection handler `HttpImpl`

`Process` receives a request and parses it; when either fails it answers with an error and throws as
well. `Reply` sends an answer and closes the connection; when a send is not complete it closes the
connection and throws. The handler of a connection is run in an environment that says what each call
of `send` returns, and keeps a log of what it does to the connection.

* `HttpImpl.reply`, `HttpImpl.process`: the two member functions. They return what they throw, if
  anything, together with the handler they leave behind.
* `HttpImpl.log_reply`, `HttpImpl.reply_throws_iff`: all that a reply does. -/

namespace NavekFiber

namespace Proto

/-- The address of the peer of a connection. -/
structure CAddress where
  /-- `toString()`. -/
  text : List UInt8
  /-- The port. -/
  port : ℕ
  deriving DecidableEq, Repr

/-- Times of a request in microseconds; zero while they are unset. -/
structure CTelemetry where
  /-- The handler was made. -/
  createdAt : ℤ
  /-- The request was received. -/
  readingAt : ℤ
  /-- The answer was composed. -/
  finishedAt : ℤ
  /-- The request left a queue. -/
  emplacedAt : ℤ
  /-- The answer to the request arrived. -/
  extractedAt : ℤ
  deriving DecidableEq, Repr

/-- What the handler does to its connection. -/
inductive Event
  /-- `Reply` is called while the connection has this handle. -/
  | reply (handle code : ℕ)
  /-- `send` is called with this handle and these bytes. -/
  | send (handle : ℕ) (data : List UInt8)
  /-- The connection is closed. -/
  | close (handle : ℕ)
  deriving DecidableEq, Repr

/-- A handler with its connection. -/
structure HttpImpl where
  /-- The descriptor of the connection; zero once it has been closed. -/
  handle : ℕ
  /-- The message id. -/
  msgId : MsgId
  /-- The length of the receive buffer. -/
  maxRequestLength : ℕ
  /-- The length of the window for the head. -/
  maxHeaderLength : ℕ
  /-- The peer. -/
  address : CAddress
  /-- The request. -/
  request : CRequest
  /-- The memory that the strings of the request point into. -/
  memory : List UInt8
  /-- The times. -/
  telemetry : CTelemetry
  /-- How many calls of `send` there have been. -/
  sent : ℕ
  /-- How often the clock has been read. -/
  ticks : ℕ
  /-- What has been done to the connection. -/
  log : List Event
  deriving DecidableEq, Repr

/-- What a handler does not decide: what its calls of `send` return, the readings of the clock and the texts of the
errors. -/
structure Environment where
  /-- What the calls of `send` return. -/
  send : ℕ → ℤ
  /-- What the readings of the clock are. -/
  timestamp : ℕ → ℤ
  /-- The texts of the system's errors. -/
  strerror : ℕ → List UInt8

/-- The arguments of `Reply`. -/
structure ReplyCall where
  /-- `Code`. -/
  code : ℕ
  /-- `Message`, unless null. -/
  message : Option (List UInt8)
  /-- The memory from `Content` on, unless null. -/
  content : Option (List UInt8)
  /-- `ContentLength`. -/
  contentLength : ℕ
  /-- `HttpHeaders` in their order of iteration. -/
  headers : List (List UInt8 × List UInt8)
  /-- `ConnectionClose`. -/
  connectionClose : Bool
  deriving DecidableEq, Repr

/-- `Reply` with its default arguments. -/
def ReplyCall.ofCode (code : ℕ) (message : Option (List UInt8)) : ReplyCall :=
  ⟨code, message, none, 0, [], true⟩

/-- `strlen`. -/
def strlen (text : List UInt8) : ℕ := (text.takeWhile (· ≠ 0)).length

/-- `(ssize_t)` of a size. -/
def ssize (val : ℕ) : ℤ := val.toUInt64.toInt64.toInt

@[simp] theorem ssize_zero : ssize 0 = 0 := by decide

/-- `toString` of a size, which is printed with its sign. -/
def sizeText (val : ℕ) : List UInt8 := bytes (toString val.toUInt64.toInt64.toInt)

/-- The text of a `RuntimeException` thrown in a line of `httpimpl.cpp`: the buffer is printed to with
one byte less than it needs. -/
def runtimeException (line : ℕ) (text : List UInt8) : Exn :=
  .runtimeException (text.dropLast ++ bytes " | httpimpl.cpp:" ++ numberText line)

namespace HttpImpl

/-- A new handler. -/
def new (env : Environment) (handle : ℕ) (msgId : MsgId) (address : CAddress)
    (maxRequestLength maxHeaderLength : ℕ) : HttpImpl where
  handle := handle
  msgId := msgId
  maxRequestLength := maxRequestLength
  maxHeaderLength := maxHeaderLength
  address := address
  request := .init
  memory := []
  telemetry := ⟨env.timestamp 0, 0, 0, 0, 0⟩
  sent := 0
  ticks := 1
  log := []

/-- `http_close_connection`. -/
def httpCloseConnection (self : HttpImpl) : HttpImpl :=
  if self.handle ≠ 0 then { self with handle := 0, log := self.log ++ [.close self.handle] } else self

/-- `Socket::WriteData`: nothing is sent when there is nothing to send. -/
def writeData (env : Environment) (self : HttpImpl) (data : List UInt8) (dataLength : ℕ) :
    ℤ × HttpImpl :=
  if dataLength ≠ 0 then
    (env.send self.sent,
      { self with
        sent := self.sent + 1
        log := self.log ++ [.send self.handle (data.take dataLength)] })
  else (0, self)

/-- The telemetry as `Reply` prints it. -/
def telemetryText (telemetry : CTelemetry) : List UInt8 :=
  bytes "X-Fiber-Msg-Telemetry: created-at=" ++ numberText telemetry.createdAt ++
    bytes ";reading-at=" ++ numberText telemetry.readingAt ++
    (if telemetry.emplacedAt ≠ 0 then
      bytes ";emplaced-at=" ++ numberText telemetry.emplacedAt else []) ++
    (if telemetry.extractedAt ≠ 0 then
      bytes ";extracted-at=" ++ numberText telemetry.extractedAt else []) ++
    bytes ";finished-at=" ++ numberText telemetry.finishedAt ++ bytes "\r\n"

/-- The head of the answer that `Reply` sends. -/
def answer (self : HttpImpl) (call : ReplyCall) : List UInt8 :=
  bytes "HTTP/1.1 " ++ sizeText call.code ++ bytes " " ++ httpMessage call.code call.message ++
    bytes "\r\nServer: NavekFiber\r\nX-Powered-By: FiberBus/19.1.0.0-dev\r\n" ++
    (call.headers.flatMap fun h => h.1 ++ bytes ": " ++ h.2 ++ bytes "\r\n") ++
    bytes "Content-Length: " ++
    sizeText (if call.contentLength ≠ 0 then call.contentLength
      else (call.content.map strlen).getD 0) ++
    bytes "\r\n" ++ (if call.connectionClose then bytes "Connection: close\r\n" else []) ++
    bytes "X-MSG-UID: " ++ sizeText self.msgId.toNat ++ bytes "\r\n" ++
    telemetryText self.telemetry ++ bytes "\r\n"

/-- The place of the exceptions' texts where the peer is named. -/
def peerText (self : HttpImpl) : List UInt8 :=
  self.address.text ++ bytes ":" ++ numberText self.address.port

/-- What `Reply` throws. -/
def sendFailure (self : HttpImpl) : Exn :=
  runtimeException 145
    (bytes "Invalid send data " ++ self.peerText ++ bytes ". MsgId: " ++ numberText self.msgId.toNat)

/-- The handler when `Reply` has composed its answer. -/
def composed (env : Environment) (self : HttpImpl) (call : ReplyCall) : HttpImpl :=
  { self with
    telemetry := { self.telemetry with finishedAt := env.timestamp self.ticks }
    ticks := self.ticks + 1
    log := self.log ++ [.reply self.handle call.code] }

/-- `Reply`: what it throws, if anything, and the handler behind it. -/
def reply (env : Environment) (self : HttpImpl) (call : ReplyCall) : Option Exn × HttpImpl :=
  let self := self.composed env call
  let answer := self.answer call
  let (written, self) := self.writeData env answer answer.length
  if written ≠ answer.length then (some self.sendFailure, self.httpCloseConnection)
  else
    let (written, self) := self.writeData env (call.content.getD []) call.contentLength
    if written ≠ ssize call.contentLength then (some self.sendFailure, self.httpCloseConnection)
    else if call.connectionClose then (none, self.httpCloseConnection)
    else (none, self)

/-- `Reply(code)` and then a `throw`, which is not reached when `Reply` throws itself. -/
def replyAndThrow (env : Environment) (self : HttpImpl) (code : ℕ) (exn : Exn) :
    Option Exn × HttpImpl :=
  match self.reply env (.ofCode code none) with
  | (some thrown, self) => (some thrown, self)
  | (none, self) => (some exn, self)

/-- What `Process` throws when it cannot receive. -/
def receiveFailure (env : Environment) (self : HttpImpl) (result : ℕ) : Exn :=
  runtimeException 94
    (bytes "Invalid receive data " ++ self.peerText ++ bytes ". Socket error " ++ env.strerror result ++
      bytes "(" ++ numberText result ++ bytes "). MsgId: " ++ numberText self.msgId.toNat)

/-- What `Process` throws when it cannot parse. -/
def requestFailure (self : HttpImpl) (code : ℕ) : Exn :=
  runtimeException 99
    (bytes "Invalid HTTP request " ++ self.peerText ++ bytes ". HTTP error: " ++ numberText code ++
      bytes ".  MsgId: " ++ numberText self.msgId.toNat)

/-- The handler when `Process` has received. -/
def received (env : Environment) (self : HttpImpl) (raw : ReadBufferImpl) : HttpImpl :=
  { self with
    memory := raw.memory
    telemetry := { self.telemetry with readingAt := env.timestamp self.ticks }
    ticks := self.ticks + 1 }

/-- `Process`. It has no result when a `recv` blocks or the parse reads unmapped memory. -/
def process (env : Environment) (self : HttpImpl) (block : Block self.maxRequestLength)
    (turns : List Turn) : Option (Option Exn × HttpImpl) := do
  let (result, raw) ← ReadBufferImpl.read block self.maxHeaderLength turns
  let self := self.received env raw
  if result ≠ 0 then
    return self.replyAndThrow env 408 (self.receiveFailure env result)
  else
    let (code, request) ← httpParseRequest raw self.request
    let self := { self with request }
    if code ≠ 0 then
      return self.replyAndThrow env code (self.requestFailure code)
    else
      return (none, self)

/-! ### What a reply does -/

variable {env : Environment} {self self₁ self₂ : HttpImpl} {call : ReplyCall}

/-- Both sends of a reply are complete. -/
def Delivers (env : Environment) (self : HttpImpl) (call : ReplyCall) : Prop :=
  env.send self.sent = ((self.composed env call).answer call).length ∧
    (call.contentLength = 0 ∨ env.send (self.sent + 1) = ssize call.contentLength)

instance : Decidable (Delivers env self call) := inferInstanceAs (Decidable (_ ∧ _))

/-- The number of calls of `Reply` so far. -/
def replies (self : HttpImpl) : ℕ :=
  self.log.countP fun event => match event with
    | .reply _ _ => true
    | _ => false

/-- From the first state to the second one, the connection is only used through one handle, and there
is no call of `Reply`. -/
def Uses (handle : ℕ) (self₁ self₂ : HttpImpl) : Prop :=
  ∃ events, self₂.log = self₁.log ++ events ∧
    ∀ event ∈ events, (∃ data, event = .send handle data) ∨ event = .close handle

/-- Two uses of one handle in sequence are one use of it. -/
theorem Uses.trans {handle : ℕ} {self₃ : HttpImpl} (h : Uses handle self₁ self₂)
    (h' : Uses handle self₂ self₃) : Uses handle self₁ self₃ := by
  obtain ⟨events, hlog, hevents⟩ := h
  obtain ⟨events', hlog', hevents'⟩ := h'
  refine ⟨events ++ events', by rw [hlog', hlog, List.append_assoc], fun event hmem => ?_⟩
  rcases List.mem_append.mp hmem with hmem | hmem
  · exact hevents event hmem
  · exact hevents' event hmem

/-- `write_data` uses the handle and keeps it. -/
theorem uses_writeData (env : Environment) (self : HttpImpl) (data : List UInt8) (dataLength : ℕ) :
    Uses self.handle self (self.writeData env data dataLength).2 ∧
      (self.writeData env data dataLength).2.handle = self.handle := by
  rw [writeData]
  split
  · refine ⟨⟨_, rfl, fun event hmem => Or.inl ⟨data.take dataLength, ?_⟩⟩, rfl⟩
    exact List.mem_singleton.mp hmem
  · exact ⟨⟨[], (List.append_nil _).symm, by simp⟩, rfl⟩

/-- `http_close_connection` uses the handle. -/
theorem uses_httpCloseConnection (self : HttpImpl) :
    Uses self.handle self self.httpCloseConnection := by
  rw [httpCloseConnection]
  split
  · refine ⟨_, rfl, fun event hmem => Or.inr ?_⟩
    exact List.mem_singleton.mp hmem
  · exact ⟨[], (List.append_nil _).symm, by simp⟩

/-- `Reply` uses the handle that the connection had when it was called. -/
theorem uses_reply (env : Environment) (self : HttpImpl) (call : ReplyCall) :
    Uses self.handle (self.composed env call) (self.reply env call).2 := by
  obtain ⟨hhead, hhandle⟩ := uses_writeData env (self.composed env call)
    ((self.composed env call).answer call) ((self.composed env call).answer call).length
  have hcomposed : (self.composed env call).handle = self.handle := rfl
  rw [hcomposed] at hhead hhandle
  rw [reply]
  generalize (self.composed env call).writeData env _ _ = written at hhead hhandle
  obtain ⟨written, self₁⟩ := written
  simp only at hhead hhandle ⊢
  split
  · have hclose := uses_httpCloseConnection self₁
    rw [hhandle] at hclose
    exact hhead.trans hclose
  · obtain ⟨hbody, hhandle₂⟩ := uses_writeData env self₁ (call.content.getD []) call.contentLength
    rw [hhandle] at hbody hhandle₂
    generalize self₁.writeData env _ _ = written at hbody hhandle₂
    obtain ⟨written, self₂⟩ := written
    simp only at hbody hhandle₂ ⊢
    have hclose := uses_httpCloseConnection self₂
    rw [hhandle₂] at hclose
    split
    · exact (hhead.trans hbody).trans hclose
    · split
      · exact (hhead.trans hbody).trans hclose
      · exact hhead.trans hbody

/-- Using the connection does not change the number of `replies`. -/
theorem Uses.replies_eq {handle : ℕ} (h : Uses handle self₁ self₂) :
    self₂.replies = self₁.replies := by
  obtain ⟨events, hlog, hevents⟩ := h
  have hzero : (events.countP fun event => match event with
      | .reply _ _ => true
      | _ => false) = 0 := by
    rw [List.countP_eq_zero]
    intro event hmem
    rcases hevents event hmem with ⟨data, rfl⟩ | rfl <;> simp
  rw [replies, replies, hlog, List.countP_append, hzero, Nat.add_zero]

/-- `Reply` adds one to the number of `replies`. -/
theorem replies_reply (env : Environment) (self : HttpImpl) (call : ReplyCall) :
    (self.reply env call).2.replies = self.replies + 1 := by
  rw [(uses_reply env self call).replies_eq, replies, replies, composed]
  simp

/-- The head of an answer is not empty. -/
theorem length_answer_ne_zero (self : HttpImpl) (call : ReplyCall) : (self.answer call).length ≠ 0 := by
  have hhead : bytes "HTTP/1.1 " ≠ [] := by decide
  rw [Ne, List.length_eq_zero_iff, answer]
  simp [hhead]

/-- `Reply` throws a `sendFailure` unless both of its sends are complete. -/
theorem fst_reply (env : Environment) (self : HttpImpl) (call : ReplyCall) :
    (self.reply env call).1 = if Delivers env self call then none else some self.sendFailure := by
  have hhead : (self.composed env call).writeData env ((self.composed env call).answer call)
      ((self.composed env call).answer call).length =
        (env.send self.sent, { self.composed env call with
          sent := self.sent + 1
          log := (self.composed env call).log ++ [.send self.handle ((self.composed env call).answer call)] }) := by
    rw [writeData, if_pos (length_answer_ne_zero _ _), List.take_length]
    rfl
  rw [reply]
  simp only [hhead]
  by_cases hwritten : env.send self.sent = ((self.composed env call).answer call).length
  · by_cases hempty : call.contentLength = 0
    · have hdelivers : Delivers env self call := ⟨hwritten, Or.inl hempty⟩
      rw [if_pos hdelivers]
      cases hclose : call.connectionClose <;> simp [hwritten, hempty, writeData]
    · have hbody : ∀ self' : HttpImpl, (self'.writeData env (call.content.getD [])
          call.contentLength).1 = env.send self'.sent := by
        intro self'
        rw [writeData, if_pos hempty]
      by_cases hrest : env.send (self.sent + 1) = ssize call.contentLength
      · have hdelivers : Delivers env self call := ⟨hwritten, Or.inr hrest⟩
        rw [if_pos hdelivers]
        cases hclose : call.connectionClose <;> simp [hwritten, hbody, hrest]
      · have hdelivers : ¬ Delivers env self call := fun h => h.2.elim hempty hrest
        rw [if_neg hdelivers]
        simp only [hwritten, ne_eq, not_true_eq_false, if_false, hbody, hrest, not_false_eq_true, if_true]
        rw [writeData, if_pos hempty]
        rfl
  · have hdelivers : ¬ Delivers env self call := fun h => hwritten h.1
    rw [if_neg hdelivers]
    simp only [ne_eq, hwritten, not_false_eq_true, if_true]
    rfl

/-- After `http_close_connection` the handle is zero. -/
@[simp] theorem handle_httpCloseConnection (self : HttpImpl) : self.httpCloseConnection.handle = 0 := by
  rw [httpCloseConnection]
  split
  · rfl
  · rename_i h
    exact not_not.mp h

/-- A reply that is not delivered has closed the connection. -/
theorem handle_reply_of_not_delivers (h : ¬ Delivers env self call) : (self.reply env call).2.handle = 0 := by
  have hfst := fst_reply env self call
  rw [if_neg h] at hfst
  rw [reply] at hfst ⊢
  generalize (self.composed env call).writeData env _ _ = written at hfst ⊢
  obtain ⟨written, self₁⟩ := written
  simp only at hfst ⊢
  split at hfst
  · rw [if_pos ‹_›]
    exact handle_httpCloseConnection self₁
  · rw [if_neg ‹_›]
    generalize self₁.writeData env _ _ = written at hfst ⊢
    obtain ⟨written, self₂⟩ := written
    simp only at hfst ⊢
    split at hfst
    · rw [if_pos ‹_›]
      exact handle_httpCloseConnection self₂
    · -- Both sends were complete, so nothing was thrown.
      split at hfst <;> cases hfst

/-! ### How `Process` ends -/

variable {block : Block self.maxRequestLength} {turns : List Turn}

/-- The handler of a request that has been received and parsed. -/
def accepted (env : Environment) (self : HttpImpl) (raw : ReadBufferImpl) (request : CRequest) :
    HttpImpl :=
  { self.received env raw with request }

/-- `replyAndThrow` replies once and ends in an exception all the same. -/
theorem replyAndThrow_eq (env : Environment) (self : HttpImpl) (code : ℕ) (exn : Exn) :
    ∃ thrown, (self.replyAndThrow env code exn).1 = some thrown ∧
      (self.replyAndThrow env code exn).2.replies = self.replies + 1 := by
  have hreplies := replies_reply env self (.ofCode code none)
  rw [replyAndThrow]
  generalize self.reply env (.ofCode code none) = replied at hreplies
  obtain ⟨thrown, self'⟩ := replied
  cases thrown with
  | none => exact ⟨exn, rfl, hreplies⟩
  | some thrown => exact ⟨thrown, rfl, hreplies⟩

/-- `Process` either accepts the request, and then has not touched the connection, or replies once and
throws. -/
theorem process_cases {out : Option Exn × HttpImpl} (h : self.process env block turns = some out) :
    (∃ raw request, ReadBufferImpl.read block self.maxHeaderLength turns = some (0, raw) ∧
        httpParseRequest raw self.request = some (0, request) ∧
        out = (none, self.accepted env raw request)) ∨
      (∃ thrown, out.1 = some thrown) ∧ out.2.replies = self.replies + 1 := by
  obtain ⟨⟨result, raw⟩, hread, h⟩ := Option.bind_eq_some_iff.mp h
  by_cases hresult : result = 0
  · subst hresult
    simp only [ne_eq, not_true_eq_false, if_false] at h
    obtain ⟨⟨code, request⟩, hparse, h⟩ := Option.bind_eq_some_iff.mp h
    by_cases hcode : code = 0
    · subst hcode
      simp only [not_true_eq_false, if_false] at h
      exact Or.inl ⟨raw, request, hread, hparse, (Option.some.inj h).symm⟩
    · simp only [hcode, not_false_eq_true, if_true] at h
      obtain rfl := Option.some.inj h
      obtain ⟨thrown, hthrown, hreplies⟩ := replyAndThrow_eq env
        (self.accepted env raw request) code ((self.accepted env raw request).requestFailure code)
      exact Or.inr ⟨⟨thrown, hthrown⟩, hreplies⟩
  · simp only [hresult, ne_eq, not_false_eq_true, if_true] at h
    obtain rfl := Option.some.inj h
    obtain ⟨thrown, hthrown, hreplies⟩ := replyAndThrow_eq env (self.received env raw) 408
      ((self.received env raw).receiveFailure env result)
    exact Or.inr ⟨⟨thrown, hthrown⟩, hreplies⟩

/-- `Process` returns without throwing exactly when the request is received and parsed. -/
theorem process_returns_iff {self' : HttpImpl} :
    self.process env block turns = some (none, self') ↔
      ∃ raw request, ReadBufferImpl.read block self.maxHeaderLength turns = some (0, raw) ∧
        httpParseRequest raw self.request = some (0, request) ∧
        self' = self.accepted env raw request := by
  constructor
  · intro h
    rcases process_cases h with ⟨raw, request, hread, hparse, hout⟩ | ⟨⟨thrown, hthrown⟩, -⟩
    · exact ⟨raw, request, hread, hparse, (Prod.mk.inj hout).2⟩
    · exact absurd hthrown (by simp)
  · rintro ⟨raw, request, hread, hparse, rfl⟩
    rw [process, hread]
    simp only [Option.bind_eq_bind, Option.bind_some, ne_eq, not_true_eq_false, if_false]
    rw [show httpParseRequest raw (self.received env raw).request = _ from hparse]
    rfl

end HttpImpl

end Proto

end NavekFiber
