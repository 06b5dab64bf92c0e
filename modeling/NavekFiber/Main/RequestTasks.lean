import NavekFiber.Main.RouterImpl
import NavekFiber.Net.HttpReply

/-! # The task of a connection: `RouterImpl::Process` in a `packaged_task`

The `catch` blocks of `Process` answer an exception with 503, and that answer can throw in turn. Nothing
catches this second exception in `Process`. The main loop enqueues the call of `Process` as a `packaged_task`,
so the exception stays in the future of the task, which the main loop discards: the worker goes on with the
next task, and nobody learns of the exception. A connection that is closed has the descriptor 0, so the answer
to an exception goes there whenever the exception is that of an error reply or of a reply that could not be
sent.

* `HttpImpl.ClosedRefuses`: nothing can be sent with the descriptor 0.
* `RouterImpl.requestTask`: the task that the main loop enqueues.
* `RouterImpl.requestTask_ends`: for which connections an exception is lost in the future, and that their
  sockets are closed. -/

namespace NavekFiber

open Utils Proto

namespace Proto

namespace HttpImpl

variable {env : Environment} {self : HttpImpl} {call : ReplyCall}

/-- What a call of `send` sends, and with which descriptor. -/
@[simp] def sent? : Event → Option (ℕ × List UInt8)
  | .send handle data => some (handle, data)
  | _ => none

/-- What has been sent, call by call. -/
def sends (self : HttpImpl) : List (ℕ × List UInt8) := self.log.filterMap sent?

/-- Nothing is taken as a whole that is sent with the descriptor 0, which is no connection. -/
def ClosedRefuses (env : Environment) (self : HttpImpl) : Prop :=
  ∀ n data, self.sends[n]? = some (0, data) → env.send n ≠ data.length

/-- The calls of `send` that a handler has made are counted in `sent`. -/
def Counted (self : HttpImpl) : Prop := self.sent = self.sends.length

/-- `write_data` counts its call of `send`. -/
theorem Counted.writeData (h : Counted self) (env : Environment) (data : List UInt8) (dataLength : ℕ) :
    Counted (self.writeData env data dataLength).2 := by
  rw [HttpImpl.writeData]
  split
  · simp only [Counted, sends, List.filterMap_append, List.length_append] at h ⊢
    rw [h]
    rfl
  · exact h

/-- `http_close_connection` does not call `send`, so the count stays right. -/
theorem Counted.httpCloseConnection (h : Counted self) : Counted self.httpCloseConnection := by
  rw [HttpImpl.httpCloseConnection]
  split
  · simpa [Counted, sends, List.filterMap_cons] using h
  · exact h

/-- Composing a reply does not call `send`, so the count stays right. -/
theorem Counted.composed (h : Counted self) (env : Environment) (call : ReplyCall) :
    Counted (self.composed env call) := by
  simpa [Counted, sends, HttpImpl.composed, List.filterMap_cons] using h

/-- `Reply` counts its calls of `send`. -/
theorem Counted.reply (h : Counted self) (env : Environment) (call : ReplyCall) :
    Counted (self.reply env call).2 := by
  have hhead := (h.composed env call).writeData env ((self.composed env call).answer call)
    ((self.composed env call).answer call).length
  rw [HttpImpl.reply]
  generalize (self.composed env call).writeData env _ _ = written at hhead
  obtain ⟨written, self₁⟩ := written
  simp only at hhead ⊢
  split
  · exact hhead.httpCloseConnection
  · have hbody := hhead.writeData env (call.content.getD []) call.contentLength
    generalize self₁.writeData env _ _ = written at hbody
    obtain ⟨written, self₂⟩ := written
    simp only at hbody ⊢
    split
    · exact hbody.httpCloseConnection
    · split
      · exact hbody.httpCloseConnection
      · exact hbody

/-- A reply that closes the connection has closed it when `Reply` ends, whether or not it was sent. -/
theorem handle_reply_of_close (env : Environment) (self : HttpImpl) {call : ReplyCall}
    (hclose : call.connectionClose = true) : (self.reply env call).2.handle = 0 := by
  rw [reply]
  generalize (self.composed env call).writeData env _ _ = written
  obtain ⟨written, self₁⟩ := written
  simp only [hclose, if_true]
  split
  · exact handle_httpCloseConnection self₁
  · split
    · exact handle_httpCloseConnection _
    · exact handle_httpCloseConnection _

/-- Whatever `Reply` does after it has written the head, what was logged by then stays in the log. -/
theorem headWritten_prefix (env : Environment) (self : HttpImpl) (call : ReplyCall) :
    (self.headWritten env call).log <+: (self.reply env call).2.log := by
  rw [headWritten, reply]
  generalize (self.composed env call).writeData env _ _ = written
  obtain ⟨written, self₁⟩ := written
  simp only
  split
  · obtain ⟨events, hlog, -⟩ := uses_httpCloseConnection self₁
    exact ⟨events, hlog.symm⟩
  · obtain ⟨⟨events, hlog, -⟩, -⟩ := uses_writeData env self₁ (call.content.getD []) call.contentLength
    have hbody : self₁.log <+: (self₁.writeData env (call.content.getD []) call.contentLength).2.log :=
      ⟨events, hlog.symm⟩
    generalize self₁.writeData env _ _ = written at hbody
    obtain ⟨written, self₂⟩ := written
    obtain ⟨events', hlog', -⟩ := uses_httpCloseConnection self₂
    have hclose : self₁.log <+: self₂.httpCloseConnection.log := hbody.trans ⟨events', hlog'.symm⟩
    simp only at hbody ⊢
    split
    · exact hclose
    · split
      · exact hclose
      · exact hbody

/-- The first call of `send` that `Reply` makes is that of the head, with the descriptor of the handler. -/
theorem sends_reply (h : Counted self) (env : Environment) (call : ReplyCall) :
    (self.reply env call).2.sends[self.sent]? = some (self.handle, (self.composed env call).answer call) := by
  obtain ⟨events, hlog⟩ := headWritten_prefix env self call
  have hsends : (self.reply env call).2.sends =
      self.sends ++ (self.handle, (self.composed env call).answer call) :: events.filterMap sent? := by
    rw [sends, ← hlog, headWritten_eq]
    simp [sends, List.filterMap_cons]
  rw [hsends, h, List.getElem?_append_right (Nat.le_refl _), Nat.sub_self]
  rfl

/-- As nothing can be sent with the descriptor 0, no reply is delivered on a closed connection. -/
theorem not_delivers_of_closed (h : Counted self) (hhandle : self.handle = 0)
    (hclosed : ClosedRefuses env (self.reply env call).2) : ¬ Delivers env self call := by
  intro hdelivers
  have hsent := sends_reply h env call
  rw [hhandle] at hsent
  exact hclosed _ _ hsent hdelivers.1

end HttpImpl

end Proto

namespace RouterImpl

open HttpImpl

variable {env : Environment} {self : HttpImpl} {routes : RouteList (Option IMQ)}

/-- Whatever a queue does with a request, the calls of `send` stay counted. -/
theorem counted_run (run : QueueRun) (env : Environment) {self : HttpImpl} (h : Counted self) :
    Counted (run.run env self).2 := by
  induction run generalizing self with
  | returns => exact h
  | throws => exact h
  | reply call returned threw ihReturned ihThrew =>
      have hreply := h.reply env call
      rw [QueueRun.run]
      generalize self.reply env call = replied at hreply
      obtain ⟨thrown, self'⟩ := replied
      cases thrown with
      | none => exact ihReturned hreply
      | some exn => exact ihThrew exn hreply

/-- Dispatching a request keeps the calls of `send` counted. -/
theorem counted_dispatch (env : Environment) (routes : RouteList (Option IMQ)) (h : Counted self) :
    Counted (dispatch env routes self).2 := by
  rw [RouterImpl.dispatch]
  rcases routes.find (uriOf self) with - | ⟨path, - | queue⟩
  · exact h.reply env notFoundReply
  · exact h
  · simp only [RequestImpl.process]
    cases RequestImpl.handlerOf queue self.request.method with
    | none => exact h.reply env RequestImpl.okReply
    | some handler => exact counted_run handler env h

/-- The `catch` blocks throw nothing exactly when there is nothing to answer, or the connection is still open and
the answer is sent. -/
theorem answerException_returns_iff {ended : Option Exn × HttpImpl} (hcounted : Counted ended.2)
    (hclosed : ClosedRefuses env (answerException env ended).2) :
    (answerException env ended).1 = none ↔
      ∀ exn ∈ ended.1, ended.2.handle ≠ 0 ∧ Delivers env ended.2 (exceptionReply exn) := by
  obtain ⟨thrown, self⟩ := ended
  cases thrown with
  | none => simp [answerException]
  | some exn =>
      simp only [Option.mem_def, Option.some.injEq, forall_eq']
      rw [answerException, reply_returns_iff]
      rw [answerException] at hclosed
      refine ⟨fun hdelivers => ⟨fun hhandle => ?_, hdelivers⟩, fun h => h.2⟩
      exact not_delivers_of_closed hcounted hhandle hclosed hdelivers

/-- An error reply keeps the calls of `send` counted. -/
theorem counted_replyAndThrow (h : Counted self) (env : Environment) (code : ℕ) (exn : Exn) :
    Counted (self.replyAndThrow env code exn).2 := by
  have hreply := h.reply env (.ofCode code none)
  rw [replyAndThrow]
  generalize self.reply env (.ofCode code none) = replied at hreply
  obtain ⟨thrown, self'⟩ := replied
  cases thrown with
  | none => exact hreply
  | some thrown => exact hreply

/-- `replyAndThrow` throws, and it has closed the connection, whether or not the error reply was sent. -/
theorem handle_replyAndThrow (env : Environment) (self : HttpImpl) (code : ℕ) (exn : Exn) :
    (self.replyAndThrow env code exn).2.handle = 0 ∧
      ∃ thrown, (self.replyAndThrow env code exn).1 = some thrown := by
  have hhandle := handle_reply_of_close env self (show (ReplyCall.ofCode code none).connectionClose = true from rfl)
  rw [replyAndThrow]
  generalize self.reply env (.ofCode code none) = replied at hhandle
  obtain ⟨thrown, self'⟩ := replied
  cases thrown with
  | none => exact ⟨hhandle, exn, rfl⟩
  | some thrown => exact ⟨hhandle, thrown, rfl⟩

/-- `HttpImpl::Process` accepts the request, or it answers an error and throws. -/
theorem process_ends {block : Block self.maxRequestLength} {turns : List Turn} {out : Option Exn × HttpImpl}
    (h : self.process env block turns = some out) :
    (∃ raw request, ReadBufferImpl.read block self.maxHeaderLength turns = some (0, raw) ∧
        httpParseRequest raw self.request = some (0, request) ∧
        out = (none, self.accepted env raw request)) ∨
      ∃ (self' : HttpImpl) (code : ℕ) (exn : Exn), self'.sent = self.sent ∧ self'.log = self.log ∧
        out = self'.replyAndThrow env code exn := by
  obtain ⟨⟨result, raw⟩, hread, h⟩ := Option.bind_eq_some_iff.mp h
  by_cases hresult : result = 0
  · subst hresult
    simp only [ne_eq, not_true_eq_false, if_false] at h
    obtain ⟨⟨code, request⟩, hparse, h⟩ := Option.bind_eq_some_iff.mp h
    by_cases hcode : code = 0
    · subst hcode
      simp only [not_true_eq_false, if_false] at h
      exact Or.inl ⟨raw, request, hread, hparse, (Option.some.inj h).symm⟩
    · simp only [hcode, not_false_eq_true, if_true] at h
      exact Or.inr ⟨self.accepted env raw request, code, _, rfl, rfl, (Option.some.inj h).symm⟩
  · simp only [hresult, ne_eq, not_false_eq_true, if_true] at h
    exact Or.inr ⟨self.received env raw, 408, _, rfl, rfl, (Option.some.inj h).symm⟩

/-- What the dispatch of a request throws, if anything, is answered: the connection is still open, and the
answer is sent. -/
def Answered (env : Environment) (routes : RouteList (Option IMQ)) (self : HttpImpl) : Prop :=
  ∀ exn ∈ (dispatch env routes self).1, (dispatch env routes self).2.handle ≠ 0 ∧
    Delivers env (dispatch env routes self).2 (exceptionReply exn)

/-- A request that gets one reply is answered when the reply is sent; when it is not, the connection has been
closed. -/
theorem answered_iff_delivers {call : ReplyCall} (hreply : dispatch env routes self = self.reply env call) :
    Answered env routes self ↔ Delivers env self call := by
  unfold Answered
  rw [hreply]
  refine ⟨fun h => ?_, fun hdelivers exn hexn => ?_⟩
  · by_contra hnot
    have hthrown := fst_reply env self call
    rw [if_neg hnot] at hthrown
    exact (h _ hthrown).1 (handle_reply_of_not_delivers hnot)
  · rw [reply_returns_iff.mpr hdelivers] at hexn
    cases hexn

variable {handle maxRequestLength maxHeaderLength : ℕ} {msgId : MsgId} {address : CAddress}
  {block : Block maxRequestLength} {turns : List Turn} {out : Option Exn × HttpImpl}

/-- As nothing can be sent with the descriptor 0, `Process` of a new connection throws nothing exactly when the
request is received and parsed, and what its dispatch throws, if anything, can be answered on the open
connection. -/
theorem process_throws_nothing_iff (hout : process env routes
      (.new env handle msgId address maxRequestLength maxHeaderLength) block turns = some out)
    (hclosed : ClosedRefuses env out.2) :
    out.1 = none ↔
      ∃ raw request, ReadBufferImpl.read block maxHeaderLength turns = some (0, raw) ∧
        httpParseRequest raw .init = some (0, request) ∧
        Answered env routes
          (.accepted env (.new env handle msgId address maxRequestLength maxHeaderLength) raw request) := by
  have hcounted (self' : HttpImpl) (hsent : self'.sent = 0) (hlog : self'.log = []) : Counted self' := by
    rw [Counted, sends, hsent, hlog]
    rfl
  obtain ⟨ended, hended, hout⟩ := Option.bind_eq_some_iff.mp hout
  rcases process_ends hended with ⟨raw, request, hread, hparse, rfl⟩ | ⟨self', code, exn, hsent, hlog, rfl⟩
  · obtain rfl := Option.some.inj hout
    rw [answerException_returns_iff (counted_dispatch env routes (hcounted _ rfl rfl)) hclosed]
    constructor
    · exact fun h => ⟨raw, request, hread, hparse, h⟩
    · rintro ⟨raw', request', hread', hparse', h⟩
      obtain rfl := (Prod.mk.inj (Option.some.inj (hread.symm.trans hread'))).2
      obtain rfl := (Prod.mk.inj (Option.some.inj (hparse.symm.trans hparse'))).2
      exact h
  · -- The error has been answered and the connection is closed, so the exception is not answered.
    obtain ⟨hhandle, thrown, hthrown⟩ := handle_replyAndThrow env self' code exn
    have hfinal := counted_replyAndThrow (hcounted self' hsent hlog) env code exn
    generalize self'.replyAndThrow env code exn = ended at hended hhandle hthrown hfinal hout
    obtain ⟨result, self''⟩ := ended
    obtain rfl : result = some thrown := hthrown
    obtain rfl := Option.some.inj hout
    refine iff_of_false (fun hnone => ?_) ?_
    · exact ((answerException_returns_iff hfinal hclosed).mp hnone thrown rfl).1 hhandle
    · rintro ⟨raw, request, hread, hparse, -⟩
      have hreturns : HttpImpl.process env
          (.new env handle msgId address maxRequestLength maxHeaderLength) block turns = some (none, _) :=
        process_returns_iff.mpr ⟨raw, request, hread, hparse, rfl⟩
      rw [hended] at hreturns
      simp at hreturns

/-- When an exception leaves the `catch` blocks, the connection has been closed: the exception is that of a reply
that closes the connection. -/
theorem handle_answerException {ended : Option Exn × HttpImpl} (h : (answerException env ended).1 ≠ none) :
    (answerException env ended).2.handle = 0 := by
  obtain ⟨thrown, self⟩ := ended
  cases thrown with
  | none => exact absurd rfl h
  | some exn =>
      have hclose : (exceptionReply exn).connectionClose = true := by
        cases exn with
        | runtimeException what => rfl
        | stdException what => rfl
      rw [answerException]
      exact handle_reply_of_close env self hclose

/-- Whatever comes before, `Process` ends in the `catch` blocks: when an exception leaves it, the connection has
been closed. -/
theorem handle_process_of_throws {routed : HttpImpl} {block : Block routed.maxRequestLength}
    (h : process env routes routed block turns = some out) (hthrown : out.1 ≠ none) : out.2.handle = 0 := by
  obtain ⟨⟨first, routed'⟩, -, hout⟩ := Option.bind_eq_some_iff.mp h
  cases first with
  | none =>
      obtain rfl := Option.some.inj hout
      exact handle_answerException hthrown
  | some exn =>
      obtain rfl := Option.some.inj hout
      exact handle_answerException hthrown

/-! ### The task -/

/-- How a task ends. -/
structure TaskEnd where
  /-- The exception that leaves the task for the loop of the worker, where nothing catches it. -/
  thrown : Option Exn
  /-- The exception that the future of the task keeps. -/
  future : Option Exn
  deriving DecidableEq, Repr

/-- How the `packaged_task` of a function ends: what the function throws is kept for the future. -/
def TaskEnd.packaged (thrown : Option Exn) : TaskEnd := ⟨none, thrown⟩

/-- The task that the main loop enqueues for a connection: `RouterImpl::Process` in a `packaged_task`. It has no
result when the handler's `Process` has none. -/
def requestTask (env : Environment) (routes : RouteList (Option IMQ)) (self : HttpImpl)
    (block : Block self.maxRequestLength) (turns : List Turn) : Option (TaskEnd × HttpImpl) :=
  (process env routes self block turns).map fun out => (.packaged out.1, out.2)

/-- The task of a new connection never ends the worker. As nothing can be sent with the descriptor 0, its future
keeps no exception exactly when the request is received and parsed, and what its dispatch throws, if anything,
can be answered on the open connection. So every request that cannot be received or parsed leaves an exception
that nobody learns of, whether or not the client gets the error reply, and so does every reply that cannot be
sent and that the queue does not see to; but then the socket has been closed. -/
theorem requestTask_ends {ended : TaskEnd} {self' : HttpImpl}
    (hout : requestTask env routes
      (.new env handle msgId address maxRequestLength maxHeaderLength) block turns = some (ended, self'))
    (hclosed : ClosedRefuses env self') :
    ended.thrown = none ∧
      (ended.future = none ↔
        ∃ raw request, ReadBufferImpl.read block maxHeaderLength turns = some (0, raw) ∧
          httpParseRequest raw .init = some (0, request) ∧
          Answered env routes
            (.accepted env (.new env handle msgId address maxRequestLength maxHeaderLength) raw request)) ∧
      (ended.future ≠ none → self'.handle = 0) := by
  obtain ⟨⟨thrown, self''⟩, hprocess, hended⟩ := Option.map_eq_some_iff.mp hout
  obtain ⟨rfl, rfl⟩ := Prod.mk.inj hended
  exact ⟨rfl, process_throws_nothing_iff hprocess hclosed, handle_process_of_throws hprocess⟩

/-- An environment in which the first call of `send` takes 208 bytes, as many as the error reply below has, and
the others fail. -/
def takingOnce : Environment := ⟨fun sent => if sent = 0 then 208 else -1, fun _ => 0, fun _ => []⟩

/-- A request with a method that is none. -/
def garbage : List Turn := [⟨.got (bytes "FOO /a HTTP/1.1\r\nA: b\r\n\r\n"), some 0⟩]

/-- The client of a request with an unknown method gets the error reply, its socket is closed, and the future of
the task keeps the exception of the second reply. -/
theorem requestTask_ends_garbage :
    ∃ ended self', requestTask takingOnce [] (.new takingOnce 5 1 ⟨bytes "127.0.0.1", 80⟩ 64 64) probeBlock garbage =
        some (ended, self') ∧
      self'.sends[0]?.map Prod.fst = some 5 ∧ ended.thrown = none ∧ ended.future ≠ none ∧ self'.handle = 0 := by
  have hrun : (requestTask takingOnce [] (.new takingOnce 5 1 ⟨bytes "127.0.0.1", 80⟩ 64 64) probeBlock garbage).map
      (fun out => out.2.sends[0]?.map Prod.fst) = some (some 5) := by decide +kernel
  obtain ⟨⟨ended, self'⟩, hout, hfirst⟩ := Option.map_eq_some_iff.mp hrun
  have hclosed : ClosedRefuses takingOnce self' := by
    intro n data hsent
    cases n with
    | zero =>
        simp only at hfirst
        rw [hsent] at hfirst
        exact absurd hfirst (by simp)
    | succ n =>
        intro htaken
        have hfails : takingOnce.send (n + 1) = -1 := rfl
        omega
  obtain ⟨hthrown, hfuture, hhandle⟩ := requestTask_ends hout hclosed
  have hkept : ended.future ≠ none := by
    rw [Ne, hfuture]
    rintro ⟨raw, request, hread, hparse, -⟩
    have hcode : ((ReadBufferImpl.read probeBlock 64 garbage).bind fun read =>
        (httpParseRequest read.2 .init).map Prod.fst) = some 405 := by decide +kernel
    rw [hread, Option.bind_some, hparse] at hcode
    exact absurd hcode (by simp)
  exact ⟨ended, self', hout, hfirst, hthrown, hkept, hhandle hkept⟩

end RouterImpl

end NavekFiber
