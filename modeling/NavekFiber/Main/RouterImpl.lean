import NavekFiber.Main.RouteTable
import NavekFiber.Net.HttpImpl

/-! # The router: `RouterImpl::Process`

The router lets the handler receive its request, looks the route up and passes the request to the
route's queue. Whatever is thrown on the way it answers with 503, also when what has thrown has answered
already.

* `RouterImpl.process`: the member function.
* `RouterImpl.repliesOnce_iff`: when the client gets at most one answer. -/

namespace NavekFiber

open Utils Proto

/-- What a queue does with a request before its method returns to the router. -/
inductive QueueRun
  /-- The method returns. -/
  | returns
  /-- The method throws. -/
  | throws (exn : Exn)
  /-- The method calls `Reply`, and goes on when that returns or throws. -/
  | reply (call : ReplyCall) (returned : QueueRun) (threw : Exn → QueueRun)

/-- `IMQ`: what each method of a queue does with a request. -/
structure IMQ where
  /-- `Get`. -/
  get : QueueRun
  /-- `Post`. -/
  post : QueueRun
  /-- `Put`. -/
  put : QueueRun
  /-- `Head`. -/
  head : QueueRun
  /-- `Options`. -/
  options : QueueRun
  /-- `Delete`. -/
  delete : QueueRun
  /-- `Trace`. -/
  trace : QueueRun
  /-- `Connect`. -/
  connect : QueueRun
  /-- `Patch`. -/
  patch : QueueRun

namespace QueueRun

/-- A queue that replies once and handles no exception. -/
def replyOnce (call : ReplyCall) : QueueRun := .reply call .returns .throws

/-- What a queue's method does to the handler of the request. -/
def run (env : Environment) : QueueRun → HttpImpl → Option Exn × HttpImpl
  | .returns, self => (none, self)
  | .throws exn, self => (some exn, self)
  | .reply call returned threw, self =>
      match self.reply env call with
      | (none, self) => run env returned self
      | (some exn, self) => run env (threw exn) self

end QueueRun

namespace RequestImpl

/-- The method of the queue for the method of the request. -/
def handlerOf (queue : IMQ) : Option RequestMethod → Option QueueRun
  | some .get => some queue.get
  | some .post => some queue.post
  | some .put => some queue.put
  | some .head => some queue.head
  | some .options => some queue.options
  | some .delete => some queue.delete
  | some .trace => some queue.trace
  | some .connect => some queue.connect
  | some .patch => some queue.patch
  | _ => none

/-- The reply of `RequestImpl::Process` to a request without a method. -/
def okReply : ReplyCall := .ofCode 200 (some (bytes "OK"))

/-- `RequestImpl::Process`; there is no queue when the object does not implement `IMQ`. -/
def process (env : Environment) (mq : Option IMQ) (self : HttpImpl) : Option Exn × HttpImpl :=
  match mq with
  | none => (some (.stdException (bytes "IMQ interface not implemented")), self)
  | some queue =>
      match handlerOf queue self.request.method with
      | some handler => handler.run env self
      | none => self.reply env okReply

end RequestImpl

namespace RouterImpl

/-- The path of the request; a path that was not parsed is empty. -/
def uriOf (self : HttpImpl) : CPathString := (self.request.uri.map (Span.text self.memory)).getD []

/-- The reply of the router when there is no route. -/
def notFoundReply : ReplyCall := .ofCode 404 (some (bytes "Endpoint not found"))

/-- The reply of the router to an exception. -/
def exceptionReply : Exn → ReplyCall
  | .runtimeException what =>
      ⟨503, some (bytes "Server.Runtime.Exception"), some (what ++ [0]), strlen what, [], true⟩
  | .stdException what =>
      ⟨503, some (bytes "Server.Std.Exception"), some (what ++ [0]), strlen what, [], true⟩

/-- What the `try` block of the router does with an accepted request: it passes the request to its queue. -/
def dispatch (env : Environment) (routes : RouteList (Option IMQ)) (self : HttpImpl) :
    Option Exn × HttpImpl :=
  match routes.find (uriOf self) with
  | some route => RequestImpl.process env route.2 self
  | none => self.reply env notFoundReply

/-- The two `catch` blocks of the router. -/
def answerException (env : Environment) : Option Exn × HttpImpl → Option Exn × HttpImpl
  | (none, self) => (none, self)
  | (some exn, self) => self.reply env (exceptionReply exn)

/-- `RouterImpl::Process`. It has no result when the handler's `Process` has none. -/
def process (env : Environment) (routes : RouteList (Option IMQ)) (self : HttpImpl)
    (block : Block self.maxRequestLength) (turns : List Turn) : Option (Option Exn × HttpImpl) := do
  match ← self.process env block turns with
  | (none, self) => return answerException env (dispatch env routes self)
  | (some exn, self) => return answerException env (some exn, self)

/-! ### Counting the replies -/

variable {env : Environment} {self : HttpImpl} {routes : RouteList (Option IMQ)}

/-- The client gets at most one answer, and nothing is sent with the handle of a connection that has been
closed. -/
def RepliesOnce (self : HttpImpl) : Prop :=
  self.replies ≤ 1 ∧ ∀ data, Event.send 0 data ∉ self.log

/-- The calls of `Reply` so far, and the one that an exception will be answered with. -/
def due (out : Option Exn × HttpImpl) : ℕ := out.2.replies + if out.1 = none then 0 else 1

/-- The `catch` blocks answer an exception with one reply: behind them there are as many as are `due`. -/
theorem replies_answerException (env : Environment) (out : Option Exn × HttpImpl) :
    (answerException env out).2.replies = due out := by
  obtain ⟨thrown, self⟩ := out
  cases thrown with
  | none => rfl
  | some exn => exact HttpImpl.replies_reply env self (exceptionReply exn)

/-- A queue's method does not take replies back. -/
theorem replies_le_run (run : QueueRun) (env : Environment) (self : HttpImpl) :
    self.replies ≤ (run.run env self).2.replies := by
  induction run generalizing self with
  | returns => exact le_rfl
  | throws => exact le_rfl
  | reply call returned threw ihReturned ihThrew =>
      have hreplies := HttpImpl.replies_reply env self call
      rw [QueueRun.run]
      generalize self.reply env call = replied at hreplies
      obtain ⟨thrown, self'⟩ := replied
      simp only at hreplies
      cases thrown with
      | none =>
          have := ihReturned self'
          simp only
          omega
      | some exn =>
          have := ihThrew exn self'
          simp only
          omega

/-- A queue's method that does anything but return causes a reply, its own or the router's. -/
theorem lt_due_run {run : QueueRun} (hrun : run ≠ .returns) (env : Environment) (self : HttpImpl) :
    self.replies < due (run.run env self) := by
  cases run with
  | returns => exact absurd rfl hrun
  | throws exn => simp [due, QueueRun.run]
  | reply call returned threw =>
      have hreplies := HttpImpl.replies_reply env self call
      rw [QueueRun.run, due]
      generalize self.reply env call = replied at hreplies
      obtain ⟨thrown, self'⟩ := replied
      simp only at hreplies
      cases thrown with
      | none =>
          have := replies_le_run returned env self'
          simp only
          omega
      | some exn =>
          have := replies_le_run (threw exn) env self'
          simp only
          omega

/-- A queue's method replies at most once, and when it does, it returns afterwards. -/
def SettlesOnce (env : Environment) (self : HttpImpl) : QueueRun → Prop
  | .returns => True
  | .throws _ => True
  | .reply call returned threw =>
      if HttpImpl.Delivers env self call then returned = .returns else threw self.sendFailure = .returns

/-- A method that replies once and handles no exception is `SettlesOnce` exactly when its reply is sent. -/
theorem settlesOnce_replyOnce (call : ReplyCall) :
    SettlesOnce env self (.replyOnce call) ↔ HttpImpl.Delivers env self call := by
  by_cases h : HttpImpl.Delivers env self call <;> simp [SettlesOnce, QueueRun.replyOnce, h]

/-- A queue's method causes at most one reply, its own or the router's, exactly when it is `SettlesOnce`. -/
theorem due_run_le_iff (run : QueueRun) (env : Environment) (self : HttpImpl) :
    due (run.run env self) ≤ self.replies + 1 ↔ SettlesOnce env self run := by
  -- After the first reply, whatever the queue goes on with has to be the end of it.
  have hrest : ∀ (rest : QueueRun) (self' : HttpImpl), self'.replies = self.replies + 1 →
      (due (rest.run env self') ≤ self.replies + 1 ↔ rest = .returns) := by
    intro rest self' hreplies
    constructor
    · intro hdue
      by_contra hne
      have := lt_due_run hne env self'
      omega
    · rintro rfl
      simp [due, QueueRun.run, hreplies]
  cases run with
  | returns => simp [due, QueueRun.run, SettlesOnce]
  | throws exn => simp [due, QueueRun.run, SettlesOnce]
  | reply call returned threw =>
      have hreplies := HttpImpl.replies_reply env self call
      have hthrown := HttpImpl.fst_reply env self call
      rw [QueueRun.run, SettlesOnce]
      generalize self.reply env call = replied at hreplies hthrown
      obtain ⟨thrown, self'⟩ := replied
      simp only at hreplies hthrown
      by_cases hdelivers : HttpImpl.Delivers env self call
      · rw [if_pos hdelivers] at hthrown ⊢
        subst hthrown
        exact hrest returned self' hreplies
      · rw [if_neg hdelivers] at hthrown ⊢
        subst hthrown
        exact hrest (threw self.sendFailure) self' hreplies

/-- One call of `Reply` causes no second reply exactly when it is delivered. -/
theorem due_reply_le_iff (env : Environment) (self : HttpImpl) (call : ReplyCall) :
    due (self.reply env call) ≤ self.replies + 1 ↔ HttpImpl.Delivers env self call := by
  rw [due, HttpImpl.replies_reply, HttpImpl.fst_reply]
  by_cases h : HttpImpl.Delivers env self call <;> simp [h]

/-- Dispatching the request causes at most one reply: nothing is done that the `catch` blocks would answer once
more. -/
def Settles (env : Environment) (routes : RouteList (Option IMQ)) (self : HttpImpl) : Prop :=
  match routes.find (uriOf self) with
  | none => HttpImpl.Delivers env self notFoundReply
  | some (_, none) => True
  | some (_, some queue) =>
      match RequestImpl.handlerOf queue self.request.method with
      | none => HttpImpl.Delivers env self RequestImpl.okReply
      | some handler => SettlesOnce env self handler

/-- The dispatch of a request causes at most one reply exactly when it `Settles` the request. -/
theorem due_dispatch_le_iff (env : Environment) (routes : RouteList (Option IMQ)) (self : HttpImpl) :
    due (dispatch env routes self) ≤ self.replies + 1 ↔ Settles env routes self := by
  rw [dispatch, Settles]
  generalize routes.find (uriOf self) = found
  match found with
  | none => exact due_reply_le_iff env self notFoundReply
  | some (_, none) => simp [RequestImpl.process, due]
  | some (_, some queue) =>
      simp only [RequestImpl.process]
      generalize RequestImpl.handlerOf queue self.request.method = handler
      cases handler with
      | none => exact due_reply_le_iff env self RequestImpl.okReply
      | some handler => exact due_run_le_iff handler env self

/-! ### Sending on an open connection -/

/-- As long as there has been at most one reply, everything was sent on an open connection; before the first reply the
connection is still open. -/
def Orderly (self : HttpImpl) : Prop :=
  self.replies ≤ 1 → (∀ data, Event.send 0 data ∉ self.log) ∧ (self.replies = 0 → self.handle ≠ 0)

/-- `Reply` keeps a handler `Orderly`. -/
theorem Orderly.reply (h : Orderly self) (env : Environment) (call : ReplyCall) :
    Orderly (self.reply env call).2 := by
  have hreplies := HttpImpl.replies_reply env self call
  obtain ⟨events, hlog, hevents⟩ := HttpImpl.uses_reply env self call
  intro hle
  obtain ⟨hsends, hopen⟩ := h (by omega)
  refine ⟨fun data hmem => ?_, fun hzero => by omega⟩
  have hcomposed : (self.composed env call).log = self.log ++ [.reply self.handle call.code] := rfl
  rw [hlog, hcomposed, List.append_assoc, List.mem_append, List.mem_append] at hmem
  rcases hmem with hmem | hmem | hmem
  · exact hsends data hmem
  · simp at hmem
  · rcases hevents _ hmem with ⟨data', heq⟩ | heq
    · exact hopen (by omega) (Event.send.inj heq).1.symm
    · simp at heq

/-- A queue's method keeps a handler `Orderly`. -/
theorem Orderly.run (run : QueueRun) (env : Environment) {self : HttpImpl} (h : Orderly self) :
    Orderly (run.run env self).2 := by
  induction run generalizing self with
  | returns => exact h
  | throws => exact h
  | reply call returned threw ihReturned ihThrew =>
      have hreply := h.reply env call
      rw [QueueRun.run]
      generalize self.reply env call = replied at hreply
      obtain ⟨thrown, self'⟩ := replied
      cases thrown with
      | none => exact ihReturned hreply
      | some exn => exact ihThrew exn hreply

/-- The dispatch of a request keeps its handler `Orderly`. -/
theorem Orderly.dispatch (h : Orderly self) (env : Environment) (routes : RouteList (Option IMQ)) :
    Orderly (dispatch env routes self).2 := by
  rw [RouterImpl.dispatch]
  generalize routes.find (uriOf self) = found
  match found with
  | none => exact h.reply env notFoundReply
  | some (_, none) => exact h
  | some (_, some queue) =>
      simp only [RequestImpl.process]
      generalize RequestImpl.handlerOf queue self.request.method = handler
      cases handler with
      | none => exact h.reply env RequestImpl.okReply
      | some handler => exact h.run handler env

/-- The `catch` blocks keep a handler `Orderly`. -/
theorem Orderly.answerException {out : Option Exn × HttpImpl} (h : Orderly out.2) (env : Environment) :
    Orderly (answerException env out).2 := by
  obtain ⟨thrown, self⟩ := out
  cases thrown with
  | none => exact h
  | some exn => exact h.reply env (exceptionReply exn)

/-! ### The whole run -/

/-- A request that has not been answered before gets at most one answer exactly when its dispatch `Settles` it. -/
theorem repliesOnce_dispatch_iff (hzero : self.replies = 0) (horderly : Orderly self) :
    RepliesOnce (answerException env (dispatch env routes self)).2 ↔ Settles env routes self := by
  have hfinal := (horderly.dispatch env routes).answerException env
  rw [← due_dispatch_le_iff, hzero, ← replies_answerException env]
  constructor
  · intro h
    exact h.1
  · intro hle
    exact ⟨hle, (hfinal hle).1⟩

variable {handle maxRequestLength maxHeaderLength : ℕ} {msgId : MsgId} {address : CAddress}

/-- Whenever the router is done with the request of a new connection, there has been at most one reply,
none of it sent after the connection was closed, exactly when the request was received without an error
and parsed with code zero, and its dispatch settles it. -/
theorem repliesOnce_iff (hopen : handle ≠ 0) {block : Block maxRequestLength} {turns : List Turn}
    {out : Option Exn × HttpImpl}
    (hout : process env routes
      (.new env handle msgId address maxRequestLength maxHeaderLength) block turns = some out) :
    RepliesOnce out.2 ↔
      ∃ raw request, ReadBufferImpl.read block maxHeaderLength turns = some (0, raw) ∧
        httpParseRequest raw .init = some (0, request) ∧
        Settles env routes
          (HttpImpl.accepted env (.new env handle msgId address maxRequestLength maxHeaderLength) raw
            request) := by
  obtain ⟨ended, hended, hout⟩ := Option.bind_eq_some_iff.mp hout
  rcases HttpImpl.process_cases hended with ⟨raw, request, hread, hparse, rfl⟩ | ⟨hthrown, hreplies⟩
  · obtain rfl := Option.some.inj hout
    rw [repliesOnce_dispatch_iff rfl fun _ => ⟨fun _ => List.not_mem_nil, fun _ => hopen⟩]
    constructor
    · intro h
      exact ⟨raw, request, hread, hparse, h⟩
    · rintro ⟨raw', request', hread', hparse', h⟩
      obtain rfl := (Prod.mk.inj (Option.some.inj (hread.symm.trans hread'))).2
      obtain rfl := (Prod.mk.inj (Option.some.inj (hparse.symm.trans hparse'))).2
      exact h
  · -- The handler has answered before it threw, and the router answers again.
    obtain ⟨thrown, self'⟩ := ended
    obtain ⟨exn, hexn⟩ := hthrown
    obtain rfl : thrown = some exn := hexn
    obtain rfl := Option.some.inj hout
    refine iff_of_false (fun h => ?_) ?_
    · have htwo := replies_answerException env (some exn, self')
      have hone : self'.replies = 1 := hreplies
      simp only [due, hone, reduceCtorEq, if_false] at htwo
      have := h.1
      omega
    · rintro ⟨raw, request, hread, hparse, -⟩
      have hreturns : HttpImpl.process env
          (.new env handle msgId address maxRequestLength maxHeaderLength) block turns = some (none, _) :=
        HttpImpl.process_returns_iff.mpr ⟨raw, request, hread, hparse, rfl⟩
      rw [hended] at hreturns
      simp at hreturns

/-- An environment in which every `send` takes 208 bytes, as many as the answers below have. -/
def taking208 : Environment := ⟨fun _ => 208, fun _ => 0, fun _ => []⟩

/-- A new connection with a buffer and a window of 64 bytes. -/
def probe : HttpImpl := .new taking208 5 1 ⟨bytes "127.0.0.1", 80⟩ 64 64

/-- The buffer of the connection `probe`, with arbitrary bytes in it. -/
def probeBlock : Block 64 := ⟨List.replicate 64 0, by simp⟩

/-- A request that no route is registered for. -/
def unrouted : List Turn := [⟨.got (bytes "GET /a HTTP/1.1\r\nA: b\r\n\r\n"), some 0⟩]

/-- The request `unrouted` gets one answer when that can be sent. -/
theorem repliesOnce_iff_unrouted :
    ∃ out, process taking208 [] probe probeBlock unrouted = some out ∧ RepliesOnce out.2 := by
  have hsome : (process taking208 [] probe probeBlock unrouted).isSome = true := by decide +kernel
  obtain ⟨out, hout⟩ := Option.isSome_iff_exists.mp hsome
  refine ⟨out, hout, (repliesOnce_iff (by decide) hout).mpr ?_⟩
  have hparse : (httpParseRequest (.afterCalls probeBlock 64 unrouted) .init).map (fun answer =>
      (answer.1, decide (HttpImpl.Delivers taking208 (HttpImpl.accepted taking208 probe
        (.afterCalls probeBlock 64 unrouted) answer.2) notFoundReply))) = some (0, true) := by
    decide +kernel
  obtain ⟨⟨code, request⟩, hparse, hanswer⟩ := Option.map_eq_some_iff.mp hparse
  obtain ⟨rfl, hdelivers⟩ := Prod.mk.inj hanswer
  refine ⟨_, request, ReadBufferImpl.read_eq_some_iff.mpr ⟨unrouted, [], rfl, ?_, rfl⟩, hparse, ?_⟩
  · exact .last (by decide) (by rintro ⟨-, ncount, hncount, hpos, -⟩; cases hncount; omega)
  · show HttpImpl.Delivers taking208
      (HttpImpl.accepted taking208 probe (.afterCalls probeBlock 64 unrouted) request) notFoundReply
    exact of_decide_eq_true hdelivers

/-- A request with an unknown method. -/
def unknownMethod : List Turn := [⟨.got (bytes "FOO / HTTP/1.1\r\n\r\n"), some 0⟩]

/-- A request with an unknown method is answered with 405, and, when that has been sent and the connection
closed, with 503. -/
theorem not_repliesOnce_of_unknownMethod :
    ¬ ∀ (env : Environment) (routes : RouteList (Option IMQ)) (handle : ℕ) (msgId : MsgId)
        (address : CAddress) (maxRequestLength maxHeaderLength : ℕ) (block : Block maxRequestLength)
        (turns : List Turn) (out : Option Exn × HttpImpl), handle ≠ 0 →
      process env routes (.new env handle msgId address maxRequestLength maxHeaderLength) block turns
        = some out → RepliesOnce out.2 := by
  intro h
  have htwice : (process taking208 [] probe probeBlock unknownMethod).map
      (fun out => out.2.replies) = some 2 := by
    decide +kernel
  obtain ⟨out, hout, hreplies⟩ := Option.map_eq_some_iff.mp htwice
  have hle := (h taking208 [] 5 1 _ 64 64 probeBlock unknownMethod out (by decide) hout).1
  omega

end RouterImpl

end NavekFiber
