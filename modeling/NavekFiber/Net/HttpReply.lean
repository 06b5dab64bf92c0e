import NavekFiber.Net.HttpHeaderValues
import NavekFiber.Net.HttpImpl

/-! # What a reply has sent when it returns

`Reply` takes the number in the `Content-Length` line from `strlen` when it is given no length, but it sends
as many bytes as the length says. The two agree when there is no content to measure
(`announced_eq_bodySent_iff`). A header without line ends is one line of the head
(`headLines_answer_header`).

* `HttpImpl.answer_eq`: the head of an answer in its parts.
* `HttpImpl.log_reply_of_returns`: what a reply that returns has done to the connection. -/

namespace NavekFiber

open Http

namespace Proto

/-- The lines of a head, and what stands behind the last one; a line ends with `"\r\n"`. -/
def headLines : List UInt8 → List (List UInt8)
  | [] => [[]]
  | [b] => [[b]]
  | b :: c :: rest =>
      if b = cr ∧ c = lf then [] :: headLines rest
      else (headLines (c :: rest)).modifyHead (b :: ·)

/-- A head has a first line at least, perhaps an open one. -/
theorem headLines_ne_nil (text : List UInt8) : headLines text ≠ [] := by
  induction text using headLines.induct with
  | case1 => simp [headLines]
  | case2 b => simp [headLines]
  | case3 b c rest h => simp [headLines, h]
  | case4 b c rest h ih => simpa [headLines, h] using ih

/-- The lines of two texts with a line end between them are those of the first text and those of the second. -/
theorem headLines_append (text rest : List UInt8) :
    headLines (text ++ cr :: lf :: rest) = headLines text ++ headLines rest := by
  induction text using headLines.induct with
  | case1 => simp [headLines]
  | case2 b => simp [headLines]
  | case3 b c text h ih =>
      obtain ⟨rfl, rfl⟩ := h
      simpa [headLines] using ih
  | case4 b c text h ih =>
      obtain ⟨line, lines, hlines⟩ := List.exists_cons_of_ne_nil (headLines_ne_nil (c :: text))
      rw [List.cons_append, List.cons_append, headLines, if_neg h, ← List.cons_append, ih, headLines,
        if_neg h, hlines]
      rfl

/-- A text without line ends is one line. -/
theorem headLines_of_noLineEnd {text : List UInt8} (h : NoLineEnd text) : headLines text = [text] := by
  induction text using headLines.induct with
  | case1 => rfl
  | case2 b => rfl
  | case3 b c rest hend => exact absurd hend.1 (h b List.mem_cons_self).1
  | case4 b c rest hend ih =>
      rw [headLines, if_neg hend, ih fun d hd => h d (List.mem_cons_of_mem _ hd)]
      rfl

/-- The number in the `Content-Length` line. -/
def ReplyCall.announced (call : ReplyCall) : ℤ :=
  ssize (if call.contentLength ≠ 0 then call.contentLength else (call.content.map strlen).getD 0)

namespace HttpImpl

variable {env : Environment} {self : HttpImpl} {call : ReplyCall}

/-! ### The head -/

/-- The lines of the head in front of the headers. -/
def answerStart (call : ReplyCall) : List UInt8 :=
  bytes "HTTP/1.1 " ++ sizeText call.code ++ bytes " " ++ httpMessage call.code call.message ++
    bytes "\r\nServer: NavekFiber\r\nX-Powered-By: FiberBus/19.1.0.0-dev\r\n"

/-- A header as a line of the head. -/
def headerLine (header : List UInt8 × List UInt8) : List UInt8 :=
  header.1 ++ bytes ": " ++ header.2 ++ bytes "\r\n"

/-- The lines of the head behind the announced length. -/
def answerEnd (self : HttpImpl) (call : ReplyCall) : List UInt8 :=
  bytes "\r\n" ++ (if call.connectionClose then bytes "Connection: close\r\n" else []) ++
    bytes "X-MSG-UID: " ++ sizeText self.msgId.toNat ++ bytes "\r\n" ++
    telemetryText self.telemetry ++ bytes "\r\n"

/-- The head of an answer is its first lines, its headers, the announced length and the lines behind it. -/
theorem answer_eq (self : HttpImpl) (call : ReplyCall) :
    self.answer call = answerStart call ++ call.headers.flatMap headerLine ++
      (bytes "Content-Length: " ++ numberText call.announced ++ answerEnd self call) := by
  have hlines : (fun header : List UInt8 × List UInt8 =>
      header.1 ++ bytes ": " ++ header.2 ++ bytes "\r\n") = headerLine := rfl
  rw [answer, hlines, answerStart, answerEnd]
  simp only [List.append_assoc]
  rfl

/-- In front of each header the head has a line end. -/
theorem exists_answerStart_append (call : ReplyCall) (headers : List (List UInt8 × List UInt8)) :
    ∃ text, answerStart call ++ headers.flatMap headerLine = text ++ [cr, lf] := by
  rcases List.eq_nil_or_concat' headers with rfl | ⟨headers, header, rfl⟩
  · refine ⟨bytes "HTTP/1.1 " ++ sizeText call.code ++ bytes " " ++ httpMessage call.code call.message ++
      bytes "\r\nServer: NavekFiber\r\nX-Powered-By: FiberBus/19.1.0.0-dev", ?_⟩
    have hlast : bytes "\r\nServer: NavekFiber\r\nX-Powered-By: FiberBus/19.1.0.0-dev\r\n" =
        bytes "\r\nServer: NavekFiber\r\nX-Powered-By: FiberBus/19.1.0.0-dev" ++ [cr, lf] := by
      decide
    rw [List.flatMap_nil, List.append_nil, answerStart, hlast, List.append_assoc _ _ [cr, lf]]
  · refine ⟨answerStart call ++ headers.flatMap headerLine ++ (header.1 ++ bytes ": " ++ header.2), ?_⟩
    rw [List.flatMap_append, List.flatMap_singleton, headerLine, List.append_assoc, List.append_assoc]
    simp only [List.append_assoc]
    rfl

/-- A header whose name and value have no line end is one line of the head, and without the header the head
has the other lines. -/
theorem headLines_answer_header {name value : List UInt8} {front back : List (List UInt8 × List UInt8)}
    (self : HttpImpl) (hheaders : call.headers = front ++ (name, value) :: back) (hname : NoLineEnd name)
    (hvalue : NoLineEnd value) :
    ∃ before after, headLines (self.answer call) = before ++ (name ++ bytes ": " ++ value) :: after ∧
      headLines (self.answer { call with headers := front ++ back }) = before ++ after := by
  obtain ⟨text, htext⟩ := exists_answerStart_append call front
  have hline : NoLineEnd (name ++ bytes ": " ++ value) := by
    have hcolon : NoLineEnd (bytes ": ") := by decide
    intro b hb
    rcases List.mem_append.mp hb with hb | hb
    · rcases List.mem_append.mp hb with hb | hb
      · exact hname b hb
      · exact hcolon b hb
    · exact hvalue b hb
  have hwith : self.answer call = text ++ cr :: lf :: ((name ++ bytes ": " ++ value) ++ cr :: lf ::
      (back.flatMap headerLine ++
        (bytes "Content-Length: " ++ numberText call.announced ++ answerEnd self call))) := by
    rw [answer_eq, hheaders, List.flatMap_append, ← List.append_assoc (answerStart call), htext]
    simp only [List.flatMap_cons, headerLine, List.append_assoc, List.cons_append, List.nil_append]
    rfl
  have hwithout : self.answer { call with headers := front ++ back } = text ++ cr :: lf ::
      (back.flatMap headerLine ++
        (bytes "Content-Length: " ++ numberText call.announced ++ answerEnd self call)) := by
    rw [answer_eq, List.flatMap_append,
      show answerStart { call with headers := front ++ back } = answerStart call from rfl,
      ← List.append_assoc (answerStart call), htext]
    simp only [List.append_assoc, List.cons_append, List.nil_append]
    rfl
  refine ⟨headLines text, headLines (back.flatMap headerLine ++
    (bytes "Content-Length: " ++ numberText call.announced ++ answerEnd self call)), ?_, ?_⟩
  · rw [hwith, headLines_append, headLines_append, headLines_of_noLineEnd hline]
    rfl
  · rw [hwithout, headLines_append]

/-! ### What is sent -/

/-- The handler when `Reply` has sent the head. -/
def headWritten (env : Environment) (self : HttpImpl) (call : ReplyCall) : HttpImpl :=
  ((self.composed env call).writeData env ((self.composed env call).answer call)
    ((self.composed env call).answer call).length).2

/-- How many bytes `Reply` sends behind the head: what `WriteData` returns for the content, and none when
that is an error. -/
def bodySent (env : Environment) (self : HttpImpl) (call : ReplyCall) : ℕ :=
  ((self.headWritten env call).writeData env (call.content.getD []) call.contentLength).1.toNat

/-- `Reply` sends the head with one call of `send`. -/
theorem headWritten_eq (env : Environment) (self : HttpImpl) (call : ReplyCall) :
    self.headWritten env call =
      { self.composed env call with
        sent := self.sent + 1
        log := self.log ++ [.reply self.handle call.code,
          .send self.handle ((self.composed env call).answer call)] } := by
  rw [headWritten, writeData, if_pos (length_answer_ne_zero _ _), List.take_length]
  simp [composed]

/-- A reply returns exactly when both of its sends are complete. -/
theorem reply_returns_iff : (self.reply env call).1 = none ↔ Delivers env self call := by
  rw [fst_reply]
  by_cases h : Delivers env self call <;> simp [h]

/-- A reply that returns has sent the head, the content unless its length is zero, and has closed the connection when
it was asked to. -/
theorem log_reply_of_returns (h : (self.reply env call).1 = none) :
    (self.reply env call).2.log =
      self.log ++ [.reply self.handle call.code, .send self.handle ((self.composed env call).answer call)] ++
        (if call.contentLength = 0 then []
          else [.send self.handle ((call.content.getD []).take call.contentLength)]) ++
        (if call.connectionClose = true ∧ self.handle ≠ 0 then [.close self.handle] else []) := by
  obtain ⟨hhead, hbody⟩ := reply_returns_iff.mp h
  have hwritten : (self.composed env call).writeData env ((self.composed env call).answer call)
      ((self.composed env call).answer call).length = (env.send self.sent, self.headWritten env call) := by
    rw [headWritten, writeData, if_pos (length_answer_ne_zero _ _)]
    rfl
  rw [reply]
  simp only [hwritten, hhead, ne_eq, not_true_eq_false, if_false]
  rw [headWritten_eq]
  by_cases hzero : call.contentLength = 0
  · cases hclose : call.connectionClose <;> by_cases hopen : self.handle = 0 <;>
      simp [hzero, writeData, httpCloseConnection, composed, hopen]
  · have hsent := hbody.resolve_left hzero
    cases hclose : call.connectionClose <;> by_cases hopen : self.handle = 0 <;>
      simp [hzero, writeData, httpCloseConnection, composed, hopen, hsent]

/-- A reply that returns has sent as many bytes behind the head as its length says, read as a signed
number. -/
theorem bodySent_of_returns (h : (self.reply env call).1 = none) :
    self.bodySent env call = (ssize call.contentLength).toNat := by
  obtain ⟨-, hbody⟩ := reply_returns_iff.mp h
  rw [bodySent, headWritten_eq, writeData]
  by_cases hzero : call.contentLength = 0
  · simp [hzero]
  · rw [if_pos hzero]
    exact congrArg Int.toNat (hbody.resolve_left hzero)

/-- A reply that returns has announced as many bytes as it has sent behind the head exactly when a length
was given, one that is not negative as a signed number, or there is no content or an empty C string. -/
theorem announced_eq_bodySent_iff (h : (self.reply env call).1 = none) :
    call.announced = self.bodySent env call ↔
      (call.contentLength ≠ 0 → 0 ≤ ssize call.contentLength) ∧
        (call.contentLength = 0 → ∀ memory ∈ call.content, ssize (strlen memory) = 0) := by
  rw [bodySent_of_returns h, ReplyCall.announced]
  by_cases hzero : call.contentLength = 0
  · cases hcontent : call.content <;> simp [hzero]
  · simp only [ne_eq, hzero, not_false_eq_true, if_true, forall_true_left, IsEmpty.forall_iff, and_true]
    omega

/-- An environment in which the first send takes a head of 192 bytes and the second one two bytes. -/
def taking192 : Environment := ⟨fun sent => if sent = 0 then 192 else 2, fun _ => 0, fun _ => []⟩

/-- A new connection. -/
def connection : HttpImpl := .new taking192 5 1 ⟨bytes "127.0.0.1", 80⟩ 64 64

/-- An answer with a body of two bytes. -/
def helpCall : ReplyCall := ⟨200, some (bytes "OK"), some (bytes "ok"), 2, [], true⟩

/-- The two bytes of the body of `helpCall` are announced and sent. -/
theorem announced_eq_bodySent_iff_two :
    (connection.reply taking192 helpCall).1 = none ∧
      helpCall.announced = connection.bodySent taking192 helpCall := by
  have hreturns : (connection.reply taking192 helpCall).1 = none := by decide +kernel
  exact ⟨hreturns, (announced_eq_bodySent_iff hreturns).mpr (by decide +kernel)⟩

/-- A received request with an empty body, in front of what an earlier one left in the buffer. -/
def emptyBody : ReadBufferImpl := ⟨25, 64, bytes "PUT /a HTTP/1.1\r\nA: b\r\n\r\nold" ++ [0], by decide⟩

/-- The answer with the content of `emptyBody` as its body: a pointer behind the bytes received, and the length
zero. -/
def emptyBodyCall : ReplyCall :=
  ⟨200, some (bytes "OK"), some (emptyBody.memory.drop (emptyBody.content 25).start), 0, [], true⟩

/-- The body of `emptyBodyCall` is announced with the length of whatever stands behind it, although nothing is
sent. -/
theorem not_announced_eq_bodySent_of_emptyBody :
    ¬ ∀ (env : Environment) (self : HttpImpl) (call : ReplyCall), (self.reply env call).1 = none →
      call.announced = self.bodySent env call := by
  intro h
  have hreturns : (connection.reply taking192 emptyBodyCall).1 = none := by decide +kernel
  exact absurd (h taking192 connection emptyBodyCall hreturns) (by decide +kernel)

end HttpImpl

end Proto

end NavekFiber
