import NavekFiber.Net.HttpImpl
import NavekFiber.Net.HttpRequest

/-! # Receiving a request with a body

A client sends a head that declares the length of the body, and the body. The handler never looks at the
declared length: it takes what the loop of `Read` has received for the whole request. When the loop
stops early, the request is accepted with a truncated body if its head, or what the window shows in its
place, is acceptable (`content_eq_body_iff`). -/

namespace NavekFiber

open Utils Proto Receive

namespace Http

/-! ### The empty line of a head -/

/-- The head of a request has no blank line before its end. -/
theorem not_hasBlankLine_take_head {request : Request} {n : ℕ} (hn : n < request.head.length) :
    ¬ HasBlankLine (request.head.take n) := by
  rw [request.head_eq_lines] at hn ⊢
  exact fun h => not_hasEmptyLine_take request.plainLines hn h.hasEmptyLine

/-! ### Heads that the parse accepts -/

/-- The text begins with a head that the parse accepts. -/
def AcceptableHead (text : List UInt8) : Prop :=
  ∃ needle ∈ requestMethods, FoldPrefix needle text ∧ HasBlankLine text ∧
    (FirstLineEndsHead text ∨ ¬ TabbedPath needle text)

variable {data : ReadBufferImpl} {request : Request}

/-- The parse accepts exactly the acceptable heads, and the content begins behind the empty line. -/
theorem acceptableHead_iff (data : ReadBufferImpl) (req : CRequest) (hne : data.dataLength ≠ 0) :
    AcceptableHead (slice data.memory 0 data.dataPartLength).bytes ↔
      ∃ req' stop, httpParseRequest data req = some (0, req') ∧
        req'.content = some (data.content stop) ∧
        HasBlankLine ((slice data.memory 0 data.dataPartLength).bytes.take stop) := by
  have hout := parseOutcome data req hne
  generalize httpParseRequest data req = answer at hout
  cases hout with
  | noMethod _ hpre =>
      refine iff_of_false ?_ (by simp)
      rintro ⟨needle, hmem, h, -⟩
      exact hpre needle hmem h
  | methodFault needle hmem _ hstop =>
      refine iff_of_false ?_ (by simp)
      rintro ⟨other, hother, hpre, -⟩
      exact prefixFree_requestMethods.not_stopsWithin hother hmem hpre hstop
  | refused _ needle hmem hpre hends htab =>
      refine iff_of_false ?_ (by simp)
      rintro ⟨other, hother, hpre', -, hpath⟩
      obtain rfl := eq_of_foldPrefix hother hmem hpre' hpre
      exact hpath.elim hends fun h => h htab
  | accepted req' needle stop hmem hpre hcontent hblank hpath =>
      refine iff_of_true ⟨needle, hmem, hpre, hblank.of_isPrefix (List.take_prefix _ _), hpath⟩ ?_
      exact ⟨req', stop, rfl, hcontent, hblank⟩
  | tooLong _ _ _ _ _ hblank =>
      refine iff_of_false ?_ (by simp)
      rintro ⟨_, _, _, h, -⟩
      exact hblank h
  | fault _ _ _ _ hblank =>
      refine iff_of_false ?_ (by simp)
      rintro ⟨_, _, _, h, -⟩
      exact hblank h

/-- When all of the head has been received, a window that shows an acceptable head shows all of it. -/
theorem head_le_of_acceptable {received more : List UInt8} (hpre : request.head <+: received)
    (hmem : data.memory = received ++ more)
    (hacc : AcceptableHead (slice data.memory 0 data.dataPartLength).bytes) :
    request.head.length ≤ data.dataPartLength := by
  by_contra hlt
  obtain ⟨rest, rfl⟩ := hpre
  obtain ⟨_, _, _, hblank, -⟩ := hacc
  have hle : data.dataPartLength ≤ request.head.length := by omega
  rw [slice_bytes, List.drop_zero, hmem, List.append_assoc, List.take_append_of_le_length hle] at hblank
  exact not_hasBlankLine_take_head (not_le.mp hlt) hblank

/-- When a part of the head has been received, whatever the parse takes for the head ends behind it. -/
theorem received_le_of_blank {received more : List UInt8} {stop part : ℕ}
    (hpre : received <+: request.head) (hlt : received.length < request.head.length)
    (hblank : HasBlankLine ((slice (received ++ more) 0 part).bytes.take stop)) :
    received.length ≤ stop := by
  by_contra hstop
  have hle : stop ≤ received.length := (not_le.mp hstop).le
  rw [slice_bytes, List.drop_zero, List.take_take, Nat.min_comm, ← List.take_take,
    List.take_append_of_le_length hle] at hblank
  have hreceived := hblank.of_isPrefix ((List.take_prefix part _).trans (List.take_prefix stop _))
  rw [List.prefix_iff_eq_take.mp hpre] at hreceived
  exact not_hasBlankLine_take_head hlt hreceived

/-- When the parse answers 0, the window shows an acceptable head. -/
theorem acceptableHead_of_accepted {req req' : CRequest} (hne : data.dataLength ≠ 0)
    (hparse : httpParseRequest data req = some (0, req')) :
    AcceptableHead (slice data.memory 0 data.dataPartLength).bytes := by
  have hout := parseOutcome data req hne
  rw [hparse] at hout
  cases hout with
  | accepted _ needle stop hmem hneedle _ hblank hpath =>
      exact ⟨needle, hmem, hneedle, hblank.of_isPrefix (List.take_prefix _ _), hpath⟩

/-- When the parse answers 0, the content is the body exactly when the body is what was received behind the place
where the content begins. -/
theorem content_iff_drop {req req' : CRequest} {stop : ℕ} {body : List UInt8}
    (hparse : httpParseRequest data req = some (0, req'))
    (hcontent : req'.content = some (data.content stop)) :
    (∀ req', httpParseRequest data req = some (0, req') →
        req'.content.map (Span.text data.memory) = some body) ↔ data.received.drop stop = body := by
  rw [← data.text_content]
  constructor
  · intro h
    simpa [hcontent] using h req' hparse
  · intro h req'' hparse'
    obtain rfl := (Prod.mk.inj (Option.some.inj (hparse.symm.trans hparse'))).2
    rw [hcontent, Option.map_some, h]

/-- When all of the head has been received, the content is what has been received behind it. -/
theorem drop_stop_of_head {req req' : CRequest} {stop : ℕ} {part : List UInt8}
    (hpart : request.head ++ part = data.received) (hzero : data.dataLength ≠ 0)
    (hacc : AcceptableHead (slice data.memory 0 data.dataPartLength).bytes)
    (hparse : httpParseRequest data req = some (0, req'))
    (hcontent : req'.content = some (data.content stop)) : data.received.drop stop = part := by
  obtain ⟨more, hmore⟩ := data.received_prefix_memory
  have hwindow := head_le_of_acceptable ⟨part, hpart⟩ hmore.symm hacc
  obtain ⟨stored, hparse', -⟩ := httpParseRequest_head req
    (by rw [← hmore, ← hpart, List.append_assoc]) hwindow hzero
  have hsame := (Prod.mk.inj (Option.some.inj (hparse.symm.trans hparse'))).2
  rw [hsame] at hcontent
  rw [← data.text_content, ← Option.some.inj hcontent, data.text_content, ← hpart, List.drop_left]

/-- When a part of a request has been received, every content that the parse sets is the body exactly when nothing or
all has been received, the body is empty, or the window shows no acceptable head. -/
theorem content_iff_of_received (data : ReadBufferImpl) (request : Request) (req : CRequest)
    (hpre : data.received <+: request.text) :
    (∀ req', httpParseRequest data req = some (0, req') →
        req'.content.map (Span.text data.memory) = some request.body) ↔
      data.received = [] ∨ data.received = request.text ∨ request.body = [] ∨
        ¬ AcceptableHead (slice data.memory 0 data.dataPartLength).bytes := by
  by_cases hzero : data.dataLength = 0
  · have hnil : data.received = [] := by
      rw [← List.length_eq_zero_iff, data.length_received, hzero]
    have hempty : data.empty = true := by simp [ReadBufferImpl.empty, hzero]
    refine iff_of_true (fun req' h => ?_) (Or.inl hnil)
    rw [httpParseRequest, hempty] at h
    simp at h
  by_cases hacc : AcceptableHead (slice data.memory 0 data.dataPartLength).bytes
  · obtain ⟨req', stop, hparse, hcontent, hblank⟩ := (acceptableHead_iff data req hzero).mp hacc
    have hne : data.received ≠ [] := by
      rw [← List.length_pos_iff, data.length_received]
      omega
    rw [content_iff_drop hparse hcontent]
    simp only [hne, hacc, not_true_eq_false, or_false, false_or]
    have hhead : request.head <+: request.text := List.prefix_append _ _
    by_cases hlen : request.head.length ≤ data.received.length
    · -- All of the head is there: the content is the part of the body that is.
      obtain ⟨part, hpart⟩ := List.prefix_of_prefix_length_le hhead hpre hlen
      have hbody : part <+: request.body := by
        rw [← hpart, Request.text, List.prefix_append_right_inj] at hpre
        exact hpre
      rw [drop_stop_of_head hpart hzero hacc hparse hcontent, ← hpart, Request.text,
        List.append_cancel_left_eq]
      refine ⟨Or.inl, fun h => h.elim id fun hnil => ?_⟩
      rw [hnil] at hbody ⊢
      exact List.prefix_nil.mp hbody
    · -- The empty line was found in what the buffer held before: the content is empty.
      have hpart := List.prefix_of_prefix_length_le hpre hhead (not_le.mp hlen).le
      obtain ⟨more, hmore⟩ := data.received_prefix_memory
      rw [← hmore] at hblank
      have hstop := received_le_of_blank hpart (not_le.mp hlen) hblank
      have hshort : data.received ≠ request.text := by
        intro heq
        rw [heq, Request.text, List.length_append] at hlen
        omega
      rw [List.drop_of_length_le hstop]
      simp only [hshort, false_or]
      exact eq_comm
  · exact iff_of_true (fun req' h => absurd (acceptableHead_of_accepted hzero h) hacc)
      (Or.inr (Or.inr (Or.inr hacc)))

/-! ### Declared lengths -/

/-- A header declares a content of this length, in decimal digits. -/
def Header.Declares (header : Header) (length : ℕ) : Prop :=
  header.name.map icaseAscii = (bytes "Content-Length").map icaseAscii ∧
    ∃ digits blanks, header.value = digits ++ blanks ∧ digits ≠ [] ∧
      (∀ b ∈ digits, 0x30 ≤ b ∧ b ≤ 0x39) ∧ (∀ b ∈ blanks, b = space ∨ b = tab) ∧
      Nat.ofDigits 10 (digits.reverse.map fun b => b.toNat - 0x30) = length

/-- A request that declares the length of its body. -/
structure SizedRequest extends Request where
  /-- One of the headers declares the length of the body. -/
  declares : ∃ header ∈ headers, header.Declares body.length

/-- One way for a request to arrive: the answers of the socket, whose bytes are those of the request in
their order. The peer may shut the connection down, and a `recv` may fail, at any moment. -/
structure Arrival (request : Request) where
  /-- The answers of the socket. -/
  turns : List Turn
  /-- The bytes are those of the request, as far as they go. -/
  stream_prefix : stream turns <+: request.text

/-- The window for the head after some calls: the bytes received and behind them what the buffer held
before. -/
def windowAfter {maxLength : ℕ} (block : Block maxLength) (maxHeaderLength : ℕ) (played : List Turn) :
    List UInt8 :=
  (stream played ++ block.memory.drop (stream played).length).take maxHeaderLength

variable {env : Environment} {self : HttpImpl}

/-- `GetContent()`, as a text. -/
def contentText (self : HttpImpl) : Option (List UInt8) :=
  self.request.content.map (Span.text self.memory)

/-- Whenever `Process` returns without throwing, the content is the body sent, exactly when the calls of
`recv` that the loop makes satisfy this: the last of them fails, or they receive all of the request, or
nothing; or the body is empty, or the window shows no acceptable head. -/
theorem content_eq_body_iff (env : Environment) (self : HttpImpl) (block : Block self.maxRequestLength)
    (request : SizedRequest) (arrival : Arrival request.toRequest) :
    (∀ self', self.process env block arrival.turns = some (none, self') →
        contentText self' = some request.body) ↔
      ∀ played, played <+: arrival.turns → Calls self.maxRequestLength 0 played →
        code played ≠ 0 ∨ stream played = [] ∨ stream played = request.text ∨ request.body = [] ∨
          ¬ AcceptableHead (windowAfter block self.maxHeaderLength played) := by
  have hplayed : ∀ played, played <+: arrival.turns →
      ((∀ req', httpParseRequest (ReadBufferImpl.afterCalls block self.maxHeaderLength played)
          self.request = some (0, req') →
        req'.content.map (Span.text
          (ReadBufferImpl.afterCalls block self.maxHeaderLength played).memory) = some request.body) ↔
        stream played = [] ∨ stream played = request.text ∨ request.body = [] ∨
          ¬ AcceptableHead (windowAfter block self.maxHeaderLength played)) := by
    rintro played ⟨rest, hrest⟩
    have hstream : stream played <+: request.text := by
      refine List.IsPrefix.trans ?_ arrival.stream_prefix
      rw [← hrest, stream, stream, List.flatMap_append]
      exact List.prefix_append _ _
    have hiff := content_iff_of_received
      (ReadBufferImpl.afterCalls block self.maxHeaderLength played) request.toRequest self.request
      (by simpa using hstream)
    rwa [ReadBufferImpl.received_afterCalls] at hiff
  constructor
  · intro h played hprefix hcalls
    by_cases hcode : code played = 0
    · refine Or.inr ((hplayed played hprefix).mp fun req' hparse => ?_)
      obtain ⟨rest, hrest⟩ := hprefix
      have hread : ReadBufferImpl.read block self.maxHeaderLength arrival.turns =
          some (0, ReadBufferImpl.afterCalls block self.maxHeaderLength played) :=
        ReadBufferImpl.read_eq_some_iff.mpr ⟨played, rest, hrest.symm, hcalls, by rw [hcode]⟩
      exact h _ (HttpImpl.process_returns_iff.mpr ⟨_, req', hread, hparse, rfl⟩)
    · exact Or.inl hcode
  · intro h self' hprocess
    obtain ⟨raw, req', hread, hparse, rfl⟩ := HttpImpl.process_returns_iff.mp hprocess
    obtain ⟨played, rest, hsplit, hcalls, hanswer⟩ := ReadBufferImpl.read_eq_some_iff.mp hread
    obtain ⟨hcode, rfl⟩ := Prod.mk.inj hanswer
    have hprefix : played <+: arrival.turns := ⟨rest, hsplit.symm⟩
    exact (hplayed played hprefix).mpr ((h played hprefix hcalls).resolve_left fun hne => hne hcode.symm)
      req' hparse

/-- The header that declares four bytes. -/
def declaresFour : Header where
  name := bytes "Content-Length"
  blanks := [space]
  value := bytes "4"
  name_ne_nil := by decide
  name_plain := by decide
  blanks_blank := by decide
  value_plain := by decide
  value_start := by decide

/-- `PUT /a HTTP/1.1` with a content of four bytes. -/
def putBody : SizedRequest where
  toRequest := { getWithHeader with
    method := bytes "PUT "
    headers := [declaresFour]
    body := bytes "body"
    method_mem := by decide }
  declares := ⟨_, List.mem_singleton.mpr rfl, by decide, bytes "4", [], by decide⟩

/-- An arrival in which all but the last two bytes of `putBody` come, and for the moment nothing more is waiting. -/
def putHalf : Arrival putBody.toRequest where
  turns := [⟨.got (bytes "PUT /a HTTP/1.1\r\nContent-Length: 4\r\n\r\nbo"), some 0⟩]
  stream_prefix := ⟨bytes "dy", by decide⟩

/-- An environment in which all sends fail. -/
def quiet : Environment := ⟨fun _ => -1, fun _ => 0, fun _ => []⟩

/-- A buffer of 128 bytes. -/
def zeroed : Block 128 := ⟨List.replicate 128 0, by simp⟩

/-- The request `putBody` is accepted with half of its body. -/
theorem not_content_eq_body_of_half :
    ¬ ∀ (env : Environment) (handle : ℕ) (msgId : MsgId) (address : CAddress)
        (maxRequestLength maxHeaderLength : ℕ) (block : Block maxRequestLength)
        (request : SizedRequest) (arrival : Arrival request.toRequest) (self' : HttpImpl),
      HttpImpl.process env (.new env handle msgId address maxRequestLength maxHeaderLength) block
          arrival.turns = some (none, self') →
        contentText self' = some request.body := by
  intro h
  have hprocess : (HttpImpl.process quiet (.new quiet 5 1 ⟨bytes "127.0.0.1", 80⟩ 128 64) zeroed
      putHalf.turns).map (fun out => (out.1, contentText out.2)) = some (none, some (bytes "bo")) := by
    decide +kernel
  obtain ⟨⟨thrown, self'⟩, hout, hcontent⟩ := Option.map_eq_some_iff.mp hprocess
  obtain ⟨hthrown, hbo⟩ := Prod.mk.inj hcontent
  obtain rfl : thrown = none := hthrown
  have hbody : contentText self' = some (bytes "body") :=
    h quiet 5 1 _ 128 64 zeroed putBody putHalf self' hout
  exact absurd (Option.some.inj (hbody.symm.trans hbo)) (by decide)

end Http

end NavekFiber
