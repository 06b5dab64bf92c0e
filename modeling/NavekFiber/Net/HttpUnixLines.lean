import NavekFiber.Net.HttpLineEnds

/-! # Line feeds for the line ends of a request

Every `"\r\n"` of a head becomes a line feed. The search for the end of a value gives the line feed the
number zero, so a request whose lines end with line feeds has no headers: the answer stays the same only
where the other request has none, either (`parsed_unix_eq_iff`). -/

namespace NavekFiber

open Utils Proto

namespace Http

variable {line rest : List UInt8} {data unix : ReadBufferImpl} {request : Request}

/-- The text with every `"\r\n"` replaced by a line feed. -/
def unixEnds : List UInt8 → List UInt8
  | [] => []
  | b :: rest => if b = cr ∧ rest.head? = some lf then unixEnds rest else b :: unixEnds rest

/-- `unixEnds` keeps a line without carriage returns. -/
theorem unixEnds_append (hline : ∀ b ∈ line, b ≠ cr) : unixEnds (line ++ rest) = line ++ unixEnds rest := by
  induction line with
  | nil => rfl
  | cons b line ih =>
      rw [List.cons_append, unixEnds, if_neg fun h => hline b List.mem_cons_self h.1,
        ih fun c hc => hline c (List.mem_cons_of_mem b hc), List.cons_append]

/-- `unixEnds` makes a line feed of a `"\r\n"`. -/
theorem unixEnds_crlf (rest : List UInt8) : unixEnds (cr :: lf :: rest) = lf :: unixEnds rest := by
  rw [unixEnds, if_pos ⟨rfl, rfl⟩, unixEnds, if_neg fun h => absurd h.1 (by decide)]

/-- `unixEnds` of lines with `"\r\n"` are the same lines with line feeds. -/
theorem unixEnds_lines {texts : List (List UInt8)} (htexts : PlainLines texts) :
    unixEnds (LineEnd.crLf.lines texts) = LineEnd.lineFeed.lines texts := by
  induction texts with
  | nil => rfl
  | cons line texts ih =>
      have hrest : PlainLines texts := fun other hother => htexts other (List.mem_cons_of_mem line hother)
      have hline : ∀ b ∈ line, b ≠ cr := fun b hb => ((htexts line List.mem_cons_self).2 b hb).1
      rw [LineEnd.lines_cons, LineEnd.lines_cons, List.append_assoc, unixEnds_append hline, List.append_assoc]
      congr 1
      show unixEnds (cr :: lf :: LineEnd.crLf.lines texts) = lf :: LineEnd.lineFeed.lines texts
      rw [unixEnds_crlf, ih hrest]

/-- Two buffers with windows of one length: one has received the request, the other one the same with every
`"\r\n"` of its head replaced. -/
structure ReceivedEither (request : Request) (data unix : ReadBufferImpl) : Prop where
  /-- All of the request has been received, and nothing else. -/
  received_eq : data.received = request.text
  /-- The second buffer has received the request with line feeds. -/
  unix_eq : unix.received = unixEnds request.head ++ request.body
  /-- The windows have one length. -/
  part_eq : unix.dataPartLength = data.dataPartLength

/-- The second of two buffers that have received a request either way has received it with line feeds. -/
theorem ReceivedEither.receivedAs_lineFeed (h : ReceivedEither request data unix) :
    ReceivedAs .lineFeed request unix := by
  rw [ReceivedAs, h.unix_eq, request.head_eq_lines, unixEnds_lines request.plainLines]

/-- Line feeds alone make the shorter head. -/
theorem length_lines_le (texts : List (List UInt8)) :
    (LineEnd.lineFeed.lines texts).length ≤ (LineEnd.crLf.lines texts).length := by
  induction texts with
  | nil => decide
  | cons line texts ih =>
      rw [LineEnd.lines_cons, LineEnd.lines_cons]
      simp only [List.length_append, LineEnd.bytes, List.length_cons, List.length_nil]
      omega

/-- In a window that shows all of the longer head, the two answers are the same exactly when there is one header at
most. -/
theorem ReceivedEither.parsed_eq_iff_of_le (h : ReceivedEither request data unix)
    (hle : request.head.length ≤ data.dataPartLength) :
    parsed unix = parsed data ↔ request.headers.length ≤ 1 := by
  have hunix := h.receivedAs_lineFeed
  obtain ⟨code, req, hparse, hparsed⟩ := hunix.parsed_eq
  have hheaders := hunix.headers_eq_nil hparse
  have hmethod := length_method_le .lineFeed request
  have hshorter := length_lines_le request.lines
  rw [← request.head_eq_lines] at hshorter
  have hshown : ¬ data.dataPartLength < request.method.length := by omega
  have hwhole : ¬ data.dataPartLength < (LineEnd.lineFeed.lines request.lines).length := by omega
  have huri : (if request.line.length + LineEnd.lineFeed.bytes.length ≤ data.dataPartLength ∧
      (request.headers = [] → data.dataPartLength < (LineEnd.lineFeed.lines request.lines).length)
      then some request.target else none) = if request.headers = [] then none else some request.target := by
    by_cases hnil : request.headers = []
    · rw [if_neg fun hand => hwhole (hand.2 hnil), if_pos hnil]
    · rw [if_pos ⟨by omega, fun h => absurd h hnil⟩, if_neg hnil]
  have hkept : headerTexts unix.memory [] = keptHeaders request.headers ↔ request.headers.length ≤ 1 := by
    rw [eq_comm, headerTexts, List.map_nil, keptHeaders, List.map_eq_nil_iff, ← List.length_eq_zero_iff,
      List.length_dropLast]
    omega
  rw [parsed_of_received ⟨h.received_eq, hle⟩, hparsed, hheaders, h.part_eq, if_neg hshown, if_neg hwhole,
    if_neg hshown, huri, if_neg hwhole, Option.some.injEq, Parsed.mk.injEq, hkept]
  simp

/-- In a window that does not show the shorter head, the path and the first header line decide whether the two answers
are the same. -/
theorem ReceivedEither.parsed_eq_iff_of_lt (h : ReceivedEither request data unix)
    (hlt : data.dataPartLength < (LineEnd.lineFeed.lines request.lines).length) :
    parsed unix = parsed data ↔ data.dataPartLength ≠ request.line.length + 1 ∧
      ∀ header ∈ request.headers.head?, data.dataPartLength < request.line.length + header.line.length + 4 := by
  have hunix := h.receivedAs_lineFeed
  have hdata := receivedAs_crLf h.received_eq
  obtain ⟨code, req, hparse, hparsed⟩ := hunix.parsed_eq
  obtain ⟨code', req', hparse', hparsed'⟩ := hdata.parsed_eq
  have hlt' := hlt.trans_le (length_lines_le request.lines)
  have hheaders : headerTexts unix.memory [] = headerTexts data.memory req'.headers ↔ req'.headers = [] :=
    eq_comm.trans List.map_eq_nil_iff
  rw [hparsed, hparsed', hunix.headers_eq_nil hparse, h.part_eq, ← hdata.headers_eq_nil_iff hlt' hparse',
    Option.some.injEq, Parsed.mk.injEq]
  have huri : (if request.line.length + LineEnd.lineFeed.bytes.length ≤ data.dataPartLength ∧
      (request.headers = [] → data.dataPartLength < (LineEnd.lineFeed.lines request.lines).length)
      then some request.target else none) =
      (if request.line.length + LineEnd.crLf.bytes.length ≤ data.dataPartLength ∧
        (request.headers = [] → data.dataPartLength < (LineEnd.crLf.lines request.lines).length)
      then some request.target else none) ↔ data.dataPartLength ≠ request.line.length + 1 := by
    simp only [hlt, hlt', implies_true, and_true]
    show (if request.line.length + 1 ≤ data.dataPartLength then some request.target else none) =
      (if request.line.length + 2 ≤ data.dataPartLength then some request.target else none) ↔ _
    split <;> split <;> simp <;> omega
  rw [huri, if_pos hlt, if_pos hlt', if_pos hlt, if_pos hlt', hheaders]
  simp

/-- Replacing the line ends leaves the answer as it is exactly when the window shows all of the head and there
is one header at most, or when the window does not even show the shorter head, does not end within the line
end of the request line and shows no header line. -/
theorem parsed_unix_eq_iff (h : ReceivedEither request data unix) :
    parsed unix = parsed data ↔
      request.head.length ≤ data.dataPartLength ∧ request.headers.length ≤ 1 ∨
      data.dataPartLength < (unixEnds request.head).length ∧
        data.dataPartLength ≠ request.line.length + 1 ∧
        ∀ header ∈ request.headers.head?,
          data.dataPartLength < request.line.length + header.line.length + 4 := by
  have hshorter : unixEnds request.head = LineEnd.lineFeed.lines request.lines := by
    rw [request.head_eq_lines, unixEnds_lines request.plainLines]
  have hlength := length_lines_le request.lines
  rw [← request.head_eq_lines, ← hshorter] at hlength
  by_cases hle : request.head.length ≤ data.dataPartLength
  · rw [h.parsed_eq_iff_of_le hle]
    refine ⟨fun hone => Or.inl ⟨hle, hone⟩, fun hor => hor.elim And.right fun hand => ?_⟩
    exact absurd hand.1 (by omega)
  · by_cases hlt : data.dataPartLength < (unixEnds request.head).length
    · rw [h.parsed_eq_iff_of_lt (hshorter ▸ hlt)]
      refine ⟨fun hcond => Or.inr ⟨hlt, hcond⟩, fun hor => hor.elim (fun hand => absurd hand.1 hle) And.right⟩
    · -- The window shows the shorter head only.
      refine iff_of_false (fun heq => ?_) ?_
      · obtain ⟨code, req, -, hparsed⟩ := h.receivedAs_lineFeed.parsed_eq
        obtain ⟨code', req', -, hparsed'⟩ := (receivedAs_crLf h.received_eq).parsed_eq
        have hmethod := length_method_le .lineFeed request
        rw [← hshorter] at hmethod
        have hshown : ¬ data.dataPartLength < request.method.length := by omega
        rw [hparsed, hparsed', h.part_eq, ← hshorter, ← request.head_eq_lines, Option.some.injEq,
          Parsed.mk.injEq, if_neg hlt, if_pos (not_le.mp hle), if_neg hshown, if_neg hshown] at heq
        exact absurd heq.1 (by decide)
      · rintro (hand | hand)
        · exact hle hand.1
        · exact hlt hand.1

/-- The buffers `holding` a request with either line end have received it either way. -/
theorem receivedEither_holding (request : Request) :
    ReceivedEither request (holding request.text) (holding (unixEnds request.head ++ request.body)) :=
  ⟨received_holding _, received_holding _, rfl⟩

/-- The request `getWithHeader` has the same answer either way: its header is lost. -/
theorem parsed_unix_eq_iff_oneHeader :
    parsed (holding (unixEnds getWithHeader.head)) = parsed (holding getWithHeader.text) := by
  have hiff := parsed_unix_eq_iff (receivedEither_holding getWithHeader)
  rw [show unixEnds getWithHeader.head ++ getWithHeader.body = _ from List.append_nil _] at hiff
  exact hiff.mpr (Or.inl ⟨by decide, by decide⟩)

/-- Of two headers of a request, the first one is kept with `"\r\n"` and lost with line feeds. -/
theorem not_parsed_unix_eq_of_twoHeaders :
    ¬ ∀ (request : Request) (data unix : ReadBufferImpl), ReceivedEither request data unix →
      parsed unix = parsed data := by
  intro h
  exact absurd (h _ _ _ (receivedEither_holding getWithQuery)) (by decide +kernel)

end Http

end NavekFiber
