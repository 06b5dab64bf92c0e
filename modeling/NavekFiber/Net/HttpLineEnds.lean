import NavekFiber.Net.HttpHeadEnd

/-! # Requests with either line end

A well-formed request whose lines end with line feeds or with `"\r\n"`, in a window of any length.
Whatever ends the lines, the head is accepted when the window shows all of it, and the query is never
read (`ReceivedAs.parsed_eq`). A header is stored for a carriage return behind its value only. -/

namespace NavekFiber

open Utils Proto

namespace Http

variable {after : List UInt8} {n : ℕ} {eol : LineEnd} {data : ReadBufferImpl}
  {request : Request} {req req' : CRequest}

/-! ### Behind the first line -/

/-- What the loop over the lines keeps behind the first line: the method, the path and the query, and the headers it
has stored. -/
structure Continues (start req : CRequest) : Prop where
  /-- The method stays. -/
  method : req.method = start.method
  /-- The path stays. -/
  uri : req.uri = start.uri
  /-- The query stays. -/
  params : req.params = start.params
  /-- Headers are only added. -/
  headers : start.headers <+: req.headers

/-- Every request `Continues` itself. -/
theorem Continues.refl (req : CRequest) : Continues req req := ⟨rfl, rfl, rfl, List.prefix_refl _⟩

/-- The loop over the lines leaves a request that `Continues` the one behind the first line. -/
theorem lineInvariant_continues (data : ReadBufferImpl) (methodEnd : ℕ) (start : CRequest) :
    LineInvariant data methodEnd (fun _ lineNo req => lineNo ≠ 0 ∧ Continues start req)
      (fun _ req => Continues start req) where
  header := by
    intro lineBegin lineNo line req req' ⟨_, h⟩ hno hline hresult hheader
    refine ⟨Nat.succ_ne_zero lineNo, ?_⟩
    rcases parseHeader_cases hheader with rfl | ⟨name, value, -, -, -, rfl⟩
    · exact h
    · exact ⟨h.method, h.uri, h.params, h.headers.trans (List.prefix_append _ _)⟩
  path := fun h => absurd rfl h.1
  refused := And.right
  absent := And.right
  blank := fun ⟨_, h⟩ _ _ _ => ⟨h.method, h.uri, h.params, h.headers⟩

/-! ### The parse with either line end -/

/-- All of the request has been received, with these line ends in its head, and nothing else. -/
def ReceivedAs (eol : LineEnd) (request : Request) (data : ReadBufferImpl) : Prop :=
  data.received = eol.lines request.lines ++ request.body

/-- An answer of the parse that is decided by what the window shows of the request. -/
structure LinesAnswer (eol : LineEnd) (request : Request) (data : ReadBufferImpl) (code : ℕ)
    (req : CRequest) : Prop where
  /-- The code tells whether the window shows the method and the head. -/
  code_eq : code = if data.dataPartLength < request.method.length then 405
    else if data.dataPartLength < (eol.lines request.lines).length then 431 else 0
  /-- The method is read as soon as the window shows it. -/
  method : req.method =
    if data.dataPartLength < request.method.length then none else some request.requestMethod
  /-- The request line is read as soon as it is shown, unless it ends the head. -/
  uri : req.uri = if request.line.length + eol.bytes.length ≤ data.dataPartLength ∧
      (request.headers = [] → data.dataPartLength < (eol.lines request.lines).length)
    then some request.uriSpan else none
  /-- The query is never read. -/
  params : req.params = none
  /-- The content begins behind the head. -/
  content : req.content = if data.dataPartLength < (eol.lines request.lines).length then none
    else some (data.content (eol.lines request.lines).length)

/-- A buffer that has received the text of a request has received it with `"\r\n"`, as its client sends it. -/
theorem receivedAs_crLf (h : data.received = request.text) : ReceivedAs .crLf request data := by
  rw [ReceivedAs, h, Request.text, request.head_eq_lines]

/-- A request that has been received stands at the beginning of the memory. -/
theorem ReceivedAs.exists_memory (h : ReceivedAs eol request data) :
    ∃ more, data.memory = eol.lines request.lines ++ (request.body ++ more) := by
  obtain ⟨more, hmore⟩ := data.received_prefix_memory
  exact ⟨more, by rw [← hmore, h, List.append_assoc]⟩

/-- The lines of a request begin with its method, and the target stands behind. -/
theorem lines_eq_method (eol : LineEnd) (request : Request) :
    ∃ more, eol.lines request.lines = request.method ++ (request.target ++ space :: more) := by
  refine ⟨request.version ++ eol.bytes ++ eol.lines (request.headers.map Header.line), ?_⟩
  rw [Request.lines, LineEnd.lines_cons, Request.line]
  simp

/-- A request that has been received with either line end is a received request. -/
theorem ReceivedAs.requestReceived (h : ReceivedAs eol request data) : RequestReceived data := by
  obtain ⟨more, hmore⟩ := lines_eq_method eol request
  have hreceived : data.received = request.method ++ (request.target ++ space :: (more ++ request.body)) := by
    rw [h, hmore]
    simp
  have hpre : request.method <+: data.received := ⟨_, hreceived.symm⟩
  refine ⟨request.method, request.method_mem, hpre.map icaseAscii, space, by decide, ?_⟩
  rw [hreceived, List.drop_left, List.find?_append,
    List.find?_eq_none.mpr (by simpa using request.target_plain)]
  rfl

/-- A beginning of the memory that has all of the head has its blank line. -/
theorem ReceivedAs.hasBlankLine_take (h : ReceivedAs eol request data)
    (hle : (eol.lines request.lines).length ≤ n) : HasBlankLine (data.memory.take n) := by
  obtain ⟨more, hmem⟩ := h.exists_memory
  have hlines : HasBlankLine (eol.lines request.lines) :=
    hasBlankLine_lines request.plainLines (List.cons_ne_nil _ _)
  refine hlines.of_isPrefix ?_
  rw [hmem, List.take_append, List.take_of_length_le hle]
  exact List.prefix_append _ _

/-- A beginning of the memory that does not have all of the head has no empty line. -/
theorem ReceivedAs.not_hasEmptyLine_take (h : ReceivedAs eol request data)
    (hlt : n < (eol.lines request.lines).length) : ¬ HasEmptyLine (data.memory.take n) := by
  obtain ⟨more, hmem⟩ := h.exists_memory
  rw [hmem, List.take_append_of_le_length hlt.le]
  exact Http.not_hasEmptyLine_take request.plainLines hlt

/-- The memory has all of the head of a request that has been received. -/
theorem ReceivedAs.length_le (h : ReceivedAs eol request data) :
    (eol.lines request.lines).length ≤ data.memory.length := by
  obtain ⟨more, hmem⟩ := h.exists_memory
  rw [hmem, List.length_append]
  omega

/-- The method of a request is no longer than its request line, and the request line with its line end no longer than
the head. -/
theorem length_method_le (eol : LineEnd) (request : Request) :
    request.method.length ≤ request.line.length ∧
      request.line.length + eol.bytes.length ≤ (eol.lines request.lines).length := by
  constructor
  · rw [Request.line, List.append_assoc, List.length_append]
    omega
  · rw [request.length_lines]
    omega

/-- In a window that does not show the method, the parse answers 405. -/
theorem ReceivedAs.parse_of_lt (h : ReceivedAs eol request data)
    (hlt : data.dataPartLength < request.method.length) :
    httpParseRequest data .init = some (405, .init) := by
  obtain ⟨more, hmem⟩ := h.exists_memory
  obtain ⟨rest, hrest⟩ := lines_eq_method eol request
  have hle := h.length_le
  have hmethod := length_method_le eol request
  have hempty : data.empty = false := by
    simpa [ReadBufferImpl.empty] using h.requestReceived.dataLength_ne_zero
  have hbytes : (slice data.memory data.head.start data.head.stop).bytes
      = request.method.take data.dataPartLength := by
    show (data.memory.take data.dataPartLength).drop 0 = _
    rw [List.drop_zero, hmem, hrest, List.append_assoc, List.take_append_of_le_length hlt.le]
  have hcut : (slice data.memory data.head.start data.head.stop).cut = false :=
    slice_cut_of_le _ (by show data.dataPartLength ≤ _; omega)
  have hstop : StopsWithin (slice data.memory data.head.start data.head.stop).bytes request.method := by
    rw [hbytes]
    refine ⟨(List.take_prefix _ _).map icaseAscii, ?_⟩
    rw [List.length_take]
    omega
  have hmatch := matchFrom_of_stopsWithin prefixFree_requestMethods request.method_mem hstop 0
  rw [hcut] at hmatch
  rw [httpParseRequest, hempty, matchValues, hmatch]
  rfl

/-- A window that shows the method begins with it, up to the case of letters. -/
theorem ReceivedAs.foldPrefix_window (h : ReceivedAs eol request data)
    (hle : request.method.length ≤ data.dataPartLength) : FoldPrefix request.method (window data) := by
  obtain ⟨more, hmem⟩ := h.exists_memory
  obtain ⟨rest, hrest⟩ := lines_eq_method eol request
  have hpre : request.method <+: window data := by
    rw [window, hmem, hrest, List.append_assoc, List.take_append, List.take_of_length_le hle]
    exact List.prefix_append _ _
  exact hpre.map icaseAscii

/-- In a window that shows the method, the parse matches it and enters the loop over the lines. -/
theorem ReceivedAs.parse_of_le (h : ReceivedAs eol request data)
    (hle : request.method.length ≤ data.dataPartLength) :
    httpParseRequest data .init = lineLoop data request.method.length (data.dataPartLength + 1) 0 0
      { CRequest.init with method := some request.requestMethod } :=
  httpParseRequest_eq_lineLoop .init (h.foldPrefix_window hle) h.requestReceived.dataLength_ne_zero

/-- In a window that shows the method, the parse answers 0 when it shows all of the head, and else 431. -/
theorem ReceivedAs.code_eq (h : ReceivedAs eol request data)
    (hmethod : request.method.length ≤ data.dataPartLength) :
    ∃ req, httpParseRequest data .init =
      some (if data.dataPartLength < (eol.lines request.lines).length then 431 else 0, req) := by
  have hreceived := h.requestReceived
  split
  · rename_i hlt
    have hle := h.length_le
    exact (code_of_not_hasEmptyLine hreceived (h.not_hasEmptyLine_take hlt)).mpr
      ⟨⟨request.method, request.method_mem, h.foldPrefix_window hmethod⟩, by omega⟩
  · rename_i hle
    have hacc := acceptableHead_take hreceived (h.hasBlankLine_take (not_lt.mp hle))
    obtain ⟨req, -, hparse, -⟩ := (acceptableHead_iff data .init hreceived.dataLength_ne_zero).mp hacc
    exact ⟨req, hparse⟩

/-- The first blank line of the window is the one that ends the head. -/
theorem ReceivedAs.firstEnd_eq {first : ℕ} (h : ReceivedAs eol request data)
    (hfirst : FirstEnd HasBlankLine (window data) first) : first = (eol.lines request.lines).length := by
  have hle : (eol.lines request.lines).length ≤ min first data.dataPartLength := by
    by_contra hlt
    refine h.not_hasEmptyLine_take (not_le.mp hlt) ?_
    rw [← List.take_take]
    exact hfirst.ends.hasEmptyLine
  have hge : first ≤ (eol.lines request.lines).length := by
    refine hfirst.le ?_
    rw [window, List.take_take]
    exact h.hasBlankLine_take (by omega)
  exact le_antisymm hge (hle.trans (Nat.min_le_left _ _))

/-- When the parse answers 0, the content begins behind the head, and the headers stand in front of its end. -/
theorem ReceivedAs.accepted (h : ReceivedAs eol request data)
    (hparse : httpParseRequest data .init = some (0, req)) :
    req.content = some (data.content (eol.lines request.lines).length) ∧
      ∀ header ∈ req.headers, StoredBefore data.memory (eol.lines request.lines).length header := by
  obtain ⟨first, hfirst, hcontent, hheaders⟩ := (headAnswer_httpParseRequest hparse).accepted rfl
  obtain rfl := h.firstEnd_eq hfirst
  exact ⟨hcontent, hheaders⟩

/-- In a window that does not show the end of the request line, the loop answers 431 with the request as it was. -/
theorem ReceivedAs.requestLine_of_lt (h : ReceivedAs eol request data) (turns : ℕ) (req : CRequest)
    (hlt : data.dataPartLength < request.line.length + eol.bytes.length) :
    lineLoop data request.method.length (turns + 1) 0 0 req = some (431, req) := by
  obtain ⟨more, hmem⟩ := h.exists_memory
  have hlines := (length_method_le eol request).2
  have hlength := h.length_le
  refine lineLoop_of_lt [] req (Request.memory_split hmem) request.line_plain (by omega) ?_
  rw [List.length_nil]
  omega

/-- The parse stores the method, and the path when the window shows the end of the request line, unless the head ends
there; it stores no query. -/
theorem ReceivedAs.firstLine {code : ℕ} (h : ReceivedAs eol request data)
    (hmethod : request.method.length ≤ data.dataPartLength)
    (hparse : httpParseRequest data .init = some (code, req)) :
    req.method = some request.requestMethod ∧ req.params = none ∧
      req.uri = if request.line.length + eol.bytes.length ≤ data.dataPartLength ∧
          (request.headers = [] → data.dataPartLength < (eol.lines request.lines).length)
        then some request.uriSpan else none := by
  obtain ⟨more, hmem⟩ := h.exists_memory
  have hlength := h.length_le
  have hlines := (length_method_le eol request).2
  rw [h.parse_of_le hmethod] at hparse
  by_cases hshown : request.line.length + eol.bytes.length ≤ data.dataPartLength
  · by_cases hheaders : request.headers = [] → data.dataPartLength < (eol.lines request.lines).length
    · rw [lineLoop_of_le _ hmem hshown hheaders] at hparse
      have hkeeps := (lineInvariant_continues data request.method.length _).lineLoop
        ⟨Nat.one_ne_zero, .refl _⟩ hparse
      rw [if_pos ⟨hshown, hheaders⟩]
      exact ⟨hkeeps.method, hkeeps.params, hkeeps.uri⟩
    · obtain ⟨hnil, hle⟩ := Classical.not_imp.mp hheaders
      rw [lineLoop_of_nil _ hmem hnil (not_lt.mp hle)] at hparse
      obtain ⟨rfl, rfl⟩ := Prod.mk.inj (Option.some.inj hparse)
      rw [if_neg fun hand => hheaders hand.2]
      exact ⟨rfl, rfl, rfl⟩
  · have hrun := h.requestLine_of_lt data.dataPartLength
      { CRequest.init with method := some request.requestMethod } (not_le.mp hshown)
    obtain ⟨rfl, rfl⟩ := Prod.mk.inj (Option.some.inj (hrun.symm.trans hparse))
    rw [if_neg fun hand => hshown hand.1]
    exact ⟨rfl, rfl, rfl⟩

/-- The parse of a request with either line end, in a window of any length, gives a `LinesAnswer`. -/
theorem ReceivedAs.linesAnswer (h : ReceivedAs eol request data) :
    ∃ code req, httpParseRequest data .init = some (code, req) ∧
      LinesAnswer eol request data code req := by
  obtain ⟨hmethod, hlines⟩ := length_method_le eol request
  by_cases hlt : data.dataPartLength < request.method.length
  · have hhead : data.dataPartLength < (eol.lines request.lines).length := by omega
    have hline : ¬ request.line.length + eol.bytes.length ≤ data.dataPartLength := by omega
    refine ⟨405, .init, h.parse_of_lt hlt, ?_⟩
    constructor
    · rw [if_pos hlt]
    · rw [if_pos hlt, CRequest.init]
    · rw [if_neg fun hand => hline hand.1, CRequest.init]
    · rw [CRequest.init]
    · rw [if_pos hhead, CRequest.init]
  · obtain ⟨req, hparse⟩ := h.code_eq (not_lt.mp hlt)
    obtain ⟨hmethod, hparams, huri⟩ := h.firstLine (not_lt.mp hlt) hparse
    refine ⟨_, req, hparse, ?_, ?_, huri, hparams, ?_⟩
    · rw [if_neg hlt]
    · rw [if_neg hlt, hmethod]
    · by_cases hhead : data.dataPartLength < (eol.lines request.lines).length
      · rw [if_pos hhead] at hparse ⊢
        exact (headAnswer_httpParseRequest hparse).refused (by decide)
      · rw [if_neg hhead] at hparse ⊢
        exact (h.accepted hparse).1


/-! ### Headers with either line end -/

/-- The lines of a request that end with line feeds have no carriage return. -/
theorem cr_notMem_lines (request : Request) : cr ∉ LineEnd.lineFeed.lines request.lines := by
  rw [LineEnd.lines, List.mem_append, List.mem_flatMap]
  rintro (⟨line, hline, h⟩ | h)
  · rcases List.mem_append.mp h with h | h
    · exact ((request.plainLines line hline).2 cr h).1 rfl
    · simp [LineEnd.bytes] at h
  · simp [LineEnd.bytes] at h

/-- The parse stores no header of a request whose lines end with line feeds: the number of the line feed is zero. -/
theorem ReceivedAs.headers_eq_nil {code : ℕ} (h : ReceivedAs .lineFeed request data)
    (hparse : httpParseRequest data .init = some (code, req)) : req.headers = [] := by
  refine List.eq_nil_iff_forall_not_mem.mpr fun header hheader => ?_
  obtain ⟨stop, hle, hstored⟩ : ∃ stop ≤ (LineEnd.lineFeed.lines request.lines).length,
      StoredBefore data.memory stop header := by
    by_cases hzero : code = 0
    · subst hzero
      exact ⟨_, le_rfl, (h.accepted hparse).2 header hheader⟩
    · -- Otherwise the window does not show all of the head.
      refine ⟨_, ?_, (headAnswer_httpParseRequest hparse).headers header hheader⟩
      obtain ⟨code', req', hparse', hanswer⟩ := h.linesAnswer
      obtain ⟨rfl, rfl⟩ := Prod.mk.inj (Option.some.inj (hparse'.symm.trans hparse))
      have hmethod := length_method_le .lineFeed request
      have hcode := hanswer.code_eq
      rw [length_window]
      by_contra hlt
      rw [if_neg (by omega), if_neg (by omega)] at hcode
      exact hzero hcode
  obtain ⟨more, hmem⟩ := h.exists_memory
  have hcr := hstored.ended
  rw [hmem, List.getElem?_append_left (by have := hstored.value_lt; omega)] at hcr
  exact cr_notMem_lines request (List.mem_of_getElem? hcr)

/-- In a window that does not show the end of the head, the loop stores a header when the window shows the first
header line. -/
theorem headers_eq_iff {headers : List Header} {methodEnd turns lineNo code : ℕ} (before : List UInt8)
    (hmem : data.memory = before ++ (LineEnd.crLf.lines (headers.map Header.line) ++ after))
    (hno : lineNo ≠ 0) (hle : data.dataPartLength ≤ data.memory.length)
    (hlt : data.dataPartLength < before.length + (LineEnd.crLf.lines (headers.map Header.line)).length)
    (hrun : lineLoop data methodEnd (turns + 1) before.length lineNo req = some (code, req')) :
    req'.headers = req.headers ↔
      ∀ header ∈ headers.head?, data.dataPartLength < before.length + header.line.length + 2 := by
  cases headers with
  | nil =>
      -- There is only a part of the empty line.
      have hempty : data.memory = before ++ ([] ++ LineEnd.crLf.bytes ++ after) := hmem
      rw [lineLoop_of_lt before req hempty (by simp) hle hlt] at hrun
      obtain ⟨rfl, rfl⟩ := Prod.mk.inj (Option.some.inj hrun)
      exact iff_of_true rfl (by simp)
  | cons header headers =>
      have hfirst : data.memory = before ++ (header.line ++ LineEnd.crLf.bytes ++
          (LineEnd.crLf.lines (headers.map Header.line) ++ after)) := by
        rw [hmem, List.map_cons, LineEnd.lines_cons, List.append_assoc (header.line ++ _)]
      simp only [List.head?_cons, Option.mem_some_iff, forall_eq']
      by_cases hread : data.dataPartLength < before.length + header.line.length + 2
      · rw [lineLoop_of_lt before req hfirst header.line_plain hle hread] at hrun
        obtain ⟨rfl, rfl⟩ := Prod.mk.inj (Option.some.inj hrun)
        exact iff_of_true rfl hread
      · have hnil : headers = [] → data.dataPartLength < before.length + header.line.length + 4 := by
          rintro rfl
          rw [List.map_cons, LineEnd.length_lines_cons] at hlt
          have hlt : data.dataPartLength < before.length + (header.line.length + 2 + 2) := hlt
          omega
        obtain ⟨name, value, hturn, -⟩ :=
          lineLoop_of_header before methodEnd turns req hfirst hno (not_lt.mp hread) hnil
        have hkeeps := (lineInvariant_continues data methodEnd _).lineLoop
          ⟨Nat.succ_ne_zero lineNo, .refl _⟩ (hturn.symm.trans hrun)
        refine iff_of_false (fun heq => ?_) hread
        have hlength := hkeeps.headers.length_le
        rw [heq, List.length_append, List.length_singleton] at hlength
        omega

/-- In a window that does not show all of a head with `"\r\n"`, a header is stored when the window shows the
first header line. -/
theorem ReceivedAs.headers_eq_nil_iff {code : ℕ} (h : ReceivedAs .crLf request data)
    (hlt : data.dataPartLength < (LineEnd.crLf.lines request.lines).length)
    (hparse : httpParseRequest data .init = some (code, req)) :
    req.headers = [] ↔
      ∀ header ∈ request.headers.head?, data.dataPartLength < request.line.length + header.line.length + 4 := by
  obtain ⟨more, hmem⟩ := h.exists_memory
  have hmethod := (length_method_le .crLf request).1
  by_cases hshown : request.line.length + 2 ≤ data.dataPartLength
  · obtain ⟨turns, hturns⟩ : ∃ turns, data.dataPartLength = turns + 1 :=
      ⟨data.dataPartLength - 1, by omega⟩
    have hlines : (request.line ++ crlf).length = request.line.length + LineEnd.crLf.bytes.length :=
      List.length_append
    have hsplit : LineEnd.crLf.lines request.lines = (request.line ++ crlf) ++
        LineEnd.crLf.lines (request.headers.map Header.line) := by
      rw [Request.lines, LineEnd.lines_cons]
      rfl
    rw [h.parse_of_le (by omega), lineLoop_of_le _ hmem hshown fun _ => hlt, ← hlines, hturns] at hparse
    have hiff := headers_eq_iff (request.line ++ crlf) (by rw [hmem, hsplit, List.append_assoc])
      Nat.one_ne_zero (hlt.le.trans h.length_le) (by rwa [hsplit, List.length_append] at hlt) hparse
    refine hiff.trans (forall₂_congr fun header _ => ?_)
    rw [hlines]
    show _ < _ + 2 + _ + 2 ↔ _
    omega
  · refine iff_of_true ?_ fun header _ => by omega
    by_cases hread : data.dataPartLength < request.method.length
    · rw [h.parse_of_lt hread] at hparse
      obtain ⟨rfl, rfl⟩ := Prod.mk.inj (Option.some.inj hparse)
      rfl
    · rw [h.parse_of_le (not_lt.mp hread), h.requestLine_of_lt _ _ (not_le.mp hshown)] at hparse
      obtain ⟨rfl, rfl⟩ := Prod.mk.inj (Option.some.inj hparse)
      rfl

/-- As texts, the answer to a request with either line end has its method and its path, and the headers and the
content that the window shows. -/
theorem ReceivedAs.parsed_eq (h : ReceivedAs eol request data) :
    ∃ code req, httpParseRequest data .init = some (code, req) ∧
      parsed data = some
        { code := if data.dataPartLength < request.method.length then 405
            else if data.dataPartLength < (eol.lines request.lines).length then 431 else 0
          method := if data.dataPartLength < request.method.length then none else some request.requestMethod
          uri := if request.line.length + eol.bytes.length ≤ data.dataPartLength ∧
              (request.headers = [] → data.dataPartLength < (eol.lines request.lines).length)
            then some request.target else none
          params := none
          headers := headerTexts data.memory req.headers
          content := if data.dataPartLength < (eol.lines request.lines).length then none
            else some request.body } := by
  obtain ⟨code, req, hparse, hanswer⟩ := h.linesAnswer
  obtain ⟨more, hmem⟩ := h.exists_memory
  obtain ⟨rest, hrest⟩ := lines_eq_method eol request
  have huri : request.uriSpan.text data.memory = request.target := by
    refine text_eq_of_append (space :: rest ++ (request.body ++ more)) ?_
    rw [hmem, hrest]
    simp
  have hcontent : (data.content (eol.lines request.lines).length).text data.memory = request.body := by
    rw [data.text_content, h, List.drop_left]
  refine ⟨code, req, hparse, ?_⟩
  rw [parsed, hparse, Option.map_some, texts, hanswer.code_eq, hanswer.method, hanswer.uri, hanswer.params,
    hanswer.content]
  simp only [apply_ite (Option.map (Span.text data.memory)), Option.map_some, Option.map_none, huri, hcontent]
  rfl

/-! ### A request with a query -/

/-- A request with two headers and a query. -/
def getWithQuery : Request :=
  { getWithHeader with
    target := bytes "/a?b"
    headers := getWithHeader.headers ++ getWithHeader.headers
    target_ne_nil := by decide
    target_plain := by decide }

/-- A buffer that has received a text, with a window of 64 bytes. -/
def holding (text : List UInt8) : ReadBufferImpl := ⟨text.length, 64, text, le_rfl⟩

/-- The buffer `holding` a text has received it. -/
theorem received_holding (text : List UInt8) : (holding text).received = text := List.take_length

end Http

end NavekFiber
