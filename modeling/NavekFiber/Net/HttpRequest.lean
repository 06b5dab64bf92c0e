import NavekFiber.Net.HttpLineSearch
import NavekFiber.Net.HttpReads

/-! # Well-formed requests

A request as a client sends it: a request line, header lines, an empty line and a body. The parse takes
the end of its last line for a part of the marker of the empty line, so it never sees that line: the
last header is lost, and without headers the request line is (`parsed_of_received`). What it keeps of a
value begins right behind the colon. -/

namespace NavekFiber

open Utils Proto

namespace Http

/-- The space. -/
abbrev space : UInt8 := 32

/-- The colon. -/
abbrev colon : UInt8 := 58

/-- The end of a line. -/
abbrev crlf : List UInt8 := [cr, lf]

/-- A header line `name: value`. -/
structure Header where
  /-- The name. -/
  name : List UInt8
  /-- The optional white space behind the colon, all of it. -/
  blanks : List UInt8
  /-- The value. -/
  value : List UInt8
  /-- A name is not empty. -/
  name_ne_nil : name ≠ []
  /-- A name has no colon, no space and no line end. -/
  name_plain : ∀ b ∈ name, b ≠ colon ∧ b ≠ space ∧ b ≠ cr ∧ b ≠ lf
  /-- White space is spaces and tabs. -/
  blanks_blank : ∀ b ∈ blanks, b = space ∨ b = tab
  /-- A value has no line end. -/
  value_plain : ∀ b ∈ value, b ≠ cr ∧ b ≠ lf
  /-- A value does not begin with white space. -/
  value_start : ∀ b ∈ value.head?, b ≠ space ∧ b ≠ tab

/-- A request with its body. -/
structure Request where
  /-- The method, with the space behind it. -/
  method : List UInt8
  /-- The target. -/
  target : List UInt8
  /-- The version. -/
  version : List UInt8
  /-- The header lines. -/
  headers : List Header
  /-- The body. -/
  body : List UInt8
  /-- The method is one of the nine. -/
  method_mem : method ∈ requestMethods
  /-- A target is not empty. -/
  target_ne_nil : target ≠ []
  /-- A target has no white space. -/
  target_plain : ∀ b ∈ target, b ∉ pathEnds
  /-- A version has no line end. -/
  version_plain : ∀ b ∈ version, b ≠ cr ∧ b ≠ lf

namespace Header

/-- What stands behind the colon of a header line. -/
def rest (header : Header) : List UInt8 := header.blanks ++ header.value

/-- The header line without its end. -/
def line (header : Header) : List UInt8 := header.name ++ colon :: header.rest

/-- Nothing behind the colon of a header line ends the line. -/
theorem rest_plain (header : Header) : ∀ b ∈ header.rest, b ≠ cr ∧ b ≠ lf := by
  intro b hb
  rcases List.mem_append.mp hb with hblank | hvalue
  · rcases header.blanks_blank b hblank with rfl | rfl <;> decide
  · exact header.value_plain b hvalue

/-- Nothing in a header line ends it. -/
theorem line_plain (header : Header) : ∀ b ∈ header.line, b ≠ cr ∧ b ≠ lf := by
  intro b hb
  rcases List.mem_append.mp hb with hname | hrest
  · exact (header.name_plain b hname).2.2
  · rcases List.mem_cons.mp hrest with rfl | hrest
    · decide
    · exact header.rest_plain b hrest

/-- A header line does not begin with a carriage return. -/
theorem exists_line_eq_cons (header : Header) : ∃ b more, header.line = b :: more ∧ b ≠ cr := by
  obtain ⟨b, name, hname⟩ := List.exists_cons_of_ne_nil header.name_ne_nil
  refine ⟨b, name ++ colon :: header.rest, by rw [line, hname]; rfl, ?_⟩
  exact (header.name_plain b (hname ▸ List.mem_cons_self)).2.2.1

end Header

/-- Header lines with their ends. -/
def headerLines (headers : List Header) : List UInt8 := headers.flatMap fun header => header.line ++ crlf

namespace Request

/-- The request line without its end. -/
def line (request : Request) : List UInt8 :=
  request.method ++ request.target ++ space :: request.version

/-- The head of a request: everything up to the empty line. -/
def head (request : Request) : List UInt8 :=
  request.line ++ crlf ++ headerLines request.headers ++ crlf

/-- All that the client sends of a request. -/
def text (request : Request) : List UInt8 := request.head ++ request.body

/-- Nothing in the request line ends it. -/
theorem line_plain (request : Request) : ∀ b ∈ request.line, b ≠ cr ∧ b ≠ lf := by
  have hmethods : ∀ method ∈ requestMethods, ∀ b ∈ method, b ≠ cr ∧ b ≠ lf := by decide +kernel
  have hends : cr ∈ pathEnds ∧ lf ∈ pathEnds := by decide
  intro b hb
  rcases List.mem_append.mp hb with hb | hversion
  · rcases List.mem_append.mp hb with hmethod | htarget
    · exact hmethods _ request.method_mem b hmethod
    · have hnot := request.target_plain b htarget
      exact ⟨fun h => hnot (h ▸ hends.1), fun h => hnot (h ▸ hends.2)⟩
  · rcases List.mem_cons.mp hversion with rfl | hversion
    · decide
    · exact request.version_plain b hversion

end Request

/-- Header lines are `PlainLines`: they are not empty, and nothing in them ends them. -/
theorem plainLines_headers (headers : List Header) : PlainLines (headers.map Header.line) := by
  intro line hline
  obtain ⟨header, -, rfl⟩ := List.mem_map.mp hline
  obtain ⟨b, more, heq, -⟩ := header.exists_line_eq_cons
  refine ⟨?_, header.line_plain⟩
  rw [heq]
  exact List.cons_ne_nil b more

namespace Request

/-- The lines of the head, without their ends. -/
def lines (request : Request) : List (List UInt8) := request.line :: request.headers.map Header.line

/-- The lines of a head are `PlainLines`: they are not empty, and nothing in them ends them. -/
theorem plainLines (request : Request) : PlainLines request.lines := by
  intro line hline
  rcases List.mem_cons.mp hline with rfl | hline
  · refine ⟨?_, request.line_plain⟩
    rw [Request.line]
    simp
  · exact plainLines_headers request.headers line hline

theorem length_lines (eol : LineEnd) (request : Request) :
    (eol.lines request.lines).length = request.line.length + eol.bytes.length +
      (eol.lines (request.headers.map Header.line)).length :=
  eol.length_lines_cons _ _

/-- A memory that begins with the lines of a request begins with the request line and its end. -/
theorem memory_split {mem after : List UInt8} {request : Request} {eol : LineEnd}
    (hmem : mem = eol.lines request.lines ++ after) :
    mem = [] ++ (request.line ++ eol.bytes ++ (eol.lines (request.headers.map Header.line) ++ after)) := by
  rw [hmem, lines, LineEnd.lines_cons, List.append_assoc]
  rfl

/-- The head of a request is its lines with `"\r\n"` as their end, and an empty line. -/
theorem head_eq_lines (request : Request) : request.head = LineEnd.crLf.lines request.lines := by
  rw [lines, LineEnd.lines_cons, LineEnd.lines, List.flatMap_map, head, List.append_assoc]
  rfl

end Request

/-! ### Reading the lines of a request -/

variable {mem before : List UInt8}

section HeaderLine

variable {after : List UInt8}

/-- A header line is as long as the name, the rest and the colon between them. -/
theorem Header.length_line (header : Header) :
    header.line.length = header.name.length + header.rest.length + 1 := by
  rw [Header.line, List.length_append, List.length_cons]
  omega

/-- The end of a header line that stands in the memory lies in the memory. -/
theorem stop_le_length (header : Header) (hmem : mem = before ++ (header.line ++ crlf) ++ after) :
    before.length + header.line.length + 2 ≤ mem.length := by
  rw [hmem]
  simp only [List.length_append, List.length_cons, List.length_nil]
  omega

/-- In a header line, `find_char` ends the name at the colon, the first of the three characters searched for. -/
theorem findChar_name (header : Header) (hmem : mem = before ++ (header.line ++ crlf) ++ after) :
    findChar (slice mem before.length (before.length + header.line.length + 2)) (bytes ": \n")
      = some ⟨1, before.length, before.length + header.name.length + 1⟩ := by
  obtain ⟨more, hbytes⟩ := slice_bytes_append before (before.length + header.line.length + 2) hmem
    (by simp only [List.length_append, List.length_cons, List.length_nil]; omega)
  have hplain : ∀ b ∈ header.name, b ∉ bytes ": \n" := by
    intro b hb
    obtain ⟨hcolon, hspace, -, hlf⟩ := header.name_plain b hb
    simpa [show bytes ": \n" = [colon, space, lf] from rfl] using ⟨hcolon, hspace, hlf⟩
  have hone : charResult ((bytes ": \n").idxOf colon) = 1 := by decide
  have h := findChar_eq (stop_le_length header hmem)
    (hbytes.trans (by rw [Header.line, List.append_assoc, List.append_assoc]; rfl)) hplain (by decide)
  rwa [hone] at h

/-- Behind the colon of a header line, `find_char` ends the value at the carriage return. -/
theorem findChar_value (header : Header) (hmem : mem = before ++ (header.line ++ crlf) ++ after) :
    findChar (slice mem (before.length + header.name.length + 1)
        (before.length + header.line.length + 2)) (bytes "\r\n")
      = some ⟨1, before.length + header.name.length + 1,
          before.length + header.name.length + 1 + header.rest.length + 1⟩ := by
  have hlen := header.length_line
  have hmem' : mem = (before ++ header.name ++ [colon]) ++ (header.rest ++ crlf) ++ after := by
    rw [hmem, Header.line]
    simp
  have hbefore : (before ++ header.name ++ [colon]).length = before.length + header.name.length + 1 := by
    simp only [List.length_append, List.length_cons, List.length_nil]
  obtain ⟨more, hbytes⟩ := slice_bytes_append _ (before.length + header.line.length + 2) hmem'
    (by rw [hbefore]; simp only [List.length_append, List.length_cons, List.length_nil]; omega)
  have hplain : ∀ b ∈ header.rest, b ∉ bytes "\r\n" := by
    intro b hb
    simpa [show bytes "\r\n" = [cr, lf] from rfl] using header.rest_plain b hb
  have hone : charResult ((bytes "\r\n").idxOf cr) = 1 := by decide
  have h := findChar_eq (stop_le_length header hmem)
    (hbytes.trans (by rw [List.append_assoc]; rfl)) hplain (by decide)
  rwa [hone, hbefore] at h

/-- `parseHeader` stores the name of a header line and what stands behind its colon. -/
theorem parseHeader_line (header : Header) (result : ℕ) (req : CRequest)
    (hmem : mem = before ++ (header.line ++ crlf) ++ after) :
    ∃ name value : Span,
      parseHeader mem before.length ⟨result, before.length + header.line.length,
          before.length + header.line.length + 2⟩ req
        = some { req with headers := req.headers ++ [(name, value)] } ∧
      name.text mem = header.name ∧ value.text mem = header.rest := by
  have hname := findChar_name header hmem
  have hvalue := findChar_value header hmem
  refine ⟨⟨before.length, before.length + header.name.length⟩,
    ⟨before.length + header.name.length + 1,
      before.length + header.name.length + 1 + header.rest.length⟩, ?_, ?_, ?_⟩
  · simp [parseHeader, hname, hvalue]
  · refine text_eq_of_append (colon :: header.rest ++ crlf ++ after) ?_
    rw [hmem, Header.line]
    simp
  · have hbefore : (before ++ header.name ++ [colon]).length
        = before.length + header.name.length + 1 := by
      simp only [List.length_append, List.length_cons, List.length_nil]
    rw [← hbefore]
    refine text_eq_of_append (crlf ++ after) ?_
    rw [hmem, Header.line]
    simp

end HeaderLine

/-! ### The parse of a request -/

/-- The texts of the names and values of some headers. -/
def headerTexts (mem : List UInt8) (headers : List (Span × Span)) : List (List UInt8 × List UInt8) :=
  headers.map fun header => (header.1.text mem, header.2.text mem)

/-- The headers that the parse keeps of those of a request: all but the last. -/
def keptHeaders (headers : List Header) : List (List UInt8 × List UInt8) :=
  headers.dropLast.map fun header => (header.name, header.rest)

section HeaderLines

variable {data : ReadBufferImpl} {header : Header} {headers : List Header} {after : List UInt8}
  {methodEnd turns lineNo : ℕ}

/-- `lineLoop` stores a header whose line end the window shows, unless it ends the head. -/
theorem lineLoop_of_header (before : List UInt8) (methodEnd turns : ℕ) (req : CRequest)
    (hmem : data.memory = before ++ (header.line ++ LineEnd.crLf.bytes ++
      (LineEnd.crLf.lines (headers.map Header.line) ++ after)))
    (hno : lineNo ≠ 0) (hshown : before.length + header.line.length + 2 ≤ data.dataPartLength)
    (hnil : headers = [] → data.dataPartLength < before.length + header.line.length + 4) :
    ∃ name value : Span,
      lineLoop data methodEnd (turns + 1) before.length lineNo req
        = lineLoop data methodEnd turns (before.length + header.line.length + 2) (lineNo + 1)
            { req with headers := req.headers ++ [(name, value)] } ∧
      name.text data.memory = header.name ∧ value.text data.memory = header.rest := by
  obtain ⟨result, hresult, hfind⟩ := findValues_of_lines before hmem header.line_plain
    (plainLines_headers headers) hshown fun hmap => hnil (List.map_eq_nil_iff.mp hmap)
  have hfind : findValues (slice data.memory before.length data.head.stop) httpLineEndians =
      some ⟨result, before.length + header.line.length, before.length + header.line.length + 2⟩ := hfind
  obtain ⟨name, value, hheader, htexts⟩ := parseHeader_line header result req
    (hmem.trans (List.append_assoc _ _ _).symm)
  have hne : result ≠ 0 := by omega
  refine ⟨name, value, ?_, htexts⟩
  rw [lineLoop, hfind]
  simp only [Option.bind_eq_bind, Option.bind_some, hheader, hne, if_false, hresult, if_true, ne_eq, hno,
    not_false_eq_true]

/-- `lineLoop` over the header lines stores all headers but the last one. -/
theorem lineLoop_headers (before : List UInt8) (methodEnd turns lineNo : ℕ) (req : CRequest)
    (hne : headers ≠ [])
    (hmem : data.memory = before ++ (LineEnd.crLf.lines (headers.map Header.line) ++ after))
    (hpart : before.length + (LineEnd.crLf.lines (headers.map Header.line)).length ≤ data.dataPartLength)
    (hno : lineNo ≠ 0) (hturns : headers.length ≤ turns) :
    ∃ stored, lineLoop data methodEnd turns before.length lineNo req =
        some (0, { req with
          headers := req.headers ++ stored
          content := some (data.content
            (before.length + (LineEnd.crLf.lines (headers.map Header.line)).length)) }) ∧
      headerTexts data.memory stored = keptHeaders headers := by
  induction headers generalizing before turns lineNo req with
  | nil => exact absurd rfl hne
  | cons header headers ih =>
      obtain ⟨turns, rfl⟩ : ∃ t, turns = t + 1 :=
        ⟨turns - 1, by rw [List.length_cons] at hturns; omega⟩
      by_cases hnil : headers = []
      · -- The last header ends the loop: its end is the first half of the marker of the empty line.
        subst hnil
        refine ⟨[], ?_, rfl⟩
        rw [List.append_nil]
        exact lineLoop_of_emptyLine before req hmem header.line_plain hpart
      · have hlength : (LineEnd.crLf.lines ((header :: headers).map Header.line)).length =
            header.line.length + 2 + (LineEnd.crLf.lines (headers.map Header.line)).length :=
          LineEnd.length_lines_cons .crLf _ _
        rw [hlength] at hpart ⊢
        rw [List.map_cons, LineEnd.lines_cons, List.append_assoc (header.line ++ _)] at hmem
        obtain ⟨name, value, hstep, hname, hvalue⟩ :=
          lineLoop_of_header before methodEnd turns req hmem hno (by omega) fun h => absurd h hnil
        have hlen : (before ++ (header.line ++ LineEnd.crLf.bytes)).length =
            before.length + header.line.length + 2 := by
          rw [List.length_append, List.length_append, Nat.add_assoc]
          rfl
        obtain ⟨stored, hrest, hstored⟩ := ih (before ++ (header.line ++ LineEnd.crLf.bytes)) turns
          (lineNo + 1) { req with headers := req.headers ++ [(name, value)] } hnil
          (by rw [hmem]; simp) (by rw [hlen]; omega) (by omega) (by simpa using hturns)
        refine ⟨(name, value) :: stored, ?_, ?_⟩
        · have hoffset : before.length +
              (header.line.length + 2 + (LineEnd.crLf.lines (headers.map Header.line)).length) =
              (before ++ (header.line ++ LineEnd.crLf.bytes)).length +
                (LineEnd.crLf.lines (headers.map Header.line)).length := by
            rw [hlen]
            omega
          rw [hstep, hoffset, ← hlen, hrest, List.append_assoc]
          rfl
        · simp only [headerTexts, List.map_cons, hname, hvalue] at hstored ⊢
          rw [hstored, keptHeaders, keptHeaders, List.dropLast_cons_of_ne_nil hnil]
          rfl

end HeaderLines

namespace Request

/-- The method of a request as the parse stores it. -/
def requestMethod (request : Request) : RequestMethod :=
  RequestMethod.ofResult (requestMethods.idxOf request.method + 1)

/-- The path of a request as the parse stores it, if it sees the request line. -/
def uriSpan (request : Request) : Span :=
  ⟨request.method.length, request.method.length + request.target.length⟩

end Request

variable {data : ReadBufferImpl} {request : Request} {after : List UInt8} {eol : LineEnd}

/-- A window that shows the head of a request begins with its method. -/
theorem foldPrefix_method (hmem : data.memory = request.head ++ after)
    (hpart : request.head.length ≤ data.dataPartLength) :
    FoldPrefix request.method (slice data.memory 0 data.dataPartLength).bytes := by
  obtain ⟨more, hbytes⟩ : ∃ more, (slice data.memory 0 data.dataPartLength).bytes
      = request.head ++ more :=
    slice_bytes_append [] data.dataPartLength hmem (by rw [List.length_nil]; omega)
  have hpre : request.method <+: (slice data.memory 0 data.dataPartLength).bytes := by
    rw [hbytes, Request.head, Request.line]
    simp only [List.append_assoc]
    exact List.prefix_append _ _
  exact hpre.map icaseAscii

/-- `parsePath` reads the target off a request line, whatever ends it. -/
theorem parsePath_line {result : ℕ} (marker : List UInt8) (req : CRequest)
    (hmem : data.memory = request.line ++ marker ++ after) :
    parsePath data.memory request.method.length ⟨result, 0 + request.line.length,
        0 + request.line.length + marker.length⟩ req
      = some (some { req with uri := some request.uriSpan }) := by
  have hlen : request.line.length = request.method.length + request.target.length +
      request.version.length + 1 := by
    rw [Request.line]
    simp only [List.length_append, List.length_cons]
    omega
  have hsplit : data.memory = request.method ++ (request.target ++ space :: (request.version ++ marker)) ++
      after := by
    rw [hmem, Request.line]
    simp
  obtain ⟨more, hbytes⟩ := slice_bytes_append request.method (0 + request.line.length + marker.length) hsplit
    (by simp only [List.length_append, List.length_cons]; omega)
  have hpath := parsePath_eq ⟨result, 0 + request.line.length, 0 + request.line.length + marker.length⟩ req
    (by rw [hmem]; simp only [List.length_append]; omega)
    (hbytes.trans (List.append_assoc _ _ _)) request.target_plain (by decide)
  rw [hpath, if_neg (by decide)]
  rfl

/-- The parse of a window that begins with the method of a request matches it and enters `lineLoop`. -/
theorem httpParseRequest_eq_lineLoop (req : CRequest)
    (hpre : FoldPrefix request.method (slice data.memory 0 data.dataPartLength).bytes)
    (hne : data.dataLength ≠ 0) :
    httpParseRequest data req =
      lineLoop data request.method.length (data.dataPartLength + 1) 0 0
        { req with method := some request.requestMethod } := by
  have hempty : data.empty = false := by simpa [ReadBufferImpl.empty] using hne
  have hmatch := matchFrom_of_foldPrefix prefixFree_requestMethods request.method_mem hpre 0
  have hmethod : matchValues (slice data.memory data.head.start data.head.stop) requestMethods = some
      ⟨requestMethods.idxOf request.method + 1, 0, request.method.length⟩ := by
    rw [show matchValues (slice data.memory data.head.start data.head.stop) requestMethods = _
      from hmatch]
    simp
  rw [httpParseRequest, hempty]
  simp only [Bool.false_eq_true, if_false]
  rw [hmethod]
  simp [ReadBufferImpl.head, Request.requestMethod]

/-- `lineLoop` ends before it reads the request line of a request without headers: the end of the line is the first
half of the marker of the empty line. -/
theorem lineLoop_of_nil {turns : ℕ} (req : CRequest) (hmem : data.memory = eol.lines request.lines ++ after)
    (hnil : request.headers = []) (hle : (eol.lines request.lines).length ≤ data.dataPartLength) :
    lineLoop data request.method.length (turns + 1) 0 0 req
      = some (0, { req with content := some (data.content (eol.lines request.lines).length) }) := by
  have hlines : request.lines = [request.line] := by rw [Request.lines, hnil, List.map_nil]
  have hlength : (eol.lines [request.line]).length =
      ([] : List UInt8).length + (eol.lines [request.line]).length :=
    (Nat.zero_add _).symm
  rw [hlines] at hmem hle ⊢
  rw [hlength] at hle ⊢
  exact lineLoop_of_emptyLine [] req hmem request.line_plain hle

/-- `lineLoop` reads the target off a request line whose end the window shows, unless the window shows the head to end
there. -/
theorem lineLoop_of_le {turns : ℕ} (req : CRequest) (hmem : data.memory = eol.lines request.lines ++ after)
    (hle : request.line.length + eol.bytes.length ≤ data.dataPartLength)
    (hnil : request.headers = [] → data.dataPartLength < (eol.lines request.lines).length) :
    lineLoop data request.method.length (turns + 1) 0 0 req
      = lineLoop data request.method.length turns (request.line.length + eol.bytes.length) 1
          { req with uri := some request.uriSpan } := by
  have hsplit := Request.memory_split hmem
  have hshown : ([] : List UInt8).length + request.line.length + eol.bytes.length ≤ data.dataPartLength := by
    rw [List.length_nil]
    omega
  -- Without headers the window is too short to show the empty line.
  have hshort : request.headers.map Header.line = [] → data.dataPartLength <
      ([] : List UInt8).length + request.line.length + (eol.bytes.length + eol.bytes.length) := by
    intro hmap
    have hwindow := hnil (List.map_eq_nil_iff.mp hmap)
    rw [request.length_lines, hmap, LineEnd.lines_nil] at hwindow
    rw [List.length_nil]
    omega
  obtain ⟨result, hresult, hfind⟩ := findValues_of_lines [] hsplit request.line_plain
    (plainLines_headers request.headers) hshown hshort
  have hfind : findValues (slice data.memory 0 data.head.stop) httpLineEndians =
      some ⟨result, 0 + request.line.length, 0 + request.line.length + eol.bytes.length⟩ := hfind
  have hpath : parsePath data.memory request.method.length
      ⟨result, 0 + request.line.length, 0 + request.line.length + eol.bytes.length⟩ req
        = some (some { req with uri := some request.uriSpan }) :=
    parsePath_line eol.bytes req hsplit
  have hne : result ≠ 0 := by omega
  rw [Nat.zero_add] at hfind hpath
  rw [lineLoop, hfind]
  simp only [Option.bind_eq_bind, Option.bind_some, hpath, hne, if_false, hresult, if_true, ne_eq,
    not_true_eq_false, Nat.zero_add]

/-- The parse of a request whose head lies in the window answers 0, with the method and the content, and with the
target and all headers but the last one when there is a header. -/
theorem httpParseRequest_head (req : CRequest) (hmem : data.memory = request.head ++ after)
    (hpart : request.head.length ≤ data.dataPartLength) (hne : data.dataLength ≠ 0) :
    ∃ stored, httpParseRequest data req =
        some (0, {
          method := some request.requestMethod
          uri := if request.headers = [] then req.uri else some request.uriSpan
          content := some (data.content request.head.length)
          params := req.params
          headers := req.headers ++ stored }) ∧
      headerTexts data.memory stored = keptHeaders request.headers := by
  rw [httpParseRequest_eq_lineLoop req (foldPrefix_method hmem hpart) hne]
  rw [request.head_eq_lines] at hmem hpart ⊢
  by_cases hheaders : request.headers = []
  · refine ⟨[], ?_, by rw [hheaders]; rfl⟩
    rw [lineLoop_of_nil _ hmem hheaders hpart, if_pos hheaders, List.append_nil]
  · have hlines : LineEnd.crLf.lines request.lines = request.line ++ crlf ++
        LineEnd.crLf.lines (request.headers.map Header.line) := by
      rw [Request.lines, LineEnd.lines_cons]
      rfl
    have hlength : (LineEnd.crLf.lines request.lines).length = (request.line ++ crlf).length +
        (LineEnd.crLf.lines (request.headers.map Header.line)).length := by
      rw [hlines, List.length_append]
    have hshown : (request.line ++ crlf).length = request.line.length + LineEnd.crLf.bytes.length :=
      List.length_append
    have hcount := LineEnd.length_le .crLf (request.headers.map Header.line)
    rw [List.length_map] at hcount
    rw [lineLoop_of_le _ hmem (by omega) fun hnil => absurd hnil hheaders, if_neg hheaders, ← hshown,
      hlength]
    exact lineLoop_headers (request.line ++ crlf) request.method.length data.dataPartLength 1
      { req with method := some request.requestMethod, uri := some request.uriSpan }
      hheaders (by rw [hmem, hlines, List.append_assoc]) (by omega) (by decide) (by omega)

/-- A buffer holds the whole request, and its head lies in the window. -/
structure Received (request : Request) (data : ReadBufferImpl) : Prop where
  /-- All of the request has been received, and nothing else. -/
  received_eq : data.received = request.text
  /-- The head lies in the window. -/
  head_le : request.head.length ≤ data.dataPartLength

/-- The parse accepts the request with its method, its target and exactly its headers. -/
def ParsedAsSent (request : Request) (data : ReadBufferImpl) : Prop :=
  ∃ answer, parsed data = some answer ∧ answer.code = 0 ∧
    answer.method = some request.requestMethod ∧ answer.uri = some request.target ∧
    answer.headers = request.headers.map fun header => (header.name, header.value)

/-- The head of a request is not empty. -/
theorem length_head_pos (request : Request) : 0 < request.head.length := by
  rw [Request.head, List.length_append]
  exact Nat.lt_add_left _ (by decide)

/-- What the parse answers to a request that has been received: the request line is lost when there are
no headers, otherwise the last header is. -/
theorem parsed_of_received (h : Received request data) :
    parsed data = some
      { code := 0
        method := some request.requestMethod
        uri := if request.headers = [] then none else some request.target
        params := none
        headers := keptHeaders request.headers
        content := some request.body } := by
  obtain ⟨more, hmore⟩ := data.received_prefix_memory
  have hmem : data.memory = request.head ++ (request.body ++ more) := by
    rw [← hmore, h.received_eq, Request.text, List.append_assoc]
  have hlen : data.dataLength = request.head.length + request.body.length := by
    rw [← data.length_received, h.received_eq, Request.text, List.length_append]
  have hpos := length_head_pos request
  obtain ⟨stored, hparse, hstored⟩ := httpParseRequest_head .init hmem h.head_le (by omega)
  have hcontent : (data.content request.head.length).text data.memory = request.body := by
    rw [data.text_content, h.received_eq, Request.text, List.drop_left]
  have huri : request.uriSpan.text data.memory = request.target :=
    text_eq_of_append _ (hmem.trans (by
      rw [Request.head, Request.line]
      simp only [List.append_assoc]
      rfl))
  rw [parsed, hparse, Option.map_some, texts, ← hstored]
  simp only [CRequest.init, List.nil_append, Option.map_none, Option.map_some, hcontent, headerTexts]
  split
  · rfl
  · rw [Option.map_some, huri]

/-- No request is parsed as it was sent. -/
theorem not_parsedAsSent (h : Received request data) : ¬ ParsedAsSent request data := by
  rintro ⟨answer, hanswer, -, -, huri, hheaders⟩
  obtain rfl := Option.some.inj ((parsed_of_received h).symm.trans hanswer)
  by_cases hnil : request.headers = []
  · -- The request line was never read.
    rw [if_pos hnil] at huri
    exact absurd huri (by simp)
  · -- One header is missing.
    have hlen := congrArg List.length hheaders
    have hpos := List.length_pos_iff.mpr hnil
    simp only [keptHeaders, List.length_map, List.length_dropLast] at hlen
    omega

/-- The request `GET /a HTTP/1.1` with the header `A: b`. -/
def getWithHeader : Request where
  method := bytes "GET "
  target := bytes "/a"
  version := bytes "HTTP/1.1"
  headers := [{
    name := bytes "A"
    blanks := bytes " "
    value := bytes "b"
    name_ne_nil := by decide
    name_plain := by decide
    blanks_blank := by decide
    value_plain := by decide
    value_start := by decide }]
  body := []
  method_mem := by decide
  target_ne_nil := by decide
  target_plain := by decide
  version_plain := by decide

/-- A buffer that has received `getWithHeader`. -/
def getReceived : ReadBufferImpl := ⟨25, 64, bytes "GET /a HTTP/1.1\r\nA: b\r\n\r\n", by decide⟩

/-- The request `getWithHeader` is not parsed as it was sent. -/
theorem not_parsedAsSent_get : Received getWithHeader getReceived ∧ ¬ ParsedAsSent getWithHeader getReceived :=
  have h : Received getWithHeader getReceived := ⟨by decide, by decide⟩
  ⟨h, not_parsedAsSent h⟩

/-- The only header of `getWithHeader` is lost. -/
theorem not_parsedAsSent_of_oneHeader :
    ¬ ∀ (request : Request) (data : ReadBufferImpl), Received request data → ParsedAsSent request data := by
  intro h
  obtain ⟨answer, hanswer, -, -, -, hheaders⟩ := h getWithHeader getReceived ⟨by decide, by decide⟩
  have hlost : (parsed getReceived).map Parsed.headers = some [] := by decide
  rw [hanswer, Option.map_some, hheaders] at hlost
  exact absurd (Option.some.inj hlost) (by decide)

end Http

end NavekFiber
