import NavekFiber.Net.HttpEmptyLines
import NavekFiber.Net.HttpHeaderValues
import NavekFiber.Net.HttpReceive

/-! # Where a head ends

The lines of a request may end with a line feed or with `"\r\n"`, in any mixture. The search knows an
empty line only by two line ends that are alike: one that ends otherwise than the line in front of it is
read as an ordinary line, and the head goes on into the body (`endsAtEmptyLine_iff`). -/

namespace NavekFiber

open Utils Proto

namespace Http

variable {mem text line marker rest after : List UInt8} {n lineBegin stop : ℕ} {req req' : CRequest}
  {data : ReadBufferImpl}

/-! ### Empty lines behind a line -/

/-- Behind a line that does not end the head, the blank lines of the text are those of the rest. -/
theorem hasBlankLine_line_iff (hline : lf ∉ line)
    (hmarker : marker = [lf] ∧ line.getLast? ≠ some cr ∨ marker = [cr, lf])
    (hends : ¬ FirstLineEndsHead (line ++ marker ++ rest)) :
    HasBlankLine (line ++ marker ++ rest) ↔ HasBlankLine rest := by
  induction line with
  | nil =>
      rcases hmarker with ⟨rfl, -⟩ | rfl
      · refine hasBlankLine_lf_iff fun after hrest => ?_
        obtain rfl : rest = lf :: after := hrest
        exact hends ⟨[], after, hline, Or.inr ⟨rfl, by simp⟩⟩
      · refine hasBlankLine_crlf_iff fun after hrest => ?_
        obtain rfl : rest = cr :: lf :: after := hrest
        exact hends ⟨[], after, hline, Or.inl rfl⟩
  | cons b line ih =>
      obtain ⟨hlf, hline'⟩ := not_or.mp fun h => hline (List.mem_cons.mpr h)
      have hlf : b ≠ lf := fun h => hlf h.symm
      -- A carriage return is followed by a character of the line, or by the marker that begins with one.
      have hcr : b = cr → ∀ after, line ++ marker ++ rest ≠ lf :: after := by
        rintro rfl after heq
        cases line with
        | nil =>
            rcases hmarker with ⟨-, hne⟩ | rfl
            · exact hne rfl
            · simp at heq
        | cons c line => exact hline' (by simp [(List.cons.inj heq).1])
      have hmarker' : marker = [lf] ∧ line.getLast? ≠ some cr ∨ marker = [cr, lf] := by
        refine hmarker.imp_left fun ⟨hm, hne⟩ => ⟨hm, fun h => hne ?_⟩
        rwa [getLast?_cons_of_ne fun hnil => by rw [hnil] at h; simp at h]
      have hends' : ¬ FirstLineEndsHead (line ++ marker ++ rest) := by
        rwa [← firstLineEndsHead_cons_iff hlf hcr]
      rw [← ih hline' hmarker' hends']
      exact hasBlankLine_cons_iff hlf hcr

/-- A text with a blank line has two line feeds at least. -/
theorem HasBlankLine.two_le_count (h : HasBlankLine text) : 2 ≤ text.count lf := by
  obtain ⟨before, after, rfl | ⟨rfl, -⟩⟩ := h
  · simp only [List.count_append, List.count_cons]
    simp
    omega
  · simp only [List.count_append, List.count_cons]
    simp
    omega

/-- A line that is ended by an empty line has no blank line before its end. -/
theorem not_hasBlankLine_take_marker (hline : lf ∉ line) (hmarker : marker = [cr, lf, cr, lf] ∨ marker = [lf, lf])
    (hn : n < line.length + marker.length) : ¬ HasBlankLine ((line ++ marker ++ after).take n) := by
  intro h
  obtain ⟨begin, hbegin, hcount⟩ : ∃ begin, marker = begin ++ [lf] ∧ begin.count lf = 1 := by
    rcases hmarker with rfl | rfl
    · exact ⟨[cr, lf, cr], rfl, by decide⟩
    · exact ⟨[lf], rfl, by decide⟩
  have htake : (line ++ marker ++ after).take n = (line ++ begin).take n := by
    have hsplit : line ++ marker ++ after = line ++ begin ++ lf :: after := by
      rw [hbegin]
      simp
    rw [hsplit, List.take_append_of_le_length]
    rw [hbegin, List.length_append, List.length_singleton] at hn
    rw [List.length_append]
    omega
  rw [htake] at h
  have hle := (List.take_sublist n (line ++ begin)).count_le lf
  rw [List.count_append, hcount, List.count_eq_zero_of_not_mem hline] at hle
  have := h.two_le_count
  omega

/-! ### What the loop stores -/

/-- The window for the head, as far as it is mapped. -/
def window (data : ReadBufferImpl) : List UInt8 := data.memory.take data.dataPartLength

/-- A header as the loop stores it: the value stands behind the name and is followed by a carriage
return, in front of `stop`. -/
structure StoredBefore (mem : List UInt8) (stop : ℕ) (header : Span × Span) : Prop where
  /-- The value ends behind the name. -/
  name_le : header.1.stop ≤ header.2.stop
  /-- The value ends in front of `stop`. -/
  value_lt : header.2.stop < stop
  /-- A carriage return follows the value. -/
  ended : mem[header.2.stop]? = some cr

/-- A header that ends in front of an offset ends in front of any later one. -/
theorem StoredBefore.mono {header : Span × Span} {stop' : ℕ} (h : StoredBefore mem stop header)
    (hle : stop ≤ stop') : StoredBefore mem stop' header :=
  ⟨h.name_le, h.value_lt.trans_le hle, h.ended⟩

/-- The character at a place of a range is the one of the memory at that place behind the start of the range. -/
theorem getElem?_of_slice {lo hi : ℕ} {before : List UInt8} {c : UInt8}
    (htext : (slice mem lo hi).bytes = before ++ c :: after) :
    lo + before.length < hi ∧ mem[lo + before.length]? = some c := by
  have hat := congrArg (fun text => text[before.length]?) htext
  simp only [slice_bytes, List.getElem?_drop, List.getElem?_append_right le_rfl, Nat.sub_self,
    List.getElem?_cons_zero, List.getElem?_take] at hat
  split at hat
  · exact ⟨by assumption, hat⟩
  · exact absurd hat (by simp)

/-- `parseHeader` stores a header only when its value is followed by a carriage return: the number of the line feed is
zero. -/
theorem parseHeader_storedBefore {line : MatchResult} (h : parseHeader mem lineBegin line req = some req') :
    req' = req ∨ ∃ header, StoredBefore mem line.stop header ∧
      req' = { req with headers := req.headers ++ [header] } := by
  refine (parseHeader_cases h).imp_right ?_
  rintro ⟨name, value, -, hvalue, hne, rfl⟩
  obtain ⟨before, c, after, htext, -, hc, rfl⟩ := findChar_found hvalue hne
  obtain ⟨hlt, hat⟩ := getElem?_of_slice htext
  have hchars : c = cr ∨ c = lf := by
    simpa [show bytes "\r\n" = [cr, lf] from rfl] using hc
  obtain rfl : c = cr := by
    refine hchars.resolve_right ?_
    rintro rfl
    exact hne (show charResult ((bytes "\r\n").idxOf lf) = 0 by decide)
  refine ⟨_, ⟨?_, ?_, ?_⟩, rfl⟩
  · show name.stop - 1 ≤ name.stop + before.length + 1 - 1
    omega
  · exact hlt
  · exact hat

/-- The loop stands behind some lines: the window has had no empty line so far, and the headers are those
of these lines. -/
structure Passed (data : ReadBufferImpl) (lineBegin : ℕ) (req : CRequest) : Prop where
  /-- The loop has not left the window. -/
  lineBegin_le : lineBegin ≤ (window data).length
  /-- The empty lines of the window are those of the rest. -/
  hasBlankLine_iff : ∀ n, HasBlankLine ((window data).take (lineBegin + n)) ↔
    HasBlankLine ((slice data.memory lineBegin data.dataPartLength).bytes.take n)
  /-- The headers stand in front of the line. -/
  headers : ∀ header ∈ req.headers, StoredBefore data.memory lineBegin header
  /-- There is no content yet. -/
  content : req.content = none

/-- An answer of the parse: the head ends with the first empty line, and the headers stand in front of its end. -/
structure HeadAnswer (data : ReadBufferImpl) (code : ℕ) (req : CRequest) : Prop where
  /-- The head that is accepted ends with the first empty line. -/
  accepted : code = 0 → ∃ stop, FirstEnd HasBlankLine (window data) stop ∧
    req.content = some (data.content stop) ∧ ∀ header ∈ req.headers, StoredBefore data.memory stop header
  /-- In any case the headers stand in the window. -/
  headers : ∀ header ∈ req.headers, StoredBefore data.memory (window data).length header
  /-- Without an accepted head there is no content. -/
  refused : code ≠ 0 → req.content = none

/-- The window has the bytes of the memory up to `dataPartLength`, as far as there are any. -/
theorem length_window (data : ReadBufferImpl) :
    (window data).length = min data.dataPartLength data.memory.length := by
  rw [window, List.length_take]

/-- What ends in the window is a part of the memory. -/
theorem take_window (hle : stop ≤ (window data).length) : (window data).take stop = data.memory.take stop := by
  rw [length_window] at hle
  rw [window, List.take_take, Nat.min_eq_left (by omega)]

/-- At the beginning of the window nothing has been passed. -/
theorem passed_zero (hreq : req.headers = []) (hcontent : req.content = none) : Passed data 0 req where
  lineBegin_le := Nat.zero_le _
  hasBlankLine_iff := fun n => by rw [Nat.zero_add, window, slice_bytes, List.drop_zero]
  headers := by simp [hreq]
  content := hcontent

/-- A line that is not followed by an empty one is passed: the loop goes on behind it. -/
theorem Passed.lineEnd {line : MatchResult} (h : Passed data lineBegin req)
    (hline : findValues (slice data.memory lineBegin data.head.stop) httpLineEndians = some line)
    (hresult : 2 < line.result)
    (hreq : ∀ header ∈ req'.headers, header ∈ req.headers ∨ StoredBefore data.memory line.stop header)
    (hcontent : req'.content = req.content) : Passed data line.stop req' := by
  have hlen := length_window data
  have hle := h.lineBegin_le
  have hnext : NextLine _ lineBegin _ (findValues (slice data.memory lineBegin data.head.stop)
    httpLineEndians) := nextLine_findValues lineBegin data.dataPartLength
  rw [hline] at hnext
  cases hnext with
  | absent => exact absurd hresult (by decide)
  | blank result _ _ _ _ _ hblank =>
      have hresult : 2 < result := hresult
      omega
  | line result line marker after htext hplain hresult hmarker hdecided hends hblank =>
      obtain ⟨hstop, hafter⟩ := slice_after (by omega) htext
      have hbegin : lineBegin ≤ lineBegin + line.length + marker.length := by omega
      refine ⟨?_, fun n => ?_, fun header hmem => (hreq header hmem).elim (fun hold => ?_) id,
        hcontent.trans h.content⟩
      · have hlength := congrArg List.length htext
        simp only [slice_bytes, List.length_drop, List.length_take, List.length_append] at hlength
        show lineBegin + line.length + marker.length ≤ _
        omega
      · show HasBlankLine ((window data).take (lineBegin + line.length + marker.length + n)) ↔
          HasBlankLine ((slice data.memory (lineBegin + line.length + marker.length)
            data.dataPartLength).bytes.take n)
        have hcut : ((slice data.memory lineBegin data.dataPartLength).bytes.take
            (line.length + marker.length + n)) = line ++ marker ++ after.take n := by
          rw [htext, ← List.length_append, List.take_length_add_append]
        rw [Nat.add_assoc, Nat.add_assoc, ← Nat.add_assoc line.length, h.hasBlankLine_iff, hcut, hafter]
        refine hasBlankLine_line_iff hplain hmarker fun hshort => hends ?_
        -- What ends the head in a part of the text ends it in all of it.
        obtain ⟨first, more, hfirst, heq⟩ := hshort
        refine ⟨first, more ++ after.drop n, hfirst, ?_⟩
        rw [htext, ← List.take_append_drop n after, ← List.append_assoc (line ++ marker)]
        rcases heq with heq | ⟨heq, hne⟩
        · exact Or.inl (by rw [heq]; simp)
        · exact Or.inr ⟨by rw [heq]; simp, hne⟩
      · exact (h.headers header hold).mono hbegin

/-- An empty line that the loop finds is the first one of the window. -/
theorem Passed.firstEnd {line : MatchResult} (h : Passed data lineBegin req)
    (hline : findValues (slice data.memory lineBegin data.head.stop) httpLineEndians = some line)
    (hne : line.result ≠ 0) (hresult : ¬ 2 < line.result) :
    FirstEnd HasBlankLine (window data) line.stop ∧ lineBegin ≤ line.stop := by
  have hnext : NextLine _ lineBegin _ (findValues (slice data.memory lineBegin data.head.stop)
    httpLineEndians) := nextLine_findValues lineBegin data.dataPartLength
  rw [hline] at hnext
  cases hnext with
  | absent => exact absurd rfl hne
  | line => contradiction
  | blank result line marker after htext hplain _ hmarker =>
      refine ⟨⟨?_, fun n hn hblank => ?_⟩, ?_⟩
      · show HasBlankLine ((window data).take (lineBegin + line.length + marker.length))
        rw [Nat.add_assoc, h.hasBlankLine_iff]
        exact hasBlankLine_take_of_blank htext hplain hmarker
      · -- Nothing is empty up to this line, nor within it.
        obtain ⟨k, hk, hle⟩ : ∃ k, n ≤ lineBegin + k ∧ k < line.length + marker.length := by
          have hn : n < lineBegin + line.length + marker.length := hn
          have hpos : 0 < marker.length := by rcases hmarker with rfl | ⟨rfl, -⟩ <;> decide
          exact ⟨n - lineBegin, by omega, by omega⟩
        have hlong := hblank.of_isPrefix (List.take_prefix_take_left hk)
        rw [h.hasBlankLine_iff, htext] at hlong
        exact not_hasBlankLine_take_marker hplain (hmarker.imp_right And.left) hle hlong
      · show lineBegin ≤ lineBegin + line.length + marker.length
        omega

/-- The loop over the lines keeps `Passed`, and ends the head at the first empty line. -/
theorem lineInvariant_passed (data : ReadBufferImpl) (methodEnd : ℕ) :
    LineInvariant data methodEnd (fun lineBegin _ req => Passed data lineBegin req) (HeadAnswer data) where
  header := by
    intro lineBegin lineNo line req req' h _ hline hresult hheader
    rcases parseHeader_storedBefore hheader with rfl | ⟨new, hnew, rfl⟩
    · exact h.lineEnd hline hresult (fun header hmem => Or.inl hmem) rfl
    · refine h.lineEnd hline hresult (fun header hmem => ?_) rfl
      rcases List.mem_append.mp hmem with hold | hmem
      · exact Or.inl hold
      · exact Or.inr (List.mem_singleton.mp hmem ▸ hnew)
  path := by
    intro lineBegin line req req' h hline hresult hpath
    obtain ⟨path, -, rfl⟩ := parsePath_cases hpath
    exact h.lineEnd hline hresult (fun header hmem => Or.inl hmem) rfl
  refused := fun h => ⟨by simp, fun header hmem => (h.headers header hmem).mono h.lineBegin_le, fun _ => h.content⟩
  absent := fun h => ⟨by simp, fun header hmem => (h.headers header hmem).mono h.lineBegin_le, fun _ => h.content⟩
  blank := by
    intro lineBegin lineNo line req h hline hne hresult
    obtain ⟨hfirst, hle⟩ := h.firstEnd hline hne hresult
    refine ⟨fun _ => ⟨line.stop, hfirst, rfl, fun header hmem => ?_⟩, fun header hmem => ?_, fun hcode => ?_⟩
    · exact (h.headers header hmem).mono hle
    · exact (h.headers header hmem).mono h.lineBegin_le
    · exact absurd rfl hcode

/-- Whatever the parse of a new request answers is a `HeadAnswer`. -/
theorem headAnswer_httpParseRequest {code : ℕ} (h : httpParseRequest data .init = some (code, req)) :
    HeadAnswer data code req := by
  rw [httpParseRequest] at h
  split at h
  · obtain ⟨rfl, rfl⟩ := Prod.mk.inj (Option.some.inj h)
    exact ⟨by simp, by simp [CRequest.init], fun _ => rfl⟩
  · obtain ⟨method, -, h⟩ := Option.bind_eq_some_iff.mp h
    split at h
    · exact (lineInvariant_passed data method.stop).lineLoop (passed_zero rfl rfl) h
    · obtain ⟨rfl, rfl⟩ := Prod.mk.inj (Option.some.inj h)
      exact ⟨by simp, by simp [CRequest.init], fun _ => rfl⟩

/-! ### Requests whose lines end either way -/

/-- A request has been received: it begins with a method, and the white space that ends its path is not a tab. -/
def RequestReceived (data : ReadBufferImpl) : Prop :=
  ∃ needle ∈ requestMethods, FoldPrefix needle data.received ∧
    ∃ c, c ≠ tab ∧ (data.received.drop needle.length).find? (· ∈ pathEnds) = some c

/-- The answer of the parse ends the head at `stop`. -/
structure HeadEndsAt (data : ReadBufferImpl) (stop code : ℕ) (req : CRequest) : Prop where
  /-- The request is accepted. -/
  code_eq : code = 0
  /-- The content starts at `stop`. -/
  content : ∃ span, req.content = some span ∧ span.start = stop
  /-- No header is taken from beyond `stop`. -/
  headers : ∀ header ∈ req.headers, header.1.stop ≤ stop ∧ header.2.stop ≤ stop
  /-- The head is complete there: it is accepted in a window that ends there, too. -/
  complete : ∃ req', httpParseRequest { data with dataPartLength := stop } .init = some (0, req')

/-- The parse ends the head at the first empty line, and answers 431 exactly when the window has none. -/
def EndsAtEmptyLine (data : ReadBufferImpl) : Prop :=
  ∃ code req, httpParseRequest data .init = some (code, req) ∧
    (code = 431 ↔ ¬ HasEmptyLine (window data)) ∧
    ∀ stop, FirstEmptyLine (window data) stop → HeadEndsAt data stop code req

/-- No method has a line feed, up to the case of letters. -/
theorem icaseAscii_lf_notMem {needle : List UInt8} (hmem : needle ∈ requestMethods) :
    icaseAscii lf ∉ needle.map icaseAscii := by
  intro h
  obtain ⟨c, hc, heq⟩ := List.mem_map.mp h
  exact (icaseAscii_method_ne needle hmem c hc).2 heq

/-- A text with an empty line has a line feed. -/
theorem HasEmptyLine.lf_mem (h : HasEmptyLine text) : lf ∈ text := by
  obtain ⟨before, after, rfl | rfl⟩ := h <;> simp

/-- A beginning of the memory of a request that has an empty line has the whole method, too. -/
theorem foldPrefix_of_hasEmptyLine {needle : List UInt8} (hmem : needle ∈ requestMethods)
    (hpre : FoldPrefix needle data.received) (h : HasEmptyLine (data.memory.take n)) :
    FoldPrefix needle (data.memory.take n) := by
  have hneedle : needle.map icaseAscii <+: data.memory.map icaseAscii :=
    hpre.trans (data.received_prefix_memory.map icaseAscii)
  have htake : (data.memory.take n).map icaseAscii <+: data.memory.map icaseAscii :=
    (List.take_prefix n data.memory).map icaseAscii
  rcases List.prefix_or_prefix_of_prefix hneedle htake with hle | hle
  · exact hle
  · -- The part would end within the method, which has no line feed.
    refine absurd (hle.subset (List.mem_map_of_mem h.lf_mem)) ?_
    exact icaseAscii_lf_notMem hmem

/-- When the path of a request does not end with a tab, it does so in no beginning of the memory. -/
theorem not_tabbedPath_take {needle : List UInt8} {c : UInt8} (hc : c ≠ tab)
    (hfind : (data.received.drop needle.length).find? (· ∈ pathEnds) = some c) (n : ℕ) :
    ¬ TabbedPath needle (data.memory.take n) := by
  intro htab
  have hdrop : ∀ {part : List UInt8}, part <+: data.memory →
      part.drop needle.length <+: data.memory.drop needle.length := by
    rintro part ⟨more, hmore⟩
    rw [← hmore, List.drop_append]
    exact List.prefix_append _ _
  have hreceived := (hdrop data.received_prefix_memory).find?_eq_some hfind
  have htake := (hdrop (List.take_prefix n data.memory)).find?_eq_some htab
  exact hc (Option.some.inj (hreceived.symm.trans htake))

/-- A beginning of a received request that has a blank line is an acceptable head. -/
theorem acceptableHead_take (h : RequestReceived data) (hblank : HasBlankLine (data.memory.take n)) :
    AcceptableHead (data.memory.take n) := by
  obtain ⟨needle, hmem, hpre, c, hc, hfind⟩ := h
  exact ⟨needle, hmem, foldPrefix_of_hasEmptyLine hmem hpre hblank.hasEmptyLine, hblank,
    Or.inr (not_tabbedPath_take hc hfind n)⟩

/-- A received request has bytes that have been received. -/
theorem RequestReceived.dataLength_ne_zero (h : RequestReceived data) : data.dataLength ≠ 0 := by
  obtain ⟨needle, hmem, hpre, -⟩ := h
  have hne : ∀ needle ∈ requestMethods, needle.length ≠ 0 := by decide
  have hle := hpre.length_le
  have := hne needle hmem
  rw [data.length_received] at hle
  omega

/-- The head of a received request ends at the first empty line when this ends as the line before it does. -/
theorem headEndsAt_of_endsAlike (h : RequestReceived data) (hstop : FirstEmptyLine (window data) stop)
    (halike : EndsAlike ((window data).take stop)) (hle : stop ≤ data.dataLength) :
    ∃ req, httpParseRequest data .init = some (0, req) ∧ HeadEndsAt data stop 0 req := by
  have hzero := h.dataLength_ne_zero
  have hblank := hstop.endsAlike_iff.mp halike
  have hwindow : HasBlankLine (window data) := hblank.of_isPrefix (List.take_prefix _ _)
  obtain ⟨req, -, hparse, -⟩ := (acceptableHead_iff data .init hzero).mp (acceptableHead_take h hwindow)
  obtain ⟨first, hfirst, hcontent, hheaders⟩ := (headAnswer_httpParseRequest hparse).accepted rfl
  -- The first empty line whose line ends are alike is the first of all.
  have hsame : first = stop := le_antisymm (hfirst.le hblank) (hstop.le hfirst.ends.hasEmptyLine)
  subst hsame
  refine ⟨req, hparse, rfl, ⟨_, hcontent, ?_⟩, fun header hmem => ?_, ?_⟩
  · show (if first < data.dataLength then first else data.dataLength) = first
    split <;> omega
  · have hstored := hheaders header hmem
    exact ⟨hstored.name_le.trans hstored.value_lt.le, hstored.value_lt.le⟩
  · have hcut : HasBlankLine (data.memory.take first) := take_window hstop.le_length ▸ hblank
    obtain ⟨req', -, hparse', -⟩ := (acceptableHead_iff { data with dataPartLength := first } .init hzero).mp
      (acceptableHead_take h hcut)
    exact ⟨req', hparse'⟩

/-- Without an empty line a received request is answered 431 exactly when the window shows the method and is
mapped. -/
theorem code_of_not_hasEmptyLine (h : RequestReceived data)
    (hnone : ¬ HasEmptyLine (window data)) :
    (∃ req, httpParseRequest data .init = some (431, req)) ↔
      (∃ needle ∈ requestMethods, FoldPrefix needle (window data)) ∧
        data.dataPartLength ≤ data.memory.length := by
  obtain ⟨needle, hmem, hpre, c, hc, hfind⟩ := id h
  have hout : ParseOutcome data (window data) (httpParseRequest data .init) :=
    parseOutcome data .init h.dataLength_ne_zero
  generalize httpParseRequest data .init = answer at hout ⊢
  cases hout with
  | noMethod _ hpre =>
      refine iff_of_false (by simp) ?_
      rintro ⟨⟨needle, hmem, h⟩, -⟩
      exact hpre needle hmem h
  | methodFault _ _ hshort => exact iff_of_false (by simp) fun h => absurd h.2 (by omega)
  | refused _ other hother hpre' _ htab =>
      -- The window would begin with the method of the request.
      have hsame : other = needle := eq_of_foldPrefix hother hmem
        (hpre'.trans ((List.take_prefix _ _).map icaseAscii))
        (hpre.trans (data.received_prefix_memory.map icaseAscii))
      subst hsame
      exact absurd htab (not_tabbedPath_take hc hfind _)
  | accepted _ _ _ _ _ _ hblank =>
      exact absurd (hblank.hasEmptyLine.of_isPrefix (List.take_prefix _ _)) hnone
  | tooLong req needle hmem hpre hfull => exact iff_of_true ⟨req, rfl⟩ ⟨⟨needle, hmem, hpre⟩, hfull⟩
  | fault _ _ _ hshort => exact iff_of_false (by simp) fun h => absurd h.2 (by omega)

/-- The parse of a received request ends the head at the first empty line exactly when this ends like
the line in front of it, and within the bytes received. Without any it answers 431 exactly when the
window shows the method and is mapped. -/
theorem endsAtEmptyLine_iff (h : RequestReceived data) :
    EndsAtEmptyLine data ↔
      (¬ HasEmptyLine (window data) → (∃ needle ∈ requestMethods, FoldPrefix needle (window data)) ∧
        data.dataPartLength ≤ data.memory.length) ∧
      ∀ stop, FirstEmptyLine (window data) stop →
        EndsAlike ((window data).take stop) ∧ stop ≤ data.dataLength := by
  constructor
  · rintro ⟨code, req, hparse, hcode, hends⟩
    refine ⟨fun hnone => ?_, fun stop hstop => ?_⟩
    · rw [← code_of_not_hasEmptyLine h hnone]
      exact ⟨req, hcode.mpr hnone ▸ hparse⟩
    · obtain ⟨hcode, ⟨span, hcontent, hstart⟩, -, req', hcut⟩ := hends stop hstop
      have hzero := h.dataLength_ne_zero
      obtain ⟨_, _, _, hblank, -⟩ : AcceptableHead (data.memory.take stop) :=
        @acceptableHead_of_accepted { data with dataPartLength := stop } _ _ hzero hcut
      rw [← take_window hstop.le_length] at hblank
      refine ⟨hstop.endsAlike_iff.mpr hblank, ?_⟩
      obtain ⟨first, -, hfirst, -⟩ := (headAnswer_httpParseRequest hparse).accepted hcode
      obtain rfl := Option.some.inj (hcontent.symm.trans hfirst)
      have hstart : (if first < data.dataLength then first else data.dataLength) = stop := hstart
      split at hstart <;> omega
  · rintro ⟨hnone, hsome⟩
    by_cases hempty : HasEmptyLine (window data)
    · obtain ⟨stop, hstop⟩ := hempty.exists_first
      obtain ⟨halike, hle⟩ := hsome stop hstop
      obtain ⟨req, hparse, hends⟩ := headEndsAt_of_endsAlike h hstop halike hle
      refine ⟨0, req, hparse, by simp [hempty], fun stop' hstop' => ?_⟩
      obtain rfl : stop' = stop := le_antisymm (hstop'.le hstop.ends) (hstop.le hstop'.ends)
      exact hends
    · obtain ⟨req, hparse⟩ := (code_of_not_hasEmptyLine h hempty).mpr (hnone hempty)
      exact ⟨431, req, hparse, by simp [hempty], fun stop hstop => absurd hstop.hasEmptyLine hempty⟩

/-- The request `GET /a` with a header and an empty line, and a body whose lines look like headers. -/
def followed (eol : LineEnd) : ReadBufferImpl where
  dataLength := 36 + eol.bytes.length
  dataPartLength := 64
  memory := bytes "GET /a HTTP/1.1\r\nA: b\r\n" ++ eol.bytes ++ bytes "C: d\r\nE: f\r\n\r\n"
  dataLength_le := by cases eol <;> decide

/-- The text `followed` is a received request, whichever way its empty line ends. -/
theorem requestReceived_followed (eol : LineEnd) : RequestReceived (followed eol) :=
  ⟨bytes "GET ", by decide, by cases eol <;> decide, space, by decide, by cases eol <;> decide⟩

/-- When the empty line of `followed` ends as the line before it, the head ends there. -/
theorem endsAtEmptyLine_iff_followed : RequestReceived (followed .crLf) ∧ EndsAtEmptyLine (followed .crLf) := by
  have h := requestReceived_followed .crLf
  have hfirst : FirstEmptyLine (window (followed .crLf)) 25 := ⟨by decide, by decide⟩
  refine ⟨h, (endsAtEmptyLine_iff h).mpr ⟨fun hnone => absurd hfirst.hasEmptyLine hnone, fun stop hstop => ?_⟩⟩
  obtain rfl : stop = 25 := le_antisymm (hstop.le hfirst.ends) (hfirst.le hstop.ends)
  exact ⟨⟨bytes "GET /a HTTP/1.1\r\nA: b", Or.inl (by decide)⟩, by decide⟩

/-- When the empty line of `followed` is a line feed alone behind a `"\r\n"`, the head does not end there, and a line
of the body is taken for a header. -/
theorem not_endsAtEmptyLine_of_lineFeed :
    ¬ ∀ data : ReadBufferImpl, RequestReceived data → EndsAtEmptyLine data := by
  intro h
  obtain ⟨code, req, hparse, -, hends⟩ := h _ (requestReceived_followed .lineFeed)
  have hfirst : FirstEmptyLine (window (followed .lineFeed)) 24 := ⟨by decide, by decide⟩
  have hheaders : (httpParseRequest (followed .lineFeed) .init).map (fun answer =>
      answer.2.headers.map fun header => header.2.stop) = some [21, 28] := by decide
  rw [hparse, Option.map_some] at hheaders
  have hmem : 28 ∈ req.headers.map fun header => header.2.stop := by
    rw [Option.some.inj hheaders]
    decide
  obtain ⟨header, hheader, heq⟩ := List.mem_map.mp hmem
  have := ((hends 24 hfirst).headers header hheader).2
  omega

end Http

end NavekFiber
