import NavekFiber.Net.HttpStatus
import NavekFiber.Utils.FindMatchReads

/-! # What a parse depends on

The window for the head is fixed by configuration, so the parse of a short request runs on into bytes
that were not received. It stays within the bytes received exactly when they decide it
(`parse_determined_iff`). -/

namespace NavekFiber

open Utils Proto

namespace Http

variable {mem mem' : List UInt8} {data data' : ReadBufferImpl} {req req' : CRequest}

/-! ### More memory -/

/-- Mapping more of the memory does not change what `parseHeader` makes of a line, unless it faulted. -/
theorem below_parseHeader (hmem : mem <+: mem') (lineBegin : ℕ) (line : MatchResult) (req : CRequest) :
    Below (parseHeader mem lineBegin line req) (parseHeader mem' lineBegin line req) := by
  refine (below_findChar (slice_extends hmem) _).bind fun name => ?_
  split
  · refine (below_findChar (slice_extends hmem) _).bind fun value => ?_
    split <;> rfl
  · rfl

/-- Mapping more of the memory does not change what `parsePath` makes of the first line, unless it faulted. -/
theorem below_parsePath (hmem : mem <+: mem') (methodEnd : ℕ) (line : MatchResult) (req : CRequest) :
    Below (parsePath mem methodEnd line req) (parsePath mem' methodEnd line req) := by
  refine (below_findChar (slice_extends hmem) _).bind fun path => ?_
  split
  · refine (below_findChar (slice_extends hmem) _).bind fun params => ?_
    split <;> rfl
  · rfl

/-- Mapping more of the memory does not change what `lineLoop` answers, unless it faulted. -/
theorem below_lineLoop (hmem : data.memory <+: data'.memory) (hlen : data.dataLength = data'.dataLength)
    (hpart : data.dataPartLength = data'.dataPartLength) (methodEnd turns lineBegin lineNo : ℕ)
    (req : CRequest) :
    Below (lineLoop data methodEnd turns lineBegin lineNo req)
      (lineLoop data' methodEnd turns lineBegin lineNo req) := by
  have hhead : data.head = data'.head := by rw [ReadBufferImpl.head, hpart, ReadBufferImpl.head]
  have hcontent : ∀ offset, data.content offset = data'.content offset := fun offset => by
    rw [ReadBufferImpl.content, hlen, ReadBufferImpl.content]
  induction turns generalizing lineBegin lineNo req with
  | zero => rfl
  | succ turns ih =>
      simp only [lineLoop, hhead]
      refine (below_findValues (slice_extends hmem) _).bind fun line => ?_
      split
      · rfl
      · split
        · split
          · exact (below_parseHeader hmem _ _ _).bind fun req => ih _ _ req
          · refine (below_parsePath hmem _ _ _).bind fun found => ?_
            cases found with
            | none => rfl
            | some req => exact ih _ _ req
        · rw [hcontent]

/-- Mapping more of the memory does not change what `http_parse_request` answers, unless it faulted. -/
theorem below_httpParseRequest (hmem : data.memory <+: data'.memory)
    (hlen : data.dataLength = data'.dataLength) (hpart : data.dataPartLength = data'.dataPartLength)
    (req : CRequest) : Below (httpParseRequest data req) (httpParseRequest data' req) := by
  have hhead : data.head = data'.head := by rw [ReadBufferImpl.head, hpart, ReadBufferImpl.head]
  have hempty : data.empty = data'.empty := by rw [ReadBufferImpl.empty, hlen, ReadBufferImpl.empty]
  simp only [httpParseRequest, hhead, hempty, hpart]
  split
  · rfl
  · refine Below.bind (below_matchFrom (slice_extends hmem) 0 _) fun method => ?_
    split
    · exact below_lineLoop hmem hlen hpart _ _ _ _ _
    · rfl

/-! ### Where the strings stand -/

/-- All strings of the request end within the first `n` bytes of the buffer. -/
structure Within (n : ℕ) (req : CRequest) : Prop where
  /-- The path does. -/
  uri : ∀ span ∈ req.uri, span.stop ≤ n
  /-- The content does. -/
  content : ∀ span ∈ req.content, span.stop ≤ n
  /-- The query does. -/
  params : ∀ span ∈ req.params, span.stop ≤ n
  /-- The headers do. -/
  headers : ∀ header ∈ req.headers, header.1.stop ≤ n ∧ header.2.stop ≤ n

/-- A new request has no strings, so that they are `Within` any bytes. -/
theorem within_init (n : ℕ) : Within n .init := by
  constructor <;> simp [CRequest.init]

/-- What `find_char` finds in a range ends in the memory. -/
theorem stop_le_of_findChar {charlist : List UInt8} {lo hi : ℕ} {found : MatchResult}
    (hlo : lo ≤ mem.length) (h : findChar (slice mem lo hi) charlist = some found) :
    found.stop ≤ mem.length := by
  have hle := findChar_stop_le h
  simp only [slice_start, slice_bytes, List.length_drop, List.length_take] at hle
  omega

/-- A header line adds strings that stand in the memory. -/
theorem Within.parseHeader {lineBegin : ℕ} {line : MatchResult} (hreq : Within mem.length req)
    (hlo : lineBegin ≤ mem.length) (h : parseHeader mem lineBegin line req = some req') :
    Within mem.length req' := by
  rcases parseHeader_cases h with rfl | ⟨name, value, hname, hvalue, -, rfl⟩
  · exact hreq
  · have hnamele := stop_le_of_findChar hlo hname
    have hvaluele := stop_le_of_findChar hnamele hvalue
    refine ⟨hreq.uri, hreq.content, hreq.params, fun header hmem => ?_⟩
    rcases List.mem_append.mp hmem with hold | hnew
    · exact hreq.headers header hold
    · rw [List.mem_singleton.mp hnew]
      exact ⟨by show name.stop - 1 ≤ _; omega, by show value.stop - 1 ≤ _; omega⟩

/-- The request line adds strings that stand in the memory. -/
theorem Within.parsePath {methodEnd : ℕ} {line : MatchResult} (hreq : Within mem.length req)
    (hlo : methodEnd ≤ mem.length) (h : parsePath mem methodEnd line req = some (some req')) :
    Within mem.length req' := by
  obtain ⟨path, hpath, rfl⟩ := parsePath_cases h
  have hpathle := stop_le_of_findChar hlo hpath
  refine ⟨fun span hspan => ?_, hreq.content, hreq.params, hreq.headers⟩
  obtain rfl := Option.some.inj hspan
  show path.stop - 1 ≤ _
  omega

/-- A line end that `find_values` finds ends in the memory. -/
theorem findValues_stop_le {lineBegin hi : ℕ} {line : MatchResult} (hlo : lineBegin ≤ mem.length)
    (h : findValues (slice mem lineBegin hi) httpLineEndians = some line) (hne : line.result ≠ 0) :
    line.stop ≤ mem.length := by
  have hnext : NextLine _ lineBegin _ (findValues (slice mem lineBegin hi) httpLineEndians) :=
    nextLine_findValues lineBegin hi
  rw [h] at hnext
  cases hnext with
  | absent => exact absurd rfl hne
  | blank _ _ _ _ htext => exact (slice_after hlo htext).1
  | line _ _ _ _ htext => exact (slice_after hlo htext).1

/-- The loop over the lines keeps the strings of the request `Within` the memory. -/
theorem lineInvariant_within {methodEnd : ℕ} (hmethod : methodEnd ≤ data.memory.length) :
    LineInvariant data methodEnd
      (fun lineBegin _ req => lineBegin ≤ data.memory.length ∧ Within data.memory.length req)
      (fun _ req => Within data.memory.length req) where
  header := fun ⟨hlo, hreq⟩ _ hline hresult hheader =>
    ⟨findValues_stop_le hlo hline (by omega), hreq.parseHeader hlo hheader⟩
  path := fun ⟨hlo, hreq⟩ hline hresult hpath =>
    ⟨findValues_stop_le hlo hline (by omega), hreq.parsePath hmethod hpath⟩
  refused := And.right
  absent := And.right
  blank := fun ⟨_, hreq⟩ _ _ _ => by
    refine ⟨hreq.uri, fun span hspan => ?_, hreq.params, hreq.headers⟩
    obtain rfl := Option.some.inj hspan
    exact data.dataLength_le

/-- The parse leaves the strings of the request `Within` the memory. -/
theorem Within.httpParseRequest {code : ℕ} (hreq : Within data.memory.length req)
    (h : httpParseRequest data req = some (code, req')) : Within data.memory.length req' := by
  rw [NavekFiber.httpParseRequest] at h
  split at h
  · obtain ⟨rfl, rfl⟩ := Prod.mk.inj (Option.some.inj h)
    exact hreq
  · obtain ⟨method, hmethod, h⟩ := Option.bind_eq_some_iff.mp h
    split at h
    · rename_i hne
      have hstop : method.stop ≤ data.memory.length := by
        have hle := matchFrom_stop_le hmethod hne
        simp only [slice_start, slice_bytes, List.length_drop, List.length_take] at hle
        have hstart : data.head.start = 0 := rfl
        omega
      have hnew : Within data.memory.length
          { req with method := some (RequestMethod.ofResult method.result) } :=
        ⟨hreq.uri, hreq.content, hreq.params, hreq.headers⟩
      exact (lineInvariant_within hstop).lineLoop ⟨Nat.zero_le _, hnew⟩ h
    · obtain ⟨rfl, rfl⟩ := Prod.mk.inj (Option.some.inj h)
      exact hreq

/-! ### The bytes that decide a parse -/

/-- What the parse answers, as texts. -/
structure Parsed where
  /-- The status code. -/
  code : ℕ
  /-- The method. -/
  method : Option RequestMethod
  /-- The path. -/
  uri : Option (List UInt8)
  /-- The query. -/
  params : Option (List UInt8)
  /-- The names and values of the headers. -/
  headers : List (List UInt8 × List UInt8)
  /-- The content. -/
  content : Option (List UInt8)
  deriving DecidableEq, Repr

/-- The texts behind the strings of a request. -/
def texts (mem : List UInt8) (answer : ℕ × CRequest) : Parsed where
  code := answer.1
  method := answer.2.method
  uri := answer.2.uri.map (Span.text mem)
  params := answer.2.params.map (Span.text mem)
  headers := answer.2.headers.map fun header => (header.1.text mem, header.2.text mem)
  content := answer.2.content.map (Span.text mem)

/-- The answer of the parse of a new request; `none` when it reads unmapped memory. -/
def parsed (data : ReadBufferImpl) : Option Parsed :=
  (httpParseRequest data .init).map (texts data.memory)

/-- The parse reads no byte at offset `dataLength` or beyond: it does not fault when the memory ends
there. -/
def ReadsOnlyReceived (data : ReadBufferImpl) : Prop :=
  (httpParseRequest data.cutOff .init).isSome = true

/-- The bytes received decide the parse: they do not end within a method, and if they begin with one,
they have an empty line, or a complete first line in which a tab is the first white space. -/
def Decides (received : List UInt8) : Prop :=
  (∀ needle ∈ requestMethods, ¬ StopsWithin received needle) ∧
    ∀ needle ∈ requestMethods, FoldPrefix needle received →
      HasBlankLine received ∨ FirstLineDecided received ∧ TabbedPath needle received

/-- Strings within the first `n` bytes have the same texts in a longer memory. -/
theorem texts_eq_of_within (hmem : mem <+: mem') (hreq : Within mem.length req) (code : ℕ) :
    texts mem (code, req) = texts mem' (code, req) := by
  have hmap : ∀ span? : Option Span, (∀ span ∈ span?, span.stop ≤ mem.length) →
      span?.map (Span.text mem) = span?.map (Span.text mem') := by
    intro span? h
    cases span? with
    | none => rfl
    | some span => exact congrArg some (Span.text_eq_of_le hmem (h span rfl))
  simp only [texts, hmap _ hreq.uri, hmap _ hreq.params, hmap _ hreq.content]
  congr 1
  refine List.map_congr_left fun header hheader => ?_
  obtain ⟨hname, hvalue⟩ := hreq.headers header hheader
  rw [Span.text_eq_of_le hmem hname, Span.text_eq_of_le hmem hvalue]

/-- A parse that reads only the bytes received has the same answer whatever stands behind them. -/
theorem parsed_eq_of_readsOnlyReceived (h : ReadsOnlyReceived data) :
    parsed data = parsed data.cutOff := by
  obtain ⟨⟨code, req⟩, hcut⟩ := Option.isSome_iff_exists.mp h
  have hprefix : data.cutOff.memory <+: data.memory := data.received_prefix_memory
  have hfull := below_httpParseRequest hprefix rfl rfl .init _ hcut
  have hwithin := (within_init _).httpParseRequest hcut
  rw [parsed, parsed, hfull, hcut, Option.map_some, Option.map_some,
    texts_eq_of_within hprefix hwithin]

/-- Buffers that agree are the same when cut off behind the bytes received. -/
theorem cutOff_eq_of_agrees (h : data.Agrees data') : data'.cutOff = data.cutOff := by
  obtain ⟨hlen, hpart, hreceived⟩ := h
  simp only [ReadBufferImpl.cutOff, hlen, hpart, hreceived]

/-- A text begins with one method at most. -/
theorem eq_of_foldPrefix {a b text : List UInt8} (ha : a ∈ requestMethods) (hb : b ∈ requestMethods)
    (hpa : FoldPrefix a text) (hpb : FoldPrefix b text) : a = b := by
  rcases List.prefix_or_prefix_of_prefix hpa hpb with h | h
  · exact prefixFree_requestMethods a ha b hb h
  · exact (prefixFree_requestMethods b hb a ha h).symm

/-- The parse reads only the bytes received exactly when nothing was received, or the window lies within the bytes
received, or these decide the parse. -/
theorem readsOnlyReceived_iff (data : ReadBufferImpl) :
    ReadsOnlyReceived data ↔
      data.dataLength = 0 ∨ data.dataPartLength ≤ data.dataLength ∨ Decides data.received := by
  by_cases hzero : data.dataLength = 0
  · have hempty : data.cutOff.empty = true := by simp [ReadBufferImpl.empty, ReadBufferImpl.cutOff, hzero]
    simp [ReadsOnlyReceived, httpParseRequest, hempty, hzero]
  have hmem : data.cutOff.memory = data.received := rfl
  have hpart : data.cutOff.dataPartLength = data.dataPartLength := rfl
  have hlen : data.cutOff.memory.length = data.dataLength := data.length_received
  have hout := parseOutcome data.cutOff .init hzero
  rw [ReadsOnlyReceived]
  by_cases hpartle : data.dataPartLength ≤ data.dataLength
  · -- The window lies within the bytes received, so no case of a fault applies.
    generalize httpParseRequest data.cutOff .init = answer at hout
    refine iff_of_true ?_ (Or.inr (Or.inl hpartle))
    cases hout with
    | methodFault _ _ hshort => rw [hlen, hpart] at hshort; omega
    | fault _ _ _ hshort => rw [hlen, hpart] at hshort; omega
    | noMethod | refused | accepted | tooLong => rfl
  · have hshort : data.cutOff.memory.length < data.cutOff.dataPartLength := by
      rw [hlen, hpart]
      omega
    have htext : (slice data.cutOff.memory 0 data.cutOff.dataPartLength).bytes = data.received := by
      rw [slice_bytes_of_le hshort.le, List.drop_zero, hmem]
    rw [htext] at hout
    generalize httpParseRequest data.cutOff .init = answer at hout
    simp only [hzero, hpartle, false_or]
    cases hout with
    | noMethod _ hpre hstop =>
        exact iff_of_true rfl ⟨hstop hshort, fun needle hn h => absurd h (hpre needle hn)⟩
    | methodFault needle hn _ hstop =>
        exact iff_of_false (by simp) fun h => h.1 needle hn hstop
    | refused _ needle hn hpre hends htab hdecided =>
        refine iff_of_true rfl ⟨fun other ho => ?_, fun other ho hother => Or.inr ⟨hdecided hshort, ?_⟩⟩
        · exact prefixFree_requestMethods.not_stopsWithin hn ho hpre
        · rwa [eq_of_foldPrefix ho hn hother hpre]
    | accepted _ needle stop hn hpre _ hblank =>
        refine iff_of_true rfl ⟨fun other ho => ?_, fun _ _ _ =>
          Or.inl (hblank.of_isPrefix (List.take_prefix stop _))⟩
        exact prefixFree_requestMethods.not_stopsWithin hn ho hpre
    | tooLong _ _ _ _ hfull => omega
    | fault needle hn hpre _ hblank hopen =>
        refine iff_of_false (by simp) fun h => ?_
        rcases h.2 needle hn hpre with hb | ⟨hdecided, htab⟩
        · exact hblank hb
        · exact hopen hdecided htab

/-- Every buffer with the same lengths and the same bytes received has the same parse, and its parse
reads no other byte, exactly when nothing was received, or the window lies within the bytes received,
or these decide the parse. -/
theorem parse_determined_iff (data : ReadBufferImpl) :
    (∀ data', data.Agrees data' → parsed data' = parsed data ∧ ReadsOnlyReceived data') ↔
      data.dataLength = 0 ∨ data.dataPartLength ≤ data.dataLength ∨ Decides data.received := by
  rw [← readsOnlyReceived_iff]
  constructor
  · intro h
    exact (h data ⟨rfl, rfl, rfl⟩).2
  · intro h data' hagrees
    have hcut := cutOff_eq_of_agrees hagrees
    have h' : ReadsOnlyReceived data' := by rwa [ReadsOnlyReceived, hcut]
    refine ⟨?_, h'⟩
    rw [parsed_eq_of_readsOnlyReceived h', parsed_eq_of_readsOnlyReceived h, hcut]

/-- A buffer of which four bytes were received, in front of what an earlier request left there. -/
def reused : ReadBufferImpl := ⟨4, 64, bytes "GET /a HTTP/1.1\r\nA: b\r\n\r\n", by decide⟩

/-- The four bytes of `reused` in fresh memory. -/
def fresh : ReadBufferImpl := ⟨4, 64, bytes "GET " ++ List.replicate 64 0, by decide⟩

/-- In `reused`, a request that stops after the method is completed by what stands behind it in the buffer. -/
theorem not_parse_determined_of_reused :
    ¬ ∀ data data' : ReadBufferImpl, data.Agrees data' → parsed data' = parsed data := by
  intro h
  exact absurd (h reused fresh ⟨rfl, rfl, by decide⟩) (by decide)

end Http

end NavekFiber
