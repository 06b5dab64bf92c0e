import NavekFiber.Net.HttpReads

/-! # Header values have no line ends

A value ends in front of the first carriage return or line feed behind the colon, wherever the search for
the end of the line has put that: whatever bytes are received, no stored value contains either
(`PlainValues.httpParseRequest`). -/

namespace NavekFiber

open Utils Proto

namespace Http

variable {mem : List UInt8} {data : ReadBufferImpl} {req req' : CRequest}

/-- No character of the text ends a line. -/
def NoLineEnd (text : List UInt8) : Prop := ∀ b ∈ text, b ≠ cr ∧ b ≠ lf

instance (text : List UInt8) : Decidable (NoLineEnd text) :=
  inferInstanceAs (Decidable (∀ b ∈ text, b ≠ cr ∧ b ≠ lf))

/-- No value of the request has a line end. -/
def PlainValues (mem : List UInt8) (req : CRequest) : Prop :=
  ∀ header ∈ req.headers, NoLineEnd (header.2.text mem)

/-- A new request is `PlainValues`, since it has no values. -/
theorem plainValues_init (mem : List UInt8) : PlainValues mem .init := by
  simp [PlainValues, CRequest.init]

/-- The text up to a character that `find_char` has found has no character of the list. -/
theorem text_found {charlist : List UInt8} {lo hi : ℕ} {found : MatchResult}
    (h : findChar (slice mem lo hi) charlist = some found) (hne : found.result ≠ 0) :
    ∀ b ∈ Span.text mem ⟨found.start, found.stop - 1⟩, b ∉ charlist := by
  obtain ⟨before, c, after, htext, hbefore, -, rfl⟩ := findChar_found h hne
  rw [slice_bytes, List.drop_take] at htext
  -- The character stands in the range, so the text in front of it is what the range begins with.
  have hlen := congrArg List.length htext
  simp only [List.length_take, List.length_drop, List.length_append, List.length_cons] at hlen
  have hspan : Span.text mem ⟨lo, lo + before.length⟩ = before := by
    have htake := congrArg (List.take before.length) htext
    rw [List.take_take, List.take_left, Nat.min_eq_left (by omega)] at htake
    rw [Span.text, List.drop_take, Nat.add_sub_cancel_left]
    exact htake
  rwa [slice_start, Nat.add_sub_cancel, hspan]

/-- A header line adds a value without line ends, if any, so that the request stays `PlainValues`. -/
theorem PlainValues.parseHeader {lineBegin : ℕ} {line : MatchResult} (hreq : PlainValues mem req)
    (h : parseHeader mem lineBegin line req = some req') : PlainValues mem req' := by
  rcases parseHeader_cases h with rfl | ⟨name, value, -, hvalue, hne, rfl⟩
  · exact hreq
  · intro header hmem
    rcases List.mem_append.mp hmem with hold | hnew
    · exact hreq header hold
    · rw [List.mem_singleton.mp hnew]
      intro b hb
      simpa [show bytes "\r\n" = [cr, lf] from rfl] using text_found hvalue hne b hb

/-- The request line adds no header. -/
theorem headers_parsePath {methodEnd : ℕ} {line : MatchResult}
    (h : parsePath mem methodEnd line req = some (some req')) : req'.headers = req.headers := by
  obtain ⟨path, -, rfl⟩ := parsePath_cases h
  rfl

/-- The loop over the lines keeps `PlainValues`: it stores no value with a line end. -/
theorem lineInvariant_plainValues (data : ReadBufferImpl) (methodEnd : ℕ) :
    LineInvariant data methodEnd (fun _ _ req => PlainValues data.memory req)
      (fun _ req => PlainValues data.memory req) where
  header := fun hreq _ _ _ hheader => hreq.parseHeader hheader
  path := fun hreq _ _ hpath => by rwa [PlainValues, headers_parsePath hpath]
  refused := id
  absent := id
  blank := fun hreq _ _ _ => hreq

/-- The parse keeps `PlainValues`, whatever it answers: it stores no value with a line end. -/
theorem PlainValues.httpParseRequest {code : ℕ} (hreq : PlainValues data.memory req)
    (h : httpParseRequest data req = some (code, req')) : PlainValues data.memory req' := by
  rw [NavekFiber.httpParseRequest] at h
  split at h
  · obtain ⟨rfl, rfl⟩ := Prod.mk.inj (Option.some.inj h)
    exact hreq
  · obtain ⟨method, -, h⟩ := Option.bind_eq_some_iff.mp h
    split at h
    · have hnew : PlainValues data.memory
          { req with method := some (RequestMethod.ofResult method.result) } := hreq
      exact (lineInvariant_plainValues data method.stop).lineLoop hnew h
    · obtain ⟨rfl, rfl⟩ := Prod.mk.inj (Option.some.inj h)
      exact hreq

end Http

end NavekFiber
