import NavekFiber.Net.ReadBuffer
import NavekFiber.Utils.FindMatch

/-! # Parsing a request: `http_parse_request`

The window for the head is cut into lines; the first names the request path, the others are headers,
and an empty line ends the head. The functions return `none` when they read outside the mapped memory
of the buffer. -/

namespace NavekFiber

open Utils

namespace Proto

/-- `RequestMethod`: the methods of a request, in the order of the enumeration. -/
inductive RequestMethod
  | unsupported
  | get
  | post
  | put
  | head
  | options
  | delete
  | trace
  | connect
  | patch
  deriving DecidableEq, Repr

/-- `RequestMethods`: what a request of each method begins with. -/
def requestMethods : List (List UInt8) :=
  [bytes "GET ", bytes "POST ", bytes "PUT ", bytes "HEAD ", bytes "OPTIONS ", bytes "DELETE ",
    bytes "TRACE ", bytes "CONNECT ", bytes "PATCH "]

/-- `(RequestMethod)result`, the enumeration in the order of `RequestMethods` from 1. -/
def RequestMethod.ofResult : ℕ → RequestMethod
  | 1 => .get
  | 2 => .post
  | 3 => .put
  | 4 => .head
  | 5 => .options
  | 6 => .delete
  | 7 => .trace
  | 8 => .connect
  | 9 => .patch
  | _ => .unsupported

end Proto

open Proto

/-- `HttpLineEndians`: the ends of a head and of a line. -/
def httpLineEndians : List (List UInt8) :=
  [bytes "\r\n\r\n", bytes "\n\n", bytes "\n", bytes "\r\n"]

/-- What `http_parse_request` fills in. A string is `none` while it is null, the method while it is unset. -/
structure CRequest where
  /-- `Method`. -/
  method : Option RequestMethod
  /-- `Uri`. -/
  uri : Option Span
  /-- `Content`. -/
  content : Option Span
  /-- `Params`. -/
  params : Option Span
  /-- `Headers`: names and values. -/
  headers : List (Span × Span)
  deriving DecidableEq, Repr

/-- The request of a new `HttpImpl`. -/
def CRequest.init : CRequest := ⟨none, none, none, none, []⟩

/-- What the loop does with a header line: it stores a header when the line has a name and a value. -/
def parseHeader (mem : List UInt8) (lineBegin : ℕ) (line : MatchResult) (req : CRequest) :
    Option CRequest := do
  let name ← findChar (slice mem lineBegin line.stop) (bytes ": \n")
  if name.result = 1 then
    let value ← findChar (slice mem name.stop line.stop) (bytes "\r\n")
    if value.result ≠ 0 then
      return { req with
        headers := req.headers ++
          [(⟨name.start, name.stop - 1⟩, ⟨value.start, value.stop - 1⟩)] }
  return req

/-- What the loop does with the first line: it stores the path and, if there is one, the query. The outer `none` is a
fault, the inner one a line without a path. -/
def parsePath (mem : List UInt8) (methodEnd : ℕ) (line : MatchResult) (req : CRequest) :
    Option (Option CRequest) := do
  let path ← findChar (slice mem methodEnd line.stop) (bytes " \t\n\r")
  if path.result ≠ 0 then
    let params ← findChar (slice mem path.stop path.stop) (bytes "?")
    if params.result ≠ 0 then
      return some { req with
        params := some ⟨params.start + 1, path.stop - 1⟩
        uri := some ⟨path.start, params.stop - 1⟩ }
    return some { req with uri := some ⟨path.start, path.stop - 1⟩ }
  return none

/-- The loop over the lines of the window, from `lineBegin` on. Each turn consumes a line, so as many
turns as the window has bytes are enough. -/
def lineLoop (data : ReadBufferImpl) (methodEnd : ℕ) : ℕ → ℕ → ℕ → CRequest → Option (ℕ × CRequest)
  | 0, _, _, _ => none
  | turns + 1, lineBegin, lineNo, req => do
      let line ← findValues (slice data.memory lineBegin data.head.stop) httpLineEndians
      if line.result = 0 then
        return (431, req)
      else if 2 < line.result then
        if lineNo ≠ 0 then
          let req ← parseHeader data.memory lineBegin line req
          lineLoop data methodEnd turns line.stop (lineNo + 1) req
        else
          match ← parsePath data.memory methodEnd line req with
          | none => return (400, req)
          | some req => lineLoop data methodEnd turns line.stop (lineNo + 1) req
      else
        return (0, { req with content := some (data.content line.stop) })

/-- `http_parse_request`: the HTTP code of the failure, or zero, and the request. -/
def httpParseRequest (data : ReadBufferImpl) (req : CRequest) : Option (ℕ × CRequest) :=
  if data.empty then some (400, req)
  else do
    let method ← matchValues (slice data.memory data.head.start data.head.stop) requestMethods
    if method.result ≠ 0 then
      lineLoop data method.stop (data.dataPartLength + 1) data.head.start 0
        { req with method := some (RequestMethod.ofResult method.result) }
    else return (405, req)

/-! ### What the loop keeps -/

/-- An invariant of the loop over the lines, at an offset and the number of the line there, and what the
answers get from it. -/
structure LineInvariant (data : ReadBufferImpl) (methodEnd : ℕ) (inv : ℕ → ℕ → CRequest → Prop)
    (answer : ℕ → CRequest → Prop) : Prop where
  /-- Storing a header keeps the invariant. -/
  header : ∀ {lineBegin lineNo : ℕ} {line : MatchResult} {req req' : CRequest}, inv lineBegin lineNo req →
    lineNo ≠ 0 → findValues (slice data.memory lineBegin data.head.stop) httpLineEndians = some line →
    2 < line.result → parseHeader data.memory lineBegin line req = some req' →
    inv line.stop (lineNo + 1) req'
  /-- Reading the path keeps the invariant. -/
  path : ∀ {lineBegin : ℕ} {line : MatchResult} {req req' : CRequest}, inv lineBegin 0 req →
    findValues (slice data.memory lineBegin data.head.stop) httpLineEndians = some line →
    2 < line.result → parsePath data.memory methodEnd line req = some (some req') → inv line.stop 1 req'
  /-- The first line has no path. -/
  refused : ∀ {lineBegin : ℕ} {req : CRequest}, inv lineBegin 0 req → answer 400 req
  /-- There is no further line. -/
  absent : ∀ {lineBegin lineNo : ℕ} {req : CRequest}, inv lineBegin lineNo req → answer 431 req
  /-- An empty line ends the head. -/
  blank : ∀ {lineBegin lineNo : ℕ} {line : MatchResult} {req : CRequest}, inv lineBegin lineNo req →
    findValues (slice data.memory lineBegin data.head.stop) httpLineEndians = some line →
    line.result ≠ 0 → ¬ 2 < line.result →
    answer 0 { req with content := some (data.content line.stop) }

/-- Whatever `lineLoop` answers has what a `LineInvariant` gives to the answers. -/
theorem LineInvariant.lineLoop {data : ReadBufferImpl} {methodEnd turns lineBegin lineNo code : ℕ}
    {inv : ℕ → ℕ → CRequest → Prop} {answer : ℕ → CRequest → Prop} {req req' : CRequest}
    (hinv : LineInvariant data methodEnd inv answer) (h : inv lineBegin lineNo req)
    (hloop : lineLoop data methodEnd turns lineBegin lineNo req = some (code, req')) :
    answer code req' := by
  induction turns generalizing lineBegin lineNo req with
  | zero => exact absurd hloop (by simp [NavekFiber.lineLoop])
  | succ turns ih =>
      obtain ⟨line, hline, hloop⟩ := Option.bind_eq_some_iff.mp hloop
      split at hloop
      · obtain ⟨rfl, rfl⟩ := Prod.mk.inj (Option.some.inj hloop)
        exact hinv.absent h
      · rename_i hne
        split at hloop
        · rename_i hresult
          split at hloop
          · rename_i hno
            obtain ⟨req₁, hheader, hloop⟩ := Option.bind_eq_some_iff.mp hloop
            exact ih (hinv.header h hno hline hresult hheader) hloop
          · rename_i hno
            obtain rfl := not_ne_iff.mp hno
            obtain ⟨found, hpath, hloop⟩ := Option.bind_eq_some_iff.mp hloop
            cases found with
            | none =>
                obtain ⟨rfl, rfl⟩ := Prod.mk.inj (Option.some.inj hloop)
                exact hinv.refused h
            | some req₁ => exact ih (hinv.path h hline hresult hpath) hloop
        · rename_i hresult
          obtain ⟨rfl, rfl⟩ := Prod.mk.inj (Option.some.inj hloop)
          exact hinv.blank h hline hne hresult

end NavekFiber
