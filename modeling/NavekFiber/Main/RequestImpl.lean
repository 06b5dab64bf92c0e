import NavekFiber.Net.HttpImpl
import NavekFiber.Utils.HeaderNames

/-! # The request object `RequestImpl`

The request object owns the handler of a connection. It copies the parsed headers into a table the first
time an option is asked for; a header that comes again does not replace the first one.

* `RequestImpl.getHeaderOption`: the member function, with the object it leaves behind.
* `RequestImpl.getHeaderOption_eq_headerOption`: every call returns the value of the first header with the
  name. -/

namespace NavekFiber

open Utils Proto

/-- A request object. -/
structure RequestImpl where
  /-- `Request`, the handler of the connection. -/
  request : HttpImpl
  /-- `Headers`. -/
  headers : HashTable (List UInt8) (List UInt8)

namespace RequestImpl

/-- The text of a C string. -/
def cString (text : List UInt8) : List UInt8 := text.take (strlen text)

/-- The parsed headers of a handler: `GetHeaders`, as texts. -/
def getHeaders (request : HttpImpl) : List (List UInt8 × List UInt8) :=
  request.request.headers.map fun header => (header.1.text request.memory, header.2.text request.memory)

/-- A request object of which no option has been asked. -/
def new (request : HttpImpl) : RequestImpl := ⟨request, []⟩

/-- A request object after its table of options has been filled. -/
def filled (self : RequestImpl) : RequestImpl :=
  if self.headers.isEmpty then
    { self with headers := .ofList zcstringHashing (getHeaders self.request) }
  else self

/-- `GetHeaderOption`; the default may be null. -/
def getHeaderOption (self : RequestImpl) (option : List UInt8) (defvalue : Option (List UInt8)) :
    List UInt8 × RequestImpl :=
  let self := self.filled
  match self.headers.find zcstringHashing (cString option) with
  | some entry => (entry.2, self)
  | none => ((defvalue.map cString).getD [], self)

/-- A request object after some calls of `GetHeaderOption`. -/
def afterCalls (self : RequestImpl) (calls : List (List UInt8 × Option (List UInt8))) : RequestImpl :=
  calls.foldl (fun self call => (self.getHeaderOption call.1 call.2).2) self

/-- `Reply`: the handler's own, which throws when it cannot send. -/
def reply (env : Environment) (self : RequestImpl) (call : ReplyCall) : Except Exn Bool × RequestImpl :=
  match self.request.reply env call with
  | (none, request) => (.ok true, { self with request })
  | (some exn, request) => (.error exn, { self with request })

/-- What a request says about an option: the value of the first header with its name, up to the case of
letters, and the default when there is none. -/
def headerOption (headers : List (List UInt8 × List UInt8)) (option : List UInt8)
    (defvalue : Option (List UInt8)) : List UInt8 :=
  match headers.find? fun header => decide (EqualFold (cString option) header.1) with
  | some header => header.2
  | none => (defvalue.map cString).getD []

variable {self : RequestImpl} {request : HttpImpl}

/-- The table of a request object has not been filled, or it has been filled from the headers of the request. -/
def Cached (self : RequestImpl) : Prop :=
  self.headers = [] ∨ self.headers = .ofList zcstringHashing (getHeaders self.request)

/-- A new request object is `Cached`, since its table is empty. -/
theorem cached_new (request : HttpImpl) : Cached (.new request) := Or.inl rfl

/-- Filling a `Cached` object fills its table from the headers, also when it seems never to have been filled because
there is no header. -/
theorem Cached.filled (h : Cached self) :
    self.filled = ⟨self.request, .ofList zcstringHashing (getHeaders self.request)⟩ := by
  obtain ⟨request, table⟩ := self
  rw [RequestImpl.filled]
  split
  · rfl
  · rename_i hne
    rcases h with hnil | hfilled
    · exact absurd (by simp [show table = [] from hnil]) hne
    · rw [show table = _ from hfilled]

/-- `GetHeaderOption` leaves the `filled` object behind. -/
theorem snd_getHeaderOption (self : RequestImpl) (option : List UInt8) (defvalue : Option (List UInt8)) :
    (self.getHeaderOption option defvalue).2 = self.filled := by
  rw [getHeaderOption]
  split <;> rfl

/-- `GetHeaderOption` does not touch the handler. -/
@[simp] theorem request_getHeaderOption (self : RequestImpl) (option : List UInt8)
    (defvalue : Option (List UInt8)) : (self.getHeaderOption option defvalue).2.request = self.request := by
  rw [snd_getHeaderOption, RequestImpl.filled]
  split <;> rfl

/-- `GetHeaderOption` leaves a `Cached` object `Cached`. -/
theorem Cached.getHeaderOption (h : Cached self) (option : List UInt8) (defvalue : Option (List UInt8)) :
    Cached (self.getHeaderOption option defvalue).2 := by
  rw [snd_getHeaderOption, h.filled]
  exact Or.inr rfl

/-- Any number of calls of `GetHeaderOption` leave a `Cached` object `Cached` and its handler as it was. -/
theorem Cached.afterCalls (h : Cached self) (calls : List (List UInt8 × Option (List UInt8))) :
    Cached (self.afterCalls calls) ∧ (self.afterCalls calls).request = self.request := by
  induction calls generalizing self with
  | nil => exact ⟨h, rfl⟩
  | cons call calls ih =>
      obtain ⟨hcached, hrequest⟩ := ih (h.getHeaderOption call.1 call.2)
      exact ⟨hcached, hrequest.trans (request_getHeaderOption self call.1 call.2)⟩

/-- On a `Cached` object `GetHeaderOption` returns what the headers of the request say: their `headerOption`. -/
theorem Cached.fst_getHeaderOption (h : Cached self) (option : List UInt8)
    (defvalue : Option (List UInt8)) :
    (self.getHeaderOption option defvalue).1 = headerOption (getHeaders self.request) option defvalue := by
  have hequal : (fun header : List UInt8 × List UInt8 => zcstringHashing.equal (cString option) header.1)
      = fun header => decide (EqualFold (cString option) header.1) :=
    funext fun header => by
      rw [Bool.eq_iff_iff, decide_eq_true_eq]
      exact zcstringIequal_iff
  rw [RequestImpl.getHeaderOption, h.filled, headerOption, HashTable.find_ofList zcstringHashing_lawful,
    hequal]
  cases (getHeaders self.request).find? fun header => decide (EqualFold (cString option) header.1) <;> rfl

/-- Every call of `GetHeaderOption`, the first one and every later one, returns the value of the first
parsed header whose name is the option's up to the case of letters, and the default when there is none; the
equality of names is an equivalence, and equal names have one hash. -/
theorem getHeaderOption_eq_headerOption :
    (∀ (request : HttpImpl) (calls : List (List UInt8 × Option (List UInt8))) (option : List UInt8)
        (defvalue : Option (List UInt8)),
      (((RequestImpl.new request).afterCalls calls).getHeaderOption option defvalue).1 =
        headerOption (getHeaders request) option defvalue) ∧
      (Equivalence fun a b => zcstringIequal a b = true) ∧
      ∀ a b, zcstringIequal a b = true → zcstringIfasthash a = zcstringIfasthash b := by
  refine ⟨fun request calls option defvalue => ?_, zcstringHashing_lawful.equivalence,
    zcstringHashing_lawful.hash_eq⟩
  obtain ⟨hcached, hrequest⟩ := (cached_new request).afterCalls calls
  rw [hcached.fst_getHeaderOption, hrequest]
  rfl

/-! ### Replies -/

/-- `RequestImpl::Reply` does to its handler what the `Reply` of the handler does. -/
@[simp] theorem request_reply (env : Environment) (self : RequestImpl) (call : ReplyCall) :
    (self.reply env call).2.request = (self.request.reply env call).2 := by
  rw [RequestImpl.reply]
  generalize self.request.reply env call = replied
  obtain ⟨thrown, request⟩ := replied
  cases thrown <;> rfl

/-- `RequestImpl::Reply` returns `true`, or it throws a `RuntimeException`; it returns exactly when the
answer is sent completely. -/
theorem fst_reply_cases (env : Environment) (self : RequestImpl) (call : ReplyCall) :
    ((self.reply env call).1 = .ok true ∧ HttpImpl.Delivers env self.request call) ∨
      (∃ what, (self.reply env call).1 = .error (.runtimeException what)) ∧
        ¬ HttpImpl.Delivers env self.request call := by
  have hfst := HttpImpl.fst_reply env self.request call
  rw [RequestImpl.reply]
  generalize self.request.reply env call = replied at hfst
  obtain ⟨thrown, request⟩ := replied
  by_cases h : HttpImpl.Delivers env self.request call
  · rw [if_pos h] at hfst
    obtain rfl : thrown = none := hfst
    exact Or.inl ⟨rfl, h⟩
  · rw [if_neg h] at hfst
    obtain rfl : thrown = _ := hfst
    exact Or.inr ⟨⟨_, rfl⟩, h⟩

end RequestImpl

end NavekFiber
