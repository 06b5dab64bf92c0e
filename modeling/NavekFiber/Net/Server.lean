import Mathlib.Data.List.Perm.Subperm
import NavekFiber.Net.HttpImpl

/-! # The listening sockets: `Server::Listen`

`Listen` waits in `poll` until some listener has a connection pending and then accepts connections. The
number that `poll` returns is counted down by both of its loops: the outer one over the listeners goes
on while it is not zero, the inner one, `while (result--)`, decrements it once for each `accept` and
once more when it ends because it is zero.

* `Listener`, `Server`: the sockets with what `poll` has found on them, and the counter of message ids.
* `Server.acceptLoop`, `Server.listenLoop`, `Server.listen`: the inner loop, the outer loop, the call.

The loops take fuel, since the inner one need not end. The callback is `Enqueue` of the worker pool; it
is taken to return. -/

namespace NavekFiber

open Proto

/-- `POLLIN`. -/
def pollin : UInt16 := 1

/-- A listening socket. `AddListener` enters it into `conFd`, and into `conHandlers`, under its
descriptor, the function that makes a handler with these limits. -/
structure Listener where
  /-- `fd`. -/
  fd : ℤ
  /-- `revents`, as `poll` has left it. -/
  revents : UInt16
  /-- The limit on requests. -/
  optQueryLimit : ℕ
  /-- The limit on heads. -/
  optHeaderLimit : ℕ
  deriving DecidableEq, Repr

/-- A listener has a connection pending. -/
def Listener.ready (listener : Listener) : Bool := decide (listener.revents &&& pollin ≠ 0)

/-- The server, with its listeners and the counter of the message ids. -/
structure Server where
  /-- The number of message ids given out. -/
  msgIndex : UInt64
  /-- `conFd`. -/
  conFd : List Listener
  deriving DecidableEq, Repr

/-- `getMsgId`: the id, and the counter afterwards. -/
def getMsgId (time counter : UInt64) : MsgId × UInt64 := (time <<< 32 ||| counter, counter + 1)

/-- What the system answers during one call of `Listen`. -/
structure Network where
  /-- What the calls of `accept` return. -/
  accept : ℕ → ℤ
  /-- The peers. -/
  address : ℕ → CAddress
  /-- What `time` returns behind each of the calls of `accept`. -/
  time : ℕ → UInt64
  /-- What the new connections meet with. -/
  connection : ℕ → Environment

/-- The state of a call of `Listen` in its loops. -/
structure Listening where
  /-- The server. -/
  server : Server
  /-- `result`, an `int`. -/
  result : ℤ
  /-- The positions in `conFd` of the listeners that `accept` has been called on, in order. -/
  accepts : List ℕ
  /-- The handlers given to the callback, in order. -/
  handled : List HttpImpl
  deriving DecidableEq, Repr

namespace Server

/-- `revents = 0`. -/
def clearRevents (server : Server) (s : ℕ) : Server :=
  { server with conFd := server.conFd.modify s fun listener => { listener with revents := 0 } }

end Server

namespace Listening

variable (net : Network) (s : ℕ) (listener : Listener) (l : Listening)

/-- What the next `accept` returns. -/
def soClient : ℤ := net.accept l.accepts.length

/-- The state after one more `accept`, on the listener at position `s`. -/
def accepted : Listening := { l with result := l.result - 1, accepts := l.accepts ++ [s] }

/-- The state after the callback has got a handler for the connection that the last `accept` has returned. -/
def handle (so_client : ℤ) : Listening :=
  let call := l.accepts.length - 1
  let (mid, msgIndex) := getMsgId (net.time call) l.server.msgIndex
  { l with
    server := { l.server with msgIndex }
    handled := l.handled ++ [HttpImpl.new (net.connection call) so_client.toNat mid (net.address call)
      listener.optQueryLimit listener.optHeaderLimit] }

@[simp] theorem handle_result (so_client : ℤ) : (l.handle net listener so_client).result = l.result := rfl

@[simp] theorem handle_accepts (so_client : ℤ) :
    (l.handle net listener so_client).accepts = l.accepts := rfl

@[simp] theorem accepted_result : (l.accepted s).result = l.result - 1 := rfl

@[simp] theorem accepted_accepts : (l.accepted s).accepts = l.accepts ++ [s] := rfl

end Listening

namespace Server

/-- The inner loop of `Listen`, `while (result--)`, on the listener at position `s`. -/
def acceptLoop (net : Network) (s : ℕ) (listener : Listener) : ℕ → Listening → Option Listening
  | 0, _ => none
  | fuel + 1, l =>
      -- `result--` is evaluated where the loop ends, too.
      if l.result = 0 then some { l with result := -1 }
      else
        let so_client := l.soClient net
        let l := l.accepted s
        -- `continue` after the callback, else `break`.
        if 0 < so_client then acceptLoop net s listener fuel (l.handle net listener so_client)
        else some l

/-- The outer loop of `Listen`, from the listener at position `s` on. -/
def listenLoop (net : Network) (fuel : ℕ) : ℕ → List Listener → Listening → Option Listening
  | _, [], l => some l
  | s, listener :: rest, l =>
      if l.result = 0 then some l
      else if listener.ready then
        (acceptLoop net s listener fuel { l with server := l.server.clearRevents s }).bind fun l =>
          listenLoop net fuel (s + 1) rest l
      else listenLoop net fuel (s + 1) rest l

/-- `Listen`, from the return of `poll` on: `result` is what it returns, `eintr` says whether `errno` is
`EINTR`, and the server has the `revents` that it leaves. The value returned, and the state then. -/
def listen (server : Server) (result : ℤ) (eintr : Bool) (net : Network) (fuel : ℕ) :
    Option (Bool × Listening) :=
  if result = -1 then some (eintr, ⟨server, result, [], []⟩)
  else if result = 0 then some (true, ⟨server, result, [], []⟩)
  else (listenLoop net fuel 0 server.conFd ⟨server, result, [], []⟩).map fun l => (true, l)

end Server

end NavekFiber
