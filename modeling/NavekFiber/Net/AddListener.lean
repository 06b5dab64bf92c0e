import NavekFiber.Net.Server
import NavekFiber.Utils.FindMatch
import NavekFiber.Utils.Options

/-! # Opening a listening socket: `Socket::Open` and `Server::AddListener`

`AddListener` takes its `listen` option apart at the colon and opens a socket for it. `Socket::Open` reads the
port by `std::stoi`, which throws for a text without a number; since `Open` is `noexcept`, that ends the
process. What the system answers to the calls on sockets is a parameter.

* `Socket.open`, `Server.addListener`: the functions, with what stops them.
* `Server.addListener_eq_ok_iff`: when `AddListener` returns with a listener or an error. -/

namespace NavekFiber

open Utils

/-- What stops the program while it starts. -/
inductive Stop
  /-- An element of a vector is used that is not there. -/
  | outOfRange
  /-- An exception leaves a `noexcept` function. -/
  | terminate
  /-- An exception that nobody handles on the way to `Kernel::Run`. -/
  | thrown (exn : Exn)
  deriving DecidableEq, Repr

/-- What a call that fails leaves in `errno`. -/
abbrev Errno := { err : ℤ // 0 < err }

/-- `EPROTONOSUPPORT`. -/
def eprotonosupport : ℤ := 93

/-- What the system answers while a socket is opened; `none` for calls that succeed. -/
structure SocketCalls where
  /-- The result of `socket`. -/
  socket : ℤ
  /-- `errno` behind that call. -/
  errno : ℤ
  /-- A call that fails sets it. -/
  errno_pos : socket < 0 → 0 < errno
  /-- `setsockopt` for `SO_REUSEADDR`. -/
  reuseaddr : Option Errno
  /-- `setsockopt` for `SO_BINDTODEVICE`, with the device. -/
  bindtodevice : List UInt8 → Option Errno
  /-- `bind`, with the port. -/
  bind : UInt16 → Option Errno
  /-- `listen`, with the length of the queue. -/
  listen : ℤ → Option Errno

/-- `Socket::Open`: its result and the socket. -/
def Socket.open (calls : SocketCalls) (device port maxcon : List UInt8) : Except Stop (ℤ × ℤ) :=
  if calls.socket ≤ 0 then .ok (calls.errno, calls.socket)
  else
    match calls.reuseaddr with
    | some err => .ok (err, calls.socket)
    | none =>
        match (if device ≠ [] then calls.bindtodevice device else none) with
        | some err => .ok (err, calls.socket)
        | none =>
            match stoi port with
            | .error _ => .error .terminate
            | .ok sin_port =>
                match calls.bind (UInt16.ofInt sin_port) with
                | some err => .ok (err, calls.socket)
                | none =>
                    match stoi maxcon with
                    | .error _ => .error .terminate
                    | .ok backlog =>
                        match calls.listen backlog with
                        | some err => .ok (err, calls.socket)
                        | none => .ok (0, calls.socket)

/-- A computation of the startup that throws is stopped by its exception. -/
def Stop.ofThrow {α : Type} (result : Except Exn α) : Except Stop α := result.mapError .thrown

/-- `Server::AddListener`: its result, and the server with the listener. -/
def Server.addListener (server : Server) (calls : SocketCalls)
    (proto listen query_limit header_limit : List UInt8) : Except Stop (ℤ × Server) :=
  match matchValues (slice proto 0 proto.length) [bytes "http"] with
  | none => .error .outOfRange
  | some r =>
      if r.result ≠ 0 then
        let bind_params := explode .colon listen 2
        if r.result = 1 then
          match bind_params[0]?, bind_params[1]? with
          | some device, some port => do
              let (err, so_server) ← Socket.open calls device port (bytes "400")
              if err = 0 then
                let optQueryLimit ← Stop.ofThrow (getBytes query_limit 1048576)
                let optHeaderLimit ← Stop.ofThrow (getBytes header_limit 8192)
                return (0, { server with
                  conFd := server.conFd ++ [⟨so_server, 0, optQueryLimit.toNat, optHeaderLimit.toNat⟩] })
              else return (err, server)
          | _, _ => .error .outOfRange
        else return (eprotonosupport, server)
      else return (eprotonosupport, server)

/-! ### Opening a socket -/

namespace SocketCalls

variable (calls : SocketCalls) (device port : List UInt8)

/-- The calls of `Socket::Open` in front of the one that needs the port succeed. -/
def ReachesPort : Prop :=
  0 < calls.socket ∧ calls.reuseaddr = none ∧ (device = [] ∨ calls.bindtodevice device = none)

/-- All calls of `Socket::Open` succeed, for a port that is a number. -/
def Opens : Prop :=
  calls.ReachesPort device ∧
    ∃ sin_port, stoi port = .ok sin_port ∧ calls.bind (UInt16.ofInt sin_port) = none ∧ calls.listen 400 = none

/-- The port is a number where it is needed, and `socket` does not return zero with no error in `errno`. -/
def OpensOrFails : Prop :=
  (calls.ReachesPort device → ∃ sin_port, stoi port = .ok sin_port) ∧ ¬ (calls.socket = 0 ∧ calls.errno = 0)

end SocketCalls

variable {calls : SocketCalls} {device port proto listen query_limit header_limit : List UInt8}
  {server server' : Server} {err so_server : ℤ}

/-- When the calls that do not need the port succeed, `Open` goes on to the port, `bind` and `listen`. -/
theorem open_of_reachesPort (hreach : calls.ReachesPort device) :
    Socket.open calls device port (bytes "400") =
      match stoi port with
      | .error _ => .error .terminate
      | .ok sin_port =>
          match calls.bind (UInt16.ofInt sin_port) with
          | some err => .ok (err, calls.socket)
          | none =>
              match calls.listen 400 with
              | some err => .ok (err, calls.socket)
              | none => .ok (0, calls.socket) := by
  obtain ⟨hsocket, hreuse, hdevice⟩ := hreach
  have hbind : (if device ≠ [] then calls.bindtodevice device else none) = none := by
    rcases hdevice with rfl | hdevice
    · rfl
    · rw [hdevice, ite_self]
  have hmaxcon : stoi (bytes "400") = .ok 400 := by decide +kernel
  rw [Socket.open, if_neg (not_le.mpr hsocket), hreuse]
  simp only [hbind, hmaxcon]

/-- When one of the calls that do not need the port fails, `Open` returns its error, or zero with the socket zero. -/
theorem open_of_not_reachesPort (port : List UInt8) (hreach : ¬ calls.ReachesPort device) :
    ∃ err, Socket.open calls device port (bytes "400") = .ok (err, calls.socket) ∧
      (err = 0 ↔ calls.socket = 0 ∧ calls.errno = 0) := by
  have hne : ∀ err : Errno, err.val = 0 ↔ False := fun err => iff_of_false err.property.ne' id
  rw [Socket.open]
  by_cases hsocket : calls.socket ≤ 0
  · refine ⟨calls.errno, if_pos hsocket, fun herr => ⟨?_, herr⟩, And.right⟩
    by_contra hzero
    exact absurd herr (calls.errno_pos (lt_of_le_of_ne hsocket hzero)).ne'
  · have hnot : ¬ (calls.socket = 0 ∧ calls.errno = 0) := fun h => hsocket h.1.le
    rw [if_neg hsocket]
    cases hreuse : calls.reuseaddr with
    | some err => exact ⟨err, rfl, (hne err).trans (iff_of_false id hnot)⟩
    | none =>
        have hdevice : device ≠ [] := fun hnil => hreach ⟨not_le.mp hsocket, hreuse, Or.inl hnil⟩
        simp only [if_pos hdevice]
        cases hbind : calls.bindtodevice device with
        | some err => exact ⟨err, rfl, (hne err).trans (iff_of_false id hnot)⟩
        | none => exact absurd ⟨not_le.mp hsocket, hreuse, Or.inr hbind⟩ hreach

/-- `Open` ends with a socket that listens, with an error, with the process, or, for a socket whose number is zero,
without an error and without a listening socket. -/
theorem open_cases (calls : SocketCalls) (device port : List UInt8) :
    (calls.Opens device port ∧ Socket.open calls device port (bytes "400") = .ok (0, calls.socket)) ∨
      (¬ calls.Opens device port ∧ calls.OpensOrFails device port ∧
        ∃ err, err ≠ 0 ∧ Socket.open calls device port (bytes "400") = .ok (err, calls.socket)) ∨
      (¬ calls.OpensOrFails device port ∧ Socket.open calls device port (bytes "400") = .error .terminate) ∨
      (¬ calls.OpensOrFails device port ∧ calls.socket = 0 ∧
        Socket.open calls device port (bytes "400") = .ok (0, calls.socket)) := by
  by_cases hreach : calls.ReachesPort device
  · have hsocket : ¬ (calls.socket = 0 ∧ calls.errno = 0) := fun h => hreach.1.ne' h.1
    rw [open_of_reachesPort hreach]
    cases hport : stoi port with
    | error exn =>
        refine Or.inr (Or.inr (Or.inl ⟨fun h => ?_, rfl⟩))
        obtain ⟨sin_port, hsin⟩ := h.1 hreach
        rw [hport] at hsin
        cases hsin
    | ok sin_port =>
        have hopens : calls.OpensOrFails device port := ⟨fun _ => ⟨sin_port, hport⟩, hsocket⟩
        cases hbind : calls.bind (UInt16.ofInt sin_port) with
        | some err =>
            refine Or.inr (Or.inl ⟨?_, hopens, err, err.property.ne', by simp only [hbind]⟩)
            rintro ⟨-, sin_port', hsin, hnone, -⟩
            obtain rfl := Except.ok.inj (hport.symm.trans hsin)
            rw [hbind] at hnone
            cases hnone
        | none =>
            cases hlisten : calls.listen 400 with
            | some err =>
                refine Or.inr (Or.inl ⟨?_, hopens, err, err.property.ne', by simp only [hbind]⟩)
                rintro ⟨-, -, -, -, hnone⟩
                rw [hlisten] at hnone
                cases hnone
            | none => exact Or.inl ⟨⟨hreach, sin_port, hport, hbind, hlisten⟩, by simp only [hbind]⟩
  · obtain ⟨err, hopen, herr⟩ := open_of_not_reachesPort port hreach
    refine Or.inr ?_
    by_cases hzero : calls.socket = 0 ∧ calls.errno = 0
    · exact Or.inr (Or.inr ⟨fun h => h.2 hzero, hzero.1, by rw [hopen, herr.mpr hzero]⟩)
    · exact Or.inl ⟨fun h => hreach h.1, ⟨fun h => absurd h hreach, hzero⟩, err, fun h => hzero (herr.mp h), hopen⟩

/-! ### Adding a listener -/

/-- What a listener section comes to. -/
inductive Yield
  /-- A listener. -/
  | listener (l : Listener)
  /-- An error code. -/
  | code (err : ℤ)
  deriving DecidableEq, Repr

namespace Yield

/-- A section has come to a listener whose socket is not zero, or to a code that says that there is an error. -/
def Good : Yield → Prop
  | .listener l => 0 < l.fd
  | .code err => err ≠ 0

/-- The listener that a section comes to, if it is one. -/
def listener? : Yield → Option Listener
  | .listener l => some l
  | .code _ => none

/-- What `AddListener` returns for a section. -/
def result : Yield → ℤ
  | .listener _ => 0
  | .code err => err

/-- The server behind the call of `AddListener` for a section. -/
def addTo (y : Yield) (server : Server) : Server := { server with conFd := server.conFd ++ y.listener?.toList }

end Yield

/-- Both sizes of a section can be read. -/
def LimitsFit (query_limit header_limit : List UInt8) : Prop :=
  (∃ size, getBytes query_limit 1048576 = .ok size) ∧ ∃ size, getBytes header_limit 8192 = .ok size

/-- A section of the protocol can be opened, or fails with an error, and has sizes that can be read when it is
opened. -/
def Usable (calls : SocketCalls) (proto device port query_limit header_limit : List UInt8) : Prop :=
  FoldPrefix (bytes "http") proto →
    calls.OpensOrFails device port ∧ (calls.Opens device port → LimitsFit query_limit header_limit)

/-- `AddListener` knows the protocols that begin with `http`, up to the case of letters. -/
theorem matchValues_http (proto : List UInt8) :
    ∃ r, matchValues (slice proto 0 proto.length) [bytes "http"] = some r ∧
      r.result = if FoldPrefix (bytes "http") proto then 1 else 0 := by
  have hbytes : (slice proto 0 proto.length).bytes = proto := by simp [slice]
  have hcut : (slice proto 0 proto.length).cut = false := by simp [slice]
  rw [matchValues, matchFrom, compareNeedle_eq, hbytes, hcut]
  by_cases hhttp : FoldPrefix (bytes "http") proto
  · rw [if_pos hhttp, if_pos hhttp]
    exact ⟨_, rfl, rfl⟩
  · rw [if_neg hhttp, if_neg hhttp]
    split
    · rename_i h
      split at h <;> cases h
    · rename_i h
      split at h <;> cases h
    · exact ⟨_, rfl, rfl⟩
    · exact ⟨_, rfl, rfl⟩

/-- For a `listen` option with a colon, `AddListener` opens a socket when the protocol begins with `http`, and reads
the sizes when it is open. -/
theorem addListener_eq (hlisten : explode .colon listen 2 = [device, port]) :
    server.addListener calls proto listen query_limit header_limit =
      if FoldPrefix (bytes "http") proto then do
        let (err, so_server) ← Socket.open calls device port (bytes "400")
        if err = 0 then
          let optQueryLimit ← Stop.ofThrow (getBytes query_limit 1048576)
          let optHeaderLimit ← Stop.ofThrow (getBytes header_limit 8192)
          return (0, { server with
            conFd := server.conFd ++ [⟨so_server, 0, optQueryLimit.toNat, optHeaderLimit.toNat⟩] })
        else return (err, server)
      else .ok (eprotonosupport, server) := by
  obtain ⟨r, hmatch, hr⟩ := matchValues_http proto
  rw [Server.addListener, hmatch]
  by_cases hhttp : FoldPrefix (bytes "http") proto
  · simp [hr, hlisten, hhttp]
  · simp only [hr, hhttp, if_false, ne_eq, not_true]
    rfl

/-- For a section that is `Usable`, `AddListener` returns with a listener or an error, whatever the server has. -/
theorem exists_addListener (hlisten : explode .colon listen 2 = [device, port])
    (husable : Usable calls proto device port query_limit header_limit) :
    ∃ y : Yield, y.Good ∧ ∀ server : Server,
      server.addListener calls proto listen query_limit header_limit = .ok (y.result, y.addTo server) := by
  by_cases hhttp : FoldPrefix (bytes "http") proto
  · obtain ⟨hopens, hlimits⟩ := husable hhttp
    rcases open_cases calls device port with ⟨hopen, heq⟩ | ⟨-, -, err, herr, heq⟩ | ⟨hnot, -⟩ | ⟨hnot, -⟩
    · obtain ⟨⟨query, hquery⟩, ⟨header, hheader⟩⟩ := hlimits hopen
      refine ⟨.listener ⟨calls.socket, 0, query.toNat, header.toNat⟩, hopen.1.1, fun server => ?_⟩
      rw [addListener_eq hlisten, if_pos hhttp, heq, hquery, hheader]
      rfl
    · refine ⟨.code err, herr, fun server => ?_⟩
      rw [addListener_eq hlisten, if_pos hhttp, heq]
      show (if err = 0 then _ else _) = _
      rw [if_neg herr]
      simp [Yield.result, Yield.addTo, Yield.listener?]
      rfl
    · exact absurd hopens hnot
    · exact absurd hopens hnot
  · refine ⟨.code eprotonosupport, (by decide : eprotonosupport ≠ 0), fun server => ?_⟩
    rw [addListener_eq hlisten, if_neg hhttp]
    simp [Yield.result, Yield.addTo, Yield.listener?]

/-- Two computations succeed one after the other exactly when the first has a result with which the second
succeeds. -/
theorem bind_eq_ok_iff {ε α β : Type} {x : Except ε α} {f : α → Except ε β} {b : β} :
    (x >>= f) = .ok b ↔ ∃ a, x = .ok a ∧ f a = .ok b := by
  cases x <;> simp [bind, Except.bind]

theorem Stop.ofThrow_eq_ok_iff {α : Type} {result : Except Exn α} {a : α} :
    Stop.ofThrow result = .ok a ↔ result = .ok a := by
  cases result <;> simp [Stop.ofThrow, Except.mapError]

/-- When `AddListener` returns, the server is as it was, or it has a listener for the socket that `Open` reports
without an error, with sizes that can be read. -/
theorem addListener_cases (hlisten : explode .colon listen 2 = [device, port])
    (hadd : server.addListener calls proto listen query_limit header_limit = .ok (err, server')) :
    (server' = server ∧ ¬ (FoldPrefix (bytes "http") proto ∧
        ∃ so_server, Socket.open calls device port (bytes "400") = .ok (0, so_server))) ∨
      ∃ l : Listener, server' = { server with conFd := server.conFd ++ [l] } ∧
        Socket.open calls device port (bytes "400") = .ok (0, l.fd) ∧ LimitsFit query_limit header_limit := by
  rw [addListener_eq hlisten] at hadd
  split at hadd
  · obtain ⟨⟨code, so_server⟩, hopen, hadd⟩ := bind_eq_ok_iff.mp hadd
    change (if code = 0 then _ else _) = _ at hadd
    split at hadd
    · rename_i hcode
      subst hcode
      obtain ⟨query, hquery, hadd⟩ := bind_eq_ok_iff.mp hadd
      obtain ⟨header, hheader, hadd⟩ := bind_eq_ok_iff.mp hadd
      obtain ⟨-, rfl⟩ := Prod.mk.inj (Except.ok.inj hadd)
      exact Or.inr ⟨_, rfl, hopen, ⟨query, Stop.ofThrow_eq_ok_iff.mp hquery⟩,
        ⟨header, Stop.ofThrow_eq_ok_iff.mp hheader⟩⟩
    · rename_i hcode
      obtain ⟨-, rfl⟩ := Prod.mk.inj (Except.ok.inj hadd)
      refine Or.inl ⟨rfl, ?_⟩
      rintro ⟨-, so_server', heq⟩
      exact hcode (Prod.mk.inj (Except.ok.inj (hopen.symm.trans heq))).1
  · rename_i hhttp
    obtain ⟨-, rfl⟩ := Prod.mk.inj (Except.ok.inj hadd)
    exact Or.inl ⟨rfl, fun h => hhttp h.1⟩

/-- A socket that `Open` reports without an error becomes a listener, when the sizes can be read. -/
theorem addListener_of_open (hlisten : explode .colon listen 2 = [device, port])
    (hhttp : FoldPrefix (bytes "http") proto)
    (hopen : Socket.open calls device port (bytes "400") = .ok (0, so_server))
    (hadd : server.addListener calls proto listen query_limit header_limit = .ok (err, server')) :
    LimitsFit query_limit header_limit ∧ ∃ l ∈ server'.conFd, l.fd = so_server := by
  rcases addListener_cases hlisten hadd with ⟨-, hnot⟩ | ⟨l, rfl, hfd, hlimits⟩
  · exact absurd ⟨hhttp, so_server, hopen⟩ hnot
  · refine ⟨hlimits, l, List.mem_append_right _ (List.mem_singleton_self l), ?_⟩
    exact (Prod.mk.inj (Except.ok.inj (hfd.symm.trans hopen))).2

/-- When `AddListener` returns for a section that is not `Usable`, there is a listener with the socket zero. -/
theorem exists_fd_eq_zero (hlisten : explode .colon listen 2 = [device, port])
    (husable : ¬ Usable calls proto device port query_limit header_limit)
    (hadd : server.addListener calls proto listen query_limit header_limit = .ok (err, server')) :
    ∃ l ∈ server'.conFd, l.fd = 0 := by
  by_cases hhttp : FoldPrefix (bytes "http") proto
  · rcases open_cases calls device port with ⟨hopen, heq⟩ | ⟨hopen, hfails, -⟩ | ⟨-, heq⟩ | ⟨-, hzero, heq⟩
    · -- The sizes cannot be read then.
      obtain ⟨hlimits, -⟩ := addListener_of_open hlisten hhttp heq hadd
      obtain ⟨hreach, sin_port, hport, -⟩ := hopen
      exact absurd (fun _ => ⟨⟨fun _ => ⟨sin_port, hport⟩, fun h => hreach.1.ne' h.1⟩, fun _ => hlimits⟩) husable
    · exact absurd (fun _ => ⟨hfails, fun h => absurd h hopen⟩) husable
    · rw [addListener_eq hlisten, if_pos hhttp, heq] at hadd
      cases hadd
    · obtain ⟨-, hmem⟩ := addListener_of_open hlisten hhttp heq hadd
      rwa [hzero] at hmem
  · exact absurd (fun h => absurd h hhttp) husable

/-- `AddListener` takes no listener away. -/
theorem conFd_prefix_of_addListener (hlisten : explode .colon listen 2 = [device, port])
    (hadd : server.addListener calls proto listen query_limit header_limit = .ok (err, server')) :
    server.conFd <+: server'.conFd := by
  rcases addListener_cases hlisten hadd with ⟨rfl, -⟩ | ⟨l, rfl, -⟩
  · exact List.prefix_rfl
  · exact List.prefix_append _ _

end NavekFiber
