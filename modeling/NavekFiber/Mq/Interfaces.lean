import Mathlib.Data.UInt

/-! # Requests as the queue handlers see them

The part of `IRequest` that the queue classes store and compare: which client connection stands
behind the request object and the id `getMsgId` gave the message. -/

namespace NavekFiber

/-- A message id, `uint64_t` in the source. -/
abbrev MsgId := UInt64

/-- A request object. `conn` tells the objects apart: every call of a queue method comes with its
own `RequestImpl`, which owns one client connection. -/
structure IRequest where
  /-- The client connection the object owns. -/
  conn : ℕ
  /-- What `GetMsgId` answers. -/
  msgId : MsgId
  deriving DecidableEq, Repr

/-- How a call of `ReplyWithCode` on a request ends. -/
inductive ReplyResult
  /-- `HttpImpl::Reply` returned, hence `RequestImpl::Reply` returned `true`. -/
  | delivered
  /-- `QueryInterface` found no `IRequest`: `ReplyWithCode` returned `false`. -/
  | notARequest
  /-- `HttpImpl::Reply` could not send, closed the connection and threw `RuntimeException`. -/
  | runtimeException
  deriving DecidableEq, Repr

end NavekFiber
