import NavekFiber.Machine.Memory

/-! # The receive buffer `ReadBufferImpl`

`Read` receives into a fresh block of `MaxLength` bytes until the socket says that nothing more is
waiting. `Head` is the window that the request head is looked for in: its length is configured and has
nothing to do with what was received. `Content` is what was received from some offset on. The bytes
behind those received are whatever the memory held before. -/

namespace NavekFiber

/-- A buffer after `Read`, which always allocates one; the checks for a null buffer are left out. -/
structure ReadBufferImpl where
  /-- The bytes received. -/
  dataLength : ℕ
  /-- The length of the window for the head. -/
  dataPartLength : ℕ
  /-- The memory from `dataBuffer` on. -/
  memory : List UInt8
  /-- The bytes received are in the buffer. -/
  dataLength_le : dataLength ≤ memory.length

namespace ReadBufferImpl

/-- `empty`. -/
def empty (data : ReadBufferImpl) : Bool := data.dataLength == 0

/-- `Head`: the configured window. -/
def head (data : ReadBufferImpl) : Span := ⟨0, data.dataPartLength⟩

/-- `Content`: what was received from `headOffset` on. -/
def content (data : ReadBufferImpl) (headOffset : ℕ) : Span :=
  ⟨if headOffset < data.dataLength then headOffset else data.dataLength, data.dataLength⟩

/-- The bytes that a buffer has received. -/
def received (data : ReadBufferImpl) : List UInt8 := data.memory.take data.dataLength

/-- A buffer with a memory that ends with the bytes received: every read behind them faults. -/
def cutOff (data : ReadBufferImpl) : ReadBufferImpl where
  dataLength := data.dataLength
  dataPartLength := data.dataPartLength
  memory := data.received
  dataLength_le := by
    have := data.dataLength_le
    rw [received, List.length_take]
    omega

/-- Two buffers that agree in their lengths and in the bytes received. -/
structure Agrees (data data' : ReadBufferImpl) : Prop where
  /-- As many bytes were received. -/
  dataLength_eq : data'.dataLength = data.dataLength
  /-- The windows are of one length. -/
  dataPartLength_eq : data'.dataPartLength = data.dataPartLength
  /-- The same bytes were received. -/
  received_eq : data'.received = data.received

/-- A buffer has as many bytes received as `dataLength` says. -/
@[simp] theorem length_received (data : ReadBufferImpl) :
    data.received.length = data.dataLength := by
  rw [received, List.length_take]
  exact Nat.min_eq_left data.dataLength_le

/-- The bytes that a buffer has received stand at the front of its memory. -/
theorem received_prefix_memory (data : ReadBufferImpl) : data.received <+: data.memory :=
  List.take_prefix _ _

/-- `Content` from an offset on is the rest of the bytes received. -/
theorem text_content (data : ReadBufferImpl) (headOffset : ℕ) :
    (data.content headOffset).text data.memory = data.received.drop headOffset := by
  show data.received.drop (if headOffset < data.dataLength then headOffset else data.dataLength) = _
  split
  · rfl
  · rw [List.drop_of_length_le (by simp), List.drop_of_length_le (by rw [length_received]; omega)]

end ReadBufferImpl

end NavekFiber
