import NavekFiber.Net.ReadBuffer

/-! # Receiving: `ReadBufferImpl::Read`

The loop of `Read` runs on a script of what the socket answers. Which calls it makes depends on the
script alone (`Calls`), and what it leaves in the buffer is the bytes of these calls in front of what
the memory held before (`read_eq_some_iff`). -/

namespace NavekFiber

/-- What one call of `recv` returns. -/
inductive RecvResult
  /-- `-1`, with `errno` set. -/
  | fail (errno : ℕ) (hset : errno ≠ 0)
  /-- The number of the bytes it has written; none when the peer has shut the connection down. -/
  | got (chunk : List UInt8)
  deriving DecidableEq, Repr

/-- What the socket answers in one turn of the loop. -/
structure Turn where
  /-- The call of `recv`. -/
  recv : RecvResult
  /-- The count that `ioctl(fd, FIONREAD, &ncount)` stores; `none` when it fails. -/
  fionread : Option ℤ
  deriving DecidableEq, Repr

/-- A fresh block of `MaxLength` bytes, with what it happens to hold, and the mapped memory behind it. -/
structure Block (maxLength : ℕ) where
  /-- The memory from the start of the block on. -/
  memory : List UInt8
  /-- The block is mapped. -/
  le_length : maxLength ≤ memory.length

namespace Receive

/-- What the loop of `Read` leaves behind. -/
structure Result where
  /-- What `Read` returns: `errno` or zero. -/
  code : ℕ
  /-- `dataLength`. -/
  dataLength : ℕ
  /-- The memory from `dataBuffer` on. -/
  memory : List UInt8
  deriving DecidableEq, Repr

/-- Write a chunk to an offset. -/
def write (mem : List UInt8) (offset : ℕ) (chunk : List UInt8) : List UInt8 :=
  mem.take offset ++ chunk ++ mem.drop (offset + chunk.length)

/-- The loop of `Read`. It has no result when the script ends, for then the last `recv` blocks, or when
a `recv` in it returns more than it was asked for. -/
def readLoop (maxLength : ℕ) : List Turn → ℕ → ℕ → List UInt8 → Option Result
  | [], _, _, _ => none
  | turn :: turns, noffset, dataLength, mem =>
      match turn.recv with
      | .fail errno _ => some ⟨errno, dataLength, mem⟩
      | .got chunk =>
          if maxLength - noffset < chunk.length then none
          else if chunk = [] then some ⟨0, dataLength, mem⟩
          else
            let mem := write mem noffset chunk
            let dataLength := dataLength + chunk.length
            match turn.fionread with
            | none => some ⟨0, dataLength, mem⟩
            | some ncount =>
                if 0 < ncount then
                  let noffset := noffset + chunk.length
                  if noffset + ncount < maxLength then
                    readLoop maxLength turns noffset dataLength mem
                  else some ⟨0, dataLength, mem⟩
                else some ⟨0, dataLength, mem⟩

/-! ### The calls that the loop makes -/

/-- The bytes that a turn delivers. -/
def chunkOf (turn : Turn) : List UInt8 :=
  match turn.recv with
  | .fail _ _ => []
  | .got chunk => chunk

/-- What `Read` returns when the loop ends with this turn. -/
def codeOf (turn : Turn) : ℕ :=
  match turn.recv with
  | .fail errno _ => errno
  | .got _ => 0

/-- The loop of `Read` goes on after a turn: it delivered bytes, and the socket has a number of further bytes waiting
that still fits. -/
def GoesOn (maxLength noffset : ℕ) (turn : Turn) : Prop :=
  chunkOf turn ≠ [] ∧ ∃ ncount ∈ turn.fionread, 0 < ncount ∧
    (noffset : ℤ) + (chunkOf turn).length + ncount < maxLength

/-- The turns are exactly the calls that the loop of `Read` makes from an offset on. -/
inductive Calls (maxLength : ℕ) : ℕ → List Turn → Prop
  /-- The loop ends with this turn. -/
  | last {noffset : ℕ} {turn : Turn} (hfits : (chunkOf turn).length ≤ maxLength - noffset)
      (hstops : ¬ GoesOn maxLength noffset turn) : Calls maxLength noffset [turn]
  /-- The loop goes on. -/
  | more {noffset : ℕ} {turn : Turn} {turns : List Turn}
      (hfits : (chunkOf turn).length ≤ maxLength - noffset) (hgoes : GoesOn maxLength noffset turn)
      (hrest : Calls maxLength (noffset + (chunkOf turn).length) turns) :
      Calls maxLength noffset (turn :: turns)

/-- The bytes that the turns deliver. -/
def stream (turns : List Turn) : List UInt8 := turns.flatMap chunkOf

/-- What `Read` returns after the turns. -/
def code (turns : List Turn) : ℕ := (turns.getLast?.map codeOf).getD 0

variable {maxLength noffset : ℕ} {mem : List UInt8} {turns played : List Turn}

/-- Writing two chunks one behind the other is writing them as one. -/
theorem write_write (chunk chunk' : List UInt8) (h : noffset ≤ mem.length) :
    write (write mem noffset chunk) (noffset + chunk.length) chunk' =
      write mem noffset (chunk ++ chunk') := by
  have hlen : (mem.take noffset ++ chunk).length = noffset + chunk.length := by
    rw [List.length_append, List.length_take, Nat.min_eq_left h]
  simp only [write]
  rw [List.take_left' hlen, List.drop_append, List.drop_of_length_le (by omega), List.nil_append,
    hlen, List.drop_drop, List.length_append]
  simp only [List.append_assoc]
  congr 4
  omega

/-- Writing an empty chunk leaves the memory as it is. -/
theorem write_nil : write mem noffset [] = mem := by
  simp [write]

/-- Writing within the memory or right behind it reaches as far as the chunk does. -/
theorem le_length_write (chunk : List UInt8) (h : noffset ≤ mem.length) :
    noffset + chunk.length ≤ (write mem noffset chunk).length := by
  simp only [write, List.length_append, List.length_take, Nat.min_eq_left h]
  omega

/-- A turn after which the loop goes on has delivered bytes, and a number of bytes that are waiting and still fit. -/
theorem GoesOn.exists_got {turn : Turn} (hgoes : GoesOn maxLength noffset turn) :
    ∃ chunk ncount, turn = ⟨.got chunk, some ncount⟩ ∧ chunk ≠ [] ∧ 0 < ncount ∧
      (noffset : ℤ) + chunk.length + ncount < maxLength := by
  obtain ⟨recv, fionread⟩ := turn
  obtain ⟨hne, ncount, hncount, hpos, hlt⟩ := hgoes
  obtain rfl : fionread = some ncount := hncount
  cases recv with
  | fail errno hset => exact absurd rfl hne
  | got chunk => exact ⟨chunk, ncount, rfl, hne, hpos, hlt⟩

/-- After a turn that lets it go on, `readLoop` has written the chunk and makes the next turn behind it. -/
theorem readLoop_of_goesOn {turn : Turn} (dataLength : ℕ)
    (hfits : (chunkOf turn).length ≤ maxLength - noffset) (hgoes : GoesOn maxLength noffset turn) :
    readLoop maxLength (turn :: turns) noffset dataLength mem =
      readLoop maxLength turns (noffset + (chunkOf turn).length)
        (dataLength + (chunkOf turn).length) (write mem noffset (chunkOf turn)) := by
  obtain ⟨chunk, ncount, rfl, hne, hpos, hlt⟩ := hgoes.exists_got
  simp only [chunkOf] at hfits ⊢
  simp [readLoop, hne, hpos, not_lt.mpr hfits, hlt]

/-- After a turn that ends it, `readLoop` has written the chunk and returns the code of the turn. -/
theorem readLoop_of_not_goesOn {turn : Turn} (dataLength : ℕ)
    (hfits : (chunkOf turn).length ≤ maxLength - noffset)
    (hstops : ¬ GoesOn maxLength noffset turn) :
    readLoop maxLength (turn :: turns) noffset dataLength mem =
      some ⟨codeOf turn, dataLength + (chunkOf turn).length, write mem noffset (chunkOf turn)⟩ := by
  obtain ⟨recv, fionread⟩ := turn
  cases recv with
  | fail errno hset => simp [readLoop, codeOf, chunkOf, write_nil]
  | got chunk =>
      simp only [GoesOn, chunkOf, codeOf] at hstops hfits ⊢
      by_cases hne : chunk = []
      · simp [readLoop, hne, write_nil]
      · cases fionread with
        | none => simp [readLoop, hne, not_lt.mpr hfits]
        | some ncount =>
            by_cases hpos : 0 < ncount
            · have hlt : ¬ (noffset : ℤ) + chunk.length + ncount < maxLength :=
                fun h => hstops ⟨hne, ncount, rfl, hpos, h⟩
              simp [readLoop, hne, hpos, not_lt.mpr hfits, hlt]
            · simp [readLoop, hne, hpos, not_lt.mpr hfits]

/-- `readLoop` has no result for a `recv` that returns more than it was asked for. -/
theorem readLoop_of_not_fits {turn : Turn} (dataLength : ℕ)
    (hfits : ¬ (chunkOf turn).length ≤ maxLength - noffset) :
    readLoop maxLength (turn :: turns) noffset dataLength mem = none := by
  obtain ⟨recv, fionread⟩ := turn
  cases recv with
  | fail errno hset => exact absurd (Nat.zero_le _) hfits
  | got chunk =>
      simp only [chunkOf, not_le] at hfits
      simp [readLoop, hfits]

/-- The loop of `Read` makes one call at least. -/
theorem Calls.ne_nil (h : Calls maxLength noffset played) : played ≠ [] := by
  cases h <;> simp

/-- What `Read` returns depends on the last turn only. -/
theorem code_cons {turn : Turn} (h : played ≠ []) : code (turn :: played) = code played := by
  obtain ⟨first, played, rfl⟩ := List.exists_cons_of_ne_nil h
  simp [code]

@[simp] theorem stream_cons (turn : Turn) (turns : List Turn) :
    stream (turn :: turns) = chunkOf turn ++ stream turns := rfl

/-- `readLoop` ends exactly when the script begins with the `Calls` that it makes, and leaves the bytes of these calls
in the memory. -/
theorem readLoop_eq_some_iff {result : Result} (h : noffset ≤ mem.length) :
    readLoop maxLength turns noffset noffset mem = some result ↔
      ∃ played rest, turns = played ++ rest ∧ Calls maxLength noffset played ∧
        result = ⟨code played, noffset + (stream played).length, write mem noffset (stream played)⟩ := by
  induction turns generalizing noffset mem with
  | nil =>
      refine iff_of_false (by simp [readLoop]) ?_
      rintro ⟨played, rest, hsplit, hcalls, -⟩
      exact hcalls.ne_nil (List.append_eq_nil_iff.mp hsplit.symm).1
  | cons turn turns ih =>
      by_cases hfits : (chunkOf turn).length ≤ maxLength - noffset
      · by_cases hgoes : GoesOn maxLength noffset turn
        · have hresult : ∀ {played}, Calls maxLength (noffset + (chunkOf turn).length) played →
              (⟨code played, noffset + (chunkOf turn).length + (stream played).length,
                write (write mem noffset (chunkOf turn)) (noffset + (chunkOf turn).length)
                  (stream played)⟩ : Result) =
              ⟨code (turn :: played), noffset + (stream (turn :: played)).length,
                write mem noffset (stream (turn :: played))⟩ := by
            intro played hcalls
            rw [code_cons hcalls.ne_nil, write_write _ _ h, stream_cons, List.length_append,
              Nat.add_assoc]
          rw [readLoop_of_goesOn noffset hfits hgoes, ih (le_length_write _ h)]
          constructor
          · rintro ⟨played, rest, rfl, hcalls, rfl⟩
            exact ⟨turn :: played, rest, rfl, .more hfits hgoes hcalls, hresult hcalls⟩
          · rintro ⟨played, rest, hsplit, hcalls, rfl⟩
            cases hcalls with
            | last _ hstops => exact absurd ((List.cons.inj hsplit).1 ▸ hgoes) hstops
            | more _ _ hrest =>
                obtain ⟨rfl, rfl⟩ := List.cons.inj hsplit
                exact ⟨_, rest, rfl, hrest, (hresult hrest).symm⟩
        · rw [readLoop_of_not_goesOn noffset hfits hgoes, Option.some.injEq]
          constructor
          · rintro rfl
            refine ⟨[turn], turns, rfl, .last hfits hgoes, ?_⟩
            simp [code, stream]
          · rintro ⟨played, rest, hsplit, hcalls, rfl⟩
            cases hcalls with
            | last _ _ =>
                obtain ⟨rfl, -⟩ := List.cons.inj hsplit
                simp [code, stream]
            | more _ hgoes' _ => exact absurd ((List.cons.inj hsplit).1 ▸ hgoes') hgoes
      · rw [readLoop_of_not_fits noffset hfits]
        refine iff_of_false (by simp) ?_
        rintro ⟨played, rest, hsplit, hcalls, -⟩
        cases hcalls with
        | last hfits' => exact hfits ((List.cons.inj hsplit).1 ▸ hfits')
        | more hfits' => exact hfits ((List.cons.inj hsplit).1 ▸ hfits')

/-- The bytes that the loop of `Read` has received are in the memory. -/
theorem dataLength_le {result : Result} (h : noffset ≤ mem.length)
    (hloop : readLoop maxLength turns noffset noffset mem = some result) :
    result.dataLength ≤ result.memory.length := by
  obtain ⟨played, rest, -, -, rfl⟩ := (readLoop_eq_some_iff h).mp hloop
  exact le_length_write _ h

end Receive

open Receive

namespace ReadBufferImpl

variable {maxLength partLength : ℕ} {turns : List Turn}

/-- `Read`: what it returns, and the buffer. -/
def read (block : Block maxLength) (partLength : ℕ) (turns : List Turn) :
    Option (ℕ × ReadBufferImpl) :=
  (readLoop maxLength turns 0 0 block.memory).pmap
    (fun result hle => (result.code, ⟨result.dataLength, partLength, result.memory, hle⟩))
    fun _ hloop => Receive.dataLength_le (Nat.zero_le _) hloop

/-- The buffer after the calls that the loop of `Read` makes. -/
def afterCalls (block : Block maxLength) (partLength : ℕ) (played : List Turn) : ReadBufferImpl where
  dataLength := (stream played).length
  dataPartLength := partLength
  memory := stream played ++ block.memory.drop (stream played).length
  dataLength_le := by simp

@[simp] theorem received_afterCalls (block : Block maxLength) (partLength : ℕ) (played : List Turn) :
    (afterCalls block partLength played).received = stream played :=
  List.take_left

/-- `Read` ends exactly when the script begins with the `Calls` that it makes, and returns the code of the last one
with the buffer `afterCalls`. -/
theorem read_eq_some_iff {block : Block maxLength} {answer : ℕ × ReadBufferImpl} :
    read block partLength turns = some answer ↔
      ∃ played rest, turns = played ++ rest ∧ Calls maxLength 0 played ∧
        answer = (code played, afterCalls block partLength played) := by
  rw [read, Option.pmap_eq_some_iff]
  have hafter : ∀ played, afterCalls block partLength played =
      ⟨0 + (stream played).length, partLength, write block.memory 0 (stream played),
        le_length_write _ (Nat.zero_le _)⟩ := by
    intro played
    simp [afterCalls, write]
  constructor
  · rintro ⟨result, hle, hloop, rfl⟩
    obtain ⟨played, rest, hsplit, hcalls, rfl⟩ :=
      (readLoop_eq_some_iff (Nat.zero_le _)).mp hloop
    exact ⟨played, rest, hsplit, hcalls, by rw [hafter]⟩
  · rintro ⟨played, rest, hsplit, hcalls, rfl⟩
    have hloop := (readLoop_eq_some_iff (Nat.zero_le block.memory.length)).mpr
      ⟨played, rest, hsplit, hcalls, rfl⟩
    exact ⟨_, Receive.dataLength_le (Nat.zero_le _) hloop, hloop, by rw [hafter]⟩

end ReadBufferImpl

end NavekFiber
