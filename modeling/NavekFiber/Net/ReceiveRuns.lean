import NavekFiber.Net.Receive

/-! # `ReadBufferImpl::Read` on a socket that goes on answering

A socket may answer any number of calls of `recv`, and the loop of `Read` decides how many it makes. As long
as no `recv` returns more than it was asked for, the loop ends after at most `MaxLength` turns, each `recv`
is asked for bytes inside the block only, and the buffer holds what they have delivered
(`read_of_answers`). -/

namespace NavekFiber

namespace Receive

/-- The offset and the length that each `recv` of the loop is called with. -/
def recvCalls (maxLength : ℤ) : List Turn → ℤ → List (ℤ × ℤ)
  | [], noffset => [(noffset, maxLength - noffset)]
  | turn :: turns, noffset =>
      (noffset, maxLength - noffset) ::
        match turn.recv, turn.fionread with
        | .got chunk, some ncount =>
            if chunk ≠ [] ∧ 0 < ncount ∧ noffset + chunk.length + ncount < maxLength then
              recvCalls maxLength turns (noffset + chunk.length)
            else []
        | _, _ => []

/-- `noffset` after some turns of the loop. -/
def offset (turns : ℕ → Turn) (n : ℕ) : ℕ := (stream ((List.range n).map turns)).length

/-- The loop gets as far as the turn `n`. -/
def Reaches (maxLength : ℕ) (turns : ℕ → Turn) (n : ℕ) : Prop :=
  ∀ i < n, GoesOn maxLength (offset turns i) (turns i)

variable {maxLength noffset : ℕ} {turn : Turn} {played : List Turn} {turns : ℕ → Turn}

/-! ### The calls of `recv` -/

/-- After a turn that lets it go on, the loop calls `recv` again behind the bytes of the turn. -/
theorem recvCalls_of_goesOn (rest : List Turn) (hgoes : GoesOn maxLength noffset turn) :
    recvCalls maxLength (turn :: rest) noffset =
      ((noffset : ℤ), (maxLength : ℤ) - noffset) :: recvCalls maxLength rest ↑(noffset + (chunkOf turn).length) := by
  obtain ⟨chunk, ncount, rfl, hne, hpos, hlt⟩ := hgoes.exists_got
  rw [recvCalls]
  simp only [chunkOf]
  rw [if_pos ⟨hne, hpos, hlt⟩, Nat.cast_add]

/-- A turn that ends the loop is its last call of `recv`. -/
theorem recvCalls_of_not_goesOn (rest : List Turn) (hstops : ¬ GoesOn maxLength noffset turn) :
    recvCalls maxLength (turn :: rest) noffset = [((noffset : ℤ), (maxLength : ℤ) - noffset)] := by
  obtain ⟨recv, fionread⟩ := turn
  rw [recvCalls]
  cases recv with
  | fail errno hset => rfl
  | got chunk =>
      cases fionread with
      | none => rfl
      | some ncount =>
          simp only
          rw [if_neg]
          rintro ⟨hne, hpos, hlt⟩
          exact hstops ⟨hne, ncount, rfl, hpos, hlt⟩

/-- After a turn that lets the loop go on, there is room in the block behind its bytes. -/
theorem GoesOn.lt (hgoes : GoesOn maxLength noffset turn) :
    noffset + (chunkOf turn).length < maxLength := by
  obtain ⟨-, ncount, -, hpos, hlt⟩ := hgoes
  omega

/-- Each `recv` of the loop is asked for some bytes inside the block. -/
theorem recvCalls_within (hcalls : Calls maxLength noffset played) (hlt : noffset < maxLength) :
    ∀ call ∈ recvCalls maxLength played noffset, 0 ≤ call.1 ∧ 0 < call.2 ∧ call.1 + call.2 ≤ maxLength := by
  have hfirst : 0 ≤ (noffset : ℤ) ∧ 0 < (maxLength : ℤ) - noffset ∧
      (noffset : ℤ) + (maxLength - noffset) ≤ maxLength := by omega
  induction hcalls with
  | last hfits hstops =>
      rw [recvCalls_of_not_goesOn [] hstops]
      intro call hcall
      obtain rfl := List.mem_singleton.mp hcall
      exact hfirst
  | more hfits hgoes hrest ih =>
      rw [recvCalls_of_goesOn _ hgoes]
      intro call hcall
      have hnext := hgoes.lt
      rcases List.mem_cons.mp hcall with rfl | hcall
      · exact hfirst
      · exact ih hnext (by omega) call hcall

/-! ### The end of the loop -/

/-- The bytes that the turns deliver fit into the block. -/
theorem length_stream_le (hcalls : Calls maxLength noffset played) (hle : noffset ≤ maxLength) :
    noffset + (stream played).length ≤ maxLength := by
  induction hcalls with
  | last hfits hstops =>
      simp only [stream, List.flatMap_cons, List.flatMap_nil, List.append_nil]
      omega
  | more hfits hgoes hrest ih =>
      have := ih hgoes.lt.le
      rw [stream_cons, List.length_append]
      omega

/-- A turn adds the length of what it delivers to `offset`. -/
theorem offset_succ (turns : ℕ → Turn) (n : ℕ) :
    offset turns (n + 1) = offset turns n + (chunkOf (turns n)).length := by
  simp [offset, stream, List.range_succ]

/-- From any turn that it gets to, the loop makes as many calls as there is room for, or fewer. -/
theorem exists_calls (turns : ℕ → Turn)
    (hrecv : ∀ n, Reaches maxLength turns n → (chunkOf (turns n)).length ≤ maxLength - offset turns n)
    {m : ℕ} (hreaches : Reaches maxLength turns m) (hlt : offset turns m < maxLength) :
    ∃ k, Calls maxLength (offset turns m) ((List.range' m (k + 1)).map turns) ∧
      offset turns m + k < maxLength := by
  induction hroom : maxLength - offset turns m using Nat.strong_induction_on generalizing m with
  | _ room ih =>
      by_cases hgoes : GoesOn maxLength (offset turns m) (turns m)
      · -- The room gets smaller by what the turn delivers, which is something.
        have hpos : 0 < (chunkOf (turns m)).length := List.length_pos_of_ne_nil hgoes.1
        have hnext : Reaches maxLength turns (m + 1) := by
          intro i hi
          rcases Nat.lt_succ_iff_lt_or_eq.mp hi with hi | rfl
          · exact hreaches i hi
          · exact hgoes
        have hoffset := offset_succ turns m
        have hlt' : offset turns (m + 1) < maxLength := hoffset ▸ hgoes.lt
        obtain ⟨k, hcalls, hk⟩ := ih _ (by omega) hnext hlt' rfl
        refine ⟨k + 1, ?_, by omega⟩
        rw [List.range'_succ, List.map_cons]
        exact .more (hrecv m hreaches) hgoes (hoffset ▸ hcalls)
      · exact ⟨0, .last (hrecv m hreaches) hgoes, hlt⟩

/-- What `Read` returns after `n + 1` turns is the code of the last one. -/
theorem code_range (turns : ℕ → Turn) (n : ℕ) :
    code ((List.range (n + 1)).map turns) = codeOf (turns n) := by
  simp [code, List.range_succ]

/-- The code of a turn is not zero exactly when its `recv` has failed. -/
theorem codeOf_ne_zero_iff (turn : Turn) :
    codeOf turn ≠ 0 ↔ ∃ errno hset, turn.recv = .fail errno hset := by
  obtain ⟨recv, fionread⟩ := turn
  cases recv with
  | fail errno hset => exact iff_of_true hset ⟨errno, hset, rfl⟩
  | got chunk => simp [codeOf]

end Receive

open Receive

namespace ReadBufferImpl

variable {maxLength : ℕ}

/-- `Content` from an offset on is the rest of the bytes received, and empty when the offset lies behind them. -/
theorem text_content_min (data : ReadBufferImpl) (k : ℕ) :
    (data.content k).text data.memory = data.received.drop (min k data.dataLength) := by
  rw [text_content]
  rcases le_total k data.dataLength with hle | hle
  · rw [min_eq_left hle]
  · rw [min_eq_right hle, List.drop_of_length_le (by rwa [length_received]),
      List.drop_of_length_le (by rw [length_received])]

/-- On a socket that goes on answering, with no `recv` that returns more than it was asked for, `Read` ends
after at most `MaxLength` turns. Each `recv` is asked for bytes inside the block, the memory behind the block
is left alone, and the bytes that were received are in the buffer in their order. `Read` returns an error
exactly when the last `recv` has failed, and the content from an offset on is the rest of the bytes. -/
theorem read_of_answers (block : Block maxLength) (partLength : ℕ) (turns : ℕ → Turn) (hpos : 0 < maxLength)
    (hrecv : ∀ n, Reaches maxLength turns n → (chunkOf (turns n)).length ≤ maxLength - offset turns n) :
    ∃ n < maxLength, ∃ answer data,
      let played := (List.range (n + 1)).map turns
      (∀ rest, read block partLength (played ++ rest) = some (answer, data)) ∧
        (∀ call ∈ recvCalls maxLength played 0, 0 ≤ call.1 ∧ 0 < call.2 ∧ call.1 + call.2 ≤ maxLength) ∧
        data.memory.drop maxLength = block.memory.drop maxLength ∧
        data.dataLength ≤ maxLength ∧
        data.received = stream played ∧
        (answer ≠ 0 ↔ ∃ errno hset, (turns n).recv = .fail errno hset) ∧
        ∀ k, (data.content k).text data.memory = (stream played).drop (min k data.dataLength) := by
  obtain ⟨n, hcalls, hn⟩ := exists_calls turns hrecv (m := 0) (fun i hi => absurd hi (Nat.not_lt_zero i)) hpos
  rw [← List.range_eq_range'] at hcalls
  have hlength : (stream ((List.range (n + 1)).map turns)).length ≤ maxLength := by
    have := length_stream_le hcalls hpos.le
    omega
  refine ⟨n, by omega, code ((List.range (n + 1)).map turns),
    afterCalls block partLength ((List.range (n + 1)).map turns), fun rest => ?_,
    recvCalls_within hcalls hpos, ?_, hlength, received_afterCalls _ _ _, ?_, fun k => ?_⟩
  · exact read_eq_some_iff.mpr ⟨_, rest, rfl, hcalls, rfl⟩
  · rw [afterCalls, List.drop_append, List.drop_drop, List.drop_of_length_le hlength, List.nil_append]
    congr 1
    omega
  · rw [code_range, codeOf_ne_zero_iff]
  · rw [text_content_min, received_afterCalls]

/-- A socket that delivers two bytes, of three that were waiting, and then one byte with nothing behind it. -/
def twoChunks (n : ℕ) : Turn := if n = 0 then ⟨.got [7, 8], some 1⟩ else ⟨.got [9], some 0⟩

/-- A block of four bytes and a socket that delivers two chunks: the second `recv` is called two bytes into the
block and is asked for two bytes, and the three bytes are in the buffer. -/
theorem read_of_answers_two :
    ∃ answer data,
      (∀ rest, read ⟨[1, 2, 3, 4], le_rfl⟩ 4 (⟨.got [7, 8], some 1⟩ :: ⟨.got [9], some 0⟩ :: rest) =
        some (answer, data)) ∧
      recvCalls 4 [⟨.got [7, 8], some 1⟩, ⟨.got [9], some 0⟩] 0 = [(0, 4), (2, 2)] ∧
      data.received = [7, 8, 9] := by
  have hstops : ∀ i, ¬ Reaches 4 twoChunks (i + 2) := by
    intro i h
    obtain ⟨-, ncount, hncount, hpos, -⟩ := h 1 (by omega)
    obtain rfl := Option.some.inj hncount
    exact absurd hpos (lt_irrefl 0)
  obtain ⟨n, hn, answer, data, hread, -, -, -, hreceived, -, -⟩ :=
    read_of_answers ⟨[1, 2, 3, 4], le_rfl⟩ 4 twoChunks (by decide) fun n hreaches => by
      match n with
      | 0 => decide
      | 1 => decide
      | n + 2 => exact absurd hreaches (hstops n)
  have hplayed : (read ⟨[1, 2, 3, 4], le_rfl⟩ 4 ((List.range (n + 1)).map twoChunks ++ [])).map
      (fun out => out.2.received) = some (stream ((List.range (n + 1)).map twoChunks)) := by
    rw [hread, Option.map_some, hreceived]
  -- Fewer turns do not end the loop, and more deliver more than there is in the buffer.
  have hone : n = 1 := by
    match n, hn, hplayed with
    | 0, _, h => exact absurd h (by decide)
    | 1, _, _ => rfl
    | 2, _, h => exact absurd h (by decide)
    | 3, _, h => exact absurd h (by decide)
  subst hone
  exact ⟨answer, data, hread, by decide, hreceived⟩

end ReadBufferImpl

end NavekFiber
