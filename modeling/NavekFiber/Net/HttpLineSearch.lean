import NavekFiber.Net.HttpEmptyLines
import NavekFiber.Net.HttpStatus

/-! # Finding lines with either line end

What the search for a line end finds in a text of lines that all end alike: the end of a line that is not
followed by an empty one (`findValues_of_lines`), two line ends at once where the head ends
(`findValues_emptyLine`), and nothing where the window does not show the end (`findValues_of_lt`). -/

namespace NavekFiber

open Utils

namespace Http

variable {mem before line rest after : List UInt8} {hi n : ℕ} {eol : LineEnd}

/-- In a memory `before ++ text ++ after`, the text between the pointers around `text` is `text`. -/
theorem text_eq_of_append {text : List UInt8} (after : List UInt8) (hmem : mem = before ++ text ++ after) :
    Span.text mem ⟨before.length, before.length + text.length⟩ = text := by
  rw [Span.text, hmem, ← List.length_append, List.take_left, List.drop_left]

/-- A range that begins in front of a text and reaches behind it holds the text and more. -/
theorem slice_bytes_append {text after : List UInt8} (before : List UInt8) (hi : ℕ)
    (hmem : mem = before ++ text ++ after) (h : before.length + text.length ≤ hi) :
    ∃ more, (slice mem before.length hi).bytes = text ++ more := by
  refine ⟨after.take (hi - (before.length + text.length)), ?_⟩
  rw [slice_bytes, hmem, ← List.length_append, List.take_append,
    List.take_of_length_le (by simpa using h), List.append_assoc, List.drop_left]

/-- `findFrom` skips a text without line ends. -/
theorem findFrom_append (cut : Bool) (it : ℕ) (hline : ∀ b ∈ line, b ≠ cr ∧ b ≠ lf)
    (rest : List UInt8) :
    findFrom cut httpLineEndians it (line ++ rest) =
      findFrom cut httpLineEndians (it + line.length) rest := by
  induction line generalizing it with
  | nil => rfl
  | cons b line ih =>
      obtain ⟨hcr, hlf⟩ := hline b List.mem_cons_self
      rw [List.cons_append, findFrom, findAt_other hcr hlf]
      simp only
      rw [ih (it + 1) fun b hb => hline b (List.mem_cons_of_mem _ hb), List.length_cons]
      congr 1
      omega

/-- `findValues` finds no line end in a mapped range without line feeds. -/
theorem findValues_absent {lo : ℕ} (hhi : hi ≤ mem.length) (h : lf ∉ (slice mem lo hi).bytes) :
    findValues (slice mem lo hi) httpLineEndians = some .fail := by
  have hnext : NextLine _ lo _ (findValues (slice mem lo hi) httpLineEndians) := nextLine_findValues lo hi
  generalize findValues (slice mem lo hi) httpLineEndians = found at hnext ⊢
  cases hnext with
  | fault hcut => exact absurd hcut (by simp [slice_cut_of_le lo hhi])
  | absent => rfl
  | blank _ _ _ _ htext _ _ hmarker =>
      refine absurd ?_ h
      rw [htext]
      rcases hmarker with rfl | ⟨rfl, -⟩ <;> simp
  | line _ _ _ _ htext _ _ hmarker =>
      refine absurd ?_ h
      rw [htext]
      rcases hmarker with ⟨rfl, -⟩ | rfl <;> simp

/-- `findFrom` finds a line end that is not followed by another one. -/
theorem findFrom_lineEnd (cut : Bool) (eol : LineEnd) (it : ℕ) (hrest : ¬ eol.bytes <+: rest)
    (hlong : cut = true → eol.bytes.length ≤ rest.length) :
    ∃ result, 2 < result ∧
      findFrom cut httpLineEndians it (eol.bytes ++ rest) = some ⟨result, it, it + eol.bytes.length⟩ := by
  have hcut : rest.length < eol.bytes.length → cut = false := fun h => by
    rw [← Bool.not_eq_true]
    intro hcut
    have := hlong hcut
    omega
  cases eol with
  | lineFeed =>
      refine ⟨3, by decide, ?_⟩
      show findFrom cut httpLineEndians it (lf :: rest) = _
      cases rest with
      | nil =>
          rw [hcut (by decide), findFrom, findAt_lf_nil]
          rfl
      | cons c rest =>
          have hc : c ≠ lf := fun h => hrest ⟨rest, by rw [h]; rfl⟩
          rw [findFrom, findAt_lf hc]
          rfl
  | crLf =>
      refine ⟨4, by decide, ?_⟩
      show findFrom cut httpLineEndians it (cr :: lf :: rest) = _
      rcases rest with - | ⟨c, - | ⟨d, rest⟩⟩
      · rw [hcut (by decide), findFrom, findAt_crlf_nil]
        rfl
      · by_cases hc : c = cr
        · subst hc
          rw [hcut (by decide), findFrom, findAt_crlf_cr_nil]
          rfl
        · rw [findFrom, findAt_crlf hc]
          rfl
      · by_cases hc : c = cr
        · subst hc
          have hd : d ≠ lf := fun h => hrest ⟨rest, by rw [h]; rfl⟩
          rw [findFrom, findAt_crlf_cr hd]
          rfl
        · rw [findFrom, findAt_crlf hc]
          rfl

/-- `findFrom` finds two line ends that are alike as the marker of an empty line. -/
theorem findFrom_emptyLine (cut : Bool) (eol : LineEnd) (it : ℕ) (rest : List UInt8) :
    ∃ result, result ≠ 0 ∧ ¬ 2 < result ∧
      findFrom cut httpLineEndians it (eol.bytes ++ (eol.bytes ++ rest))
        = some ⟨result, it, it + (eol.bytes.length + eol.bytes.length)⟩ := by
  cases eol with
  | lineFeed =>
      refine ⟨2, by decide, by decide, ?_⟩
      show findFrom cut httpLineEndians it (lf :: lf :: rest) = _
      rw [findFrom, findAt_lf_lf]
      rfl
  | crLf =>
      refine ⟨1, by decide, by decide, ?_⟩
      show findFrom cut httpLineEndians it (cr :: lf :: cr :: lf :: rest) = _
      rw [findFrom, findAt_crlf_crlf]
      rfl

/-- A range that begins behind `before` in the memory `before ++ text` holds a beginning of `text`. -/
theorem slice_of_append (before text : List UInt8) (hi : ℕ) :
    (slice (before ++ text) before.length hi).bytes = text.take (hi - before.length) := by
  rw [slice_bytes, List.drop_take, List.drop_left]

section Line

variable (before : List UInt8) (hmem : mem = before ++ (line ++ eol.bytes ++ rest))

include hmem

/-- `findValues` does not find the end of a line that the range does not show. -/
theorem findValues_of_lt (hline : ∀ b ∈ line, b ≠ cr ∧ b ≠ lf) (hhi : hi ≤ mem.length)
    (hlt : hi < before.length + line.length + eol.bytes.length) :
    findValues (slice mem before.length hi) httpLineEndians = some .fail := by
  refine findValues_absent hhi ?_
  obtain ⟨begin, hbegin, hlf⟩ := eol.exists_bytes_eq
  have hsplit : line ++ eol.bytes ++ rest = line ++ begin ++ lf :: rest := by
    rw [hbegin]
    simp
  rw [hmem, slice_of_append, hsplit, List.take_append_of_le_length]
  · intro h
    rcases List.mem_append.mp (List.mem_of_mem_take h) with h | h
    · exact (hline lf h).2 rfl
    · exact hlf h
  · rw [hbegin, List.length_append, List.length_singleton] at hlt
    rw [List.length_append]
    omega

/-- A range that shows the end of a line holds the line, its end, and a beginning of the rest. -/
theorem slice_of_le (hle : before.length + line.length + eol.bytes.length ≤ hi) :
    (slice mem before.length hi).bytes = line ++ (eol.bytes ++
      rest.take (hi - (before.length + line.length + eol.bytes.length))) := by
  obtain ⟨k, rfl⟩ : ∃ k, hi = before.length + line.length + eol.bytes.length + k :=
    ⟨hi - (before.length + line.length + eol.bytes.length), by omega⟩
  rw [hmem, slice_of_append, Nat.add_sub_cancel_left, ← List.append_assoc, ← List.take_length_add_append]
  congr 1
  rw [List.length_append]
  omega

/-- `findValues` finds the end of a line that the range shows, when no line end of this kind follows in it. -/
theorem findValues_of_le (hline : ∀ b ∈ line, b ≠ cr ∧ b ≠ lf)
    (hle : before.length + line.length + eol.bytes.length ≤ hi)
    (hrest : ¬ eol.bytes <+: rest.take (hi - (before.length + line.length + eol.bytes.length)))
    (hlong : mem.length < hi → eol.bytes.length ≤ rest.length) :
    ∃ result, 2 < result ∧ findValues (slice mem before.length hi) httpLineEndians =
      some ⟨result, before.length + line.length, before.length + line.length + eol.bytes.length⟩ := by
  have hlen := congrArg List.length hmem
  simp only [List.length_append] at hlen
  obtain ⟨result, hresult, hfind⟩ := findFrom_lineEnd (slice mem before.length hi).cut eol
    (before.length + line.length) hrest fun hcut => by
      rw [slice_cut_eq (by omega), decide_eq_true_eq] at hcut
      have := hlong hcut
      rw [List.length_take]
      omega
  refine ⟨result, hresult, ?_⟩
  rw [findValues, slice_of_le before hmem hle, slice_start, findFrom_append _ _ hline, hfind]

end Line

/-- `findValues` finds the marker of an empty line behind a line that is followed by one. -/
theorem findValues_emptyLine (before : List UInt8) (hmem : mem = before ++ (eol.lines [line] ++ after))
    (hline : ∀ b ∈ line, b ≠ cr ∧ b ≠ lf) (hle : before.length + (eol.lines [line]).length ≤ hi) :
    ∃ result, result ≠ 0 ∧ ¬ 2 < result ∧ findValues (slice mem before.length hi) httpLineEndians =
      some ⟨result, before.length + line.length, before.length + (eol.lines [line]).length⟩ := by
  obtain ⟨more, hbytes⟩ := slice_bytes_append before hi (hmem.trans (List.append_assoc _ _ _).symm) hle
  obtain ⟨result, hne, hresult, hfind⟩ := findFrom_emptyLine (slice mem before.length hi).cut eol
    (before.length + line.length) more
  refine ⟨result, hne, hresult, ?_⟩
  rw [findValues, hbytes, LineEnd.lines_singleton, List.append_assoc, List.append_assoc, slice_start,
    findFrom_append _ _ hline, hfind, List.length_append, List.length_append, Nat.add_assoc]

/-- A text of lines that are not empty does not begin with a line end, unless there are none and it is long enough. -/
theorem not_bytes_prefix_take {texts : List (List UInt8)} (htexts : PlainLines texts)
    (hn : texts = [] → n < eol.bytes.length) : ¬ eol.bytes <+: (eol.lines texts ++ after).take n := by
  intro hpre
  cases texts with
  | nil =>
      have hle := hpre.length_le
      rw [List.length_take] at hle
      have := hn rfl
      omega
  | cons line texts =>
      obtain ⟨hne, hline⟩ := htexts line List.mem_cons_self
      obtain ⟨b, more, rfl⟩ := List.exists_cons_of_ne_nil hne
      obtain ⟨hcr, hlf⟩ := hline b List.mem_cons_self
      have hfirst := hpre.trans (List.take_prefix _ _)
      rw [LineEnd.lines_cons] at hfirst
      cases eol with
      | lineFeed => exact hlf (List.cons_prefix_cons.mp hfirst).1.symm
      | crLf => exact hcr (List.cons_prefix_cons.mp hfirst).1.symm

/-- `findValues` finds the end of a line in front of lines that are not empty, unless the window shows the empty line
behind it at once. -/
theorem findValues_of_lines (before : List UInt8) {texts : List (List UInt8)}
    (hmem : mem = before ++ (line ++ eol.bytes ++ (eol.lines texts ++ after)))
    (hline : ∀ b ∈ line, b ≠ cr ∧ b ≠ lf) (htexts : PlainLines texts)
    (hle : before.length + line.length + eol.bytes.length ≤ hi)
    (hnil : texts = [] → hi < before.length + line.length + (eol.bytes.length + eol.bytes.length)) :
    ∃ result, 2 < result ∧ findValues (slice mem before.length hi) httpLineEndians =
      some ⟨result, before.length + line.length, before.length + line.length + eol.bytes.length⟩ := by
  have hshort : texts = [] →
      hi - (before.length + line.length + eol.bytes.length) < eol.bytes.length := fun h => by
    have := hnil h
    omega
  have hlong := eol.length_bytes_le texts
  refine findValues_of_le before hmem hline hle (not_bytes_prefix_take htexts hshort) fun _ => ?_
  rw [List.length_append]
  omega

/-! ### Turns of the loop -/

variable {data : ReadBufferImpl} {methodEnd turns lineNo : ℕ}

/-- `lineLoop` answers 431 where the window does not show the end of the line. -/
theorem lineLoop_of_lt (before : List UInt8) (req : CRequest)
    (hmem : data.memory = before ++ (line ++ eol.bytes ++ rest)) (hline : ∀ b ∈ line, b ≠ cr ∧ b ≠ lf)
    (hle : data.dataPartLength ≤ data.memory.length)
    (hlt : data.dataPartLength < before.length + line.length + eol.bytes.length) :
    lineLoop data methodEnd (turns + 1) before.length lineNo req = some (431, req) := by
  have hfind : findValues (slice data.memory before.length data.head.stop) httpLineEndians = some .fail :=
    findValues_of_lt before hmem hline hle hlt
  rw [lineLoop, hfind]
  rfl

/-- `lineLoop` ends with a line that is followed by an empty one, before it reads the line. -/
theorem lineLoop_of_emptyLine (before : List UInt8) (req : CRequest)
    (hmem : data.memory = before ++ (eol.lines [line] ++ after)) (hline : ∀ b ∈ line, b ≠ cr ∧ b ≠ lf)
    (hle : before.length + (eol.lines [line]).length ≤ data.dataPartLength) :
    lineLoop data methodEnd (turns + 1) before.length lineNo req
      = some (0, { req with content := some (data.content (before.length + (eol.lines [line]).length)) }) := by
  obtain ⟨result, hne, hresult, hfind⟩ := findValues_emptyLine before hmem hline hle
  have hfind : findValues (slice data.memory before.length data.head.stop) httpLineEndians = _ := hfind
  rw [lineLoop, hfind]
  simp only [Option.bind_eq_bind, Option.bind_some, hne, hresult, if_false]
  rfl

end Http

end NavekFiber
