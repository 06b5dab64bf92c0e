import Mathlib.Data.List.Basic
import Mathlib.Data.UInt

/-! # Memory that ends somewhere

A block of memory is the list of its mapped bytes; reading an address at or past its end is a fault.
A function that scans `[lo, hi)` gets a `Slice`: the bytes of that range that are mapped, and whether
the mapping ends before `hi`. Cutting the memory short turns every read past the cut into a fault, so
a scan that does not fault on the memory cut at `n` reads no byte at offset `n` or beyond.

* `slice`, `Slice.Extends`: ranges, and what more memory does to them (`slice_extends`).
* `Below`: one computation faults where the other may go on.
* `Span`: a pair of pointers into the memory, with the text between them. -/

/-- A range of memory: where it starts, the bytes in it, and whether memory ends before it does. -/
structure Slice where
  /-- The offset of the first byte. -/
  start : ℕ
  /-- The mapped bytes of the range. -/
  bytes : List UInt8
  /-- Memory ends before the range does. -/
  cut : Bool
  deriving DecidableEq, Repr

/-- The range `[lo, hi)` of a memory. -/
def slice (mem : List UInt8) (lo hi : ℕ) : Slice :=
  ⟨lo, (mem.take hi).drop lo, decide (lo < hi ∧ mem.length < hi)⟩

namespace Slice

/-- The second range is the first one, or the first one with more of it mapped. -/
def Extends (s s' : Slice) : Prop :=
  s = s' ∨ s.start = s'.start ∧ s.cut = true ∧ ∃ more, s'.bytes = s.bytes ++ more

end Slice

variable {mem mem' : List UInt8} {lo hi : ℕ}

@[simp] theorem slice_start : (slice mem lo hi).start = lo := rfl

@[simp] theorem slice_bytes : (slice mem lo hi).bytes = (mem.take hi).drop lo := rfl

/-- A range inside the memory is mapped to its end. -/
theorem slice_cut_of_le (lo : ℕ) (h : hi ≤ mem.length) : (slice mem lo hi).cut = false := by
  simp only [slice, decide_eq_false_iff_not]
  omega

/-- A non-empty range that reaches past the end of the memory is cut there. -/
theorem slice_cut_of_lt (hlo : lo < hi) (h : mem.length < hi) : (slice mem lo hi).cut = true := by
  simp [slice, hlo, h]

/-- A range that starts in the memory is mapped to its end exactly when the memory reaches so far. -/
theorem slice_cut_eq (hlo : lo ≤ mem.length) :
    (slice mem lo hi).cut = decide (mem.length < hi) := by
  simp only [slice, decide_eq_decide]
  omega

/-- A range that reaches past the memory holds the rest of it. -/
theorem slice_bytes_of_le (h : mem.length ≤ hi) : (slice mem lo hi).bytes = mem.drop lo := by
  rw [slice_bytes, List.take_of_length_le h]

/-- Advancing the start of a range by `k` drops its first `k` bytes. -/
theorem slice_bytes_add (k : ℕ) : (slice mem (lo + k) hi).bytes = (slice mem lo hi).bytes.drop k := by
  rw [slice_bytes, slice_bytes, List.drop_drop]

/-- A range inside a memory is the same in any longer one. -/
theorem slice_eq_of_le (lo : ℕ) (hmem : mem <+: mem') (h : hi ≤ mem.length) :
    slice mem lo hi = slice mem' lo hi := by
  have hcut' : (slice mem' lo hi).cut = false := slice_cut_of_le lo (h.trans hmem.length_le)
  obtain ⟨more, rfl⟩ := hmem
  rw [Slice.mk.injEq]
  refine ⟨rfl, ?_, ?_⟩
  · rw [slice_bytes, slice_bytes, List.take_append_of_le_length h]
  · exact (slice_cut_of_le lo h).trans hcut'.symm

/-- An empty range holds nothing. -/
theorem slice_of_ge (h : hi ≤ lo) : slice mem lo hi = ⟨lo, [], false⟩ := by
  rw [slice, Slice.mk.injEq]
  refine ⟨rfl, List.drop_of_length_le ?_, ?_⟩
  · rw [List.length_take]
    omega
  · rw [decide_eq_false_iff_not]
    omega

/-- Mapping more memory extends its ranges. -/
theorem slice_extends (hmem : mem <+: mem') : (slice mem lo hi).Extends (slice mem' lo hi) := by
  by_cases hlo : hi ≤ lo
  · exact Or.inl (by rw [slice_of_ge hlo, slice_of_ge hlo])
  · by_cases h : hi ≤ mem.length
    · exact Or.inl (slice_eq_of_le lo hmem h)
    · refine Or.inr ⟨rfl, slice_cut_of_lt (not_le.mp hlo) (not_le.mp h), ?_⟩
      obtain ⟨more, rfl⟩ := hmem
      rw [slice_bytes_of_le (not_le.mp h).le, slice_bytes, List.take_append,
        List.take_of_length_le (not_le.mp h).le]
      by_cases hend : lo ≤ mem.length
      · exact ⟨more.take (hi - mem.length), List.drop_append_of_le_length hend⟩
      · rw [List.drop_of_length_le (not_le.mp hend).le]
        exact ⟨_, rfl⟩

/-- Where the first computation does not fault, the second one has the same result. -/
def Below {α : Type} (x y : Option α) : Prop := ∀ a, x = some a → y = some a

namespace Below

variable {α β : Type} {x y : Option α}

/-- A computation is below itself: `Below` is reflexive. -/
@[refl] theorem refl (x : Option α) : Below x x := fun _ => id

/-- When the first computations are below each other, and so is what follows on each of their results, then so are the
sequences. -/
theorem bind {f g : α → Option β} (hxy : Below x y) (hfg : ∀ a, Below (f a) (g a)) :
    Below (x >>= f) (y >>= g) := by
  intro b hb
  obtain ⟨a, ha, hfa⟩ := Option.bind_eq_some_iff.mp hb
  exact Option.bind_eq_some_iff.mpr ⟨a, hxy a ha, hfg a b hfa⟩

end Below

/-- A pair of pointers into the memory. -/
structure Span where
  /-- The offset of the first byte. -/
  start : ℕ
  /-- The offset behind the last byte. -/
  stop : ℕ
  deriving DecidableEq, Repr

/-- The text between the two pointers. -/
def Span.text (mem : List UInt8) (span : Span) : List UInt8 := (mem.take span.stop).drop span.start

/-- A text inside a memory is the same in any longer one. -/
theorem Span.text_eq_of_le {span : Span} (hmem : mem <+: mem') (h : span.stop ≤ mem.length) :
    span.text mem = span.text mem' := by
  have hslice := congrArg Slice.bytes (slice_eq_of_le span.start hmem h)
  exact hslice
