import Mathlib.Data.Nat.Digits.Defs
import Mathlib.Data.Nat.Digits.Lemmas
import Mathlib.Data.UInt

/-! # Byte strings

Memory is read as bytes, `UInt8`. A byte string written as text in the source is `bytes "…"`. The
number that a machine word assembles from bytes is `wordOf`, lowest byte first; on strings of one
length it loses nothing (`wordOf_inj`). -/

/-- The bytes of an ASCII text. -/
def bytes (text : String) : List UInt8 := text.toList.map Char.toUInt8

/-- A condition on the bytes of a text is checked along the text, not on all 256 bytes. -/
instance decidableForallMemText {p : UInt8 → Prop} [DecidablePred p] (text : List UInt8) :
    Decidable (∀ b ∈ text, p b) :=
  text.decidableBAll p

/-- A condition on the first byte of a text is checked on that byte. -/
instance decidableForallMemFirst {p : UInt8 → Prop} [DecidablePred p] (first : Option UInt8) :
    Decidable (∀ b ∈ first, p b) :=
  first.decidableForallMem

/-- The number with the given bytes, lowest first. -/
def wordOf (word : List UInt8) : ℕ := Nat.ofDigits 256 (word.map UInt8.toNat)

namespace WordOf

variable {word word' : List UInt8} {c : UInt8}

/-- Every byte is a digit to base 256. -/
theorem digit_lt (word : List UInt8) : ∀ d ∈ word.map UInt8.toNat, d < 256 := by
  intro d hd
  obtain ⟨c, -, rfl⟩ := List.mem_map.mp hd
  exact c.toNat_lt

/-- `wordOf` of a word is its first byte, the lowest, and 256 times `wordOf` of the rest. -/
theorem wordOf_cons : wordOf (c :: word) = c.toNat + 256 * wordOf word := by
  simp [wordOf, Nat.ofDigits_cons]

/-- A word of `n` bytes is below `256 ^ n`. -/
theorem wordOf_lt (word : List UInt8) : wordOf word < 256 ^ word.length := by
  have h := Nat.ofDigits_lt_base_pow_length (by decide : 1 < 256) (digit_lt word)
  rwa [List.length_map] at h

/-- Cutting a number to `n` bytes keeps its `n` lowest bytes. -/
theorem wordOf_mod (word : List UInt8) (n : ℕ) : wordOf word % 256 ^ n = wordOf (word.take n) := by
  rw [wordOf, Nat.ofDigits_mod_pow_eq_ofDigits_take n (by decide) _ (digit_lt word), ← List.map_take, wordOf]

/-- Words of one length with the same number have the same bytes. -/
theorem wordOf_inj (hlen : word.length = word'.length) (h : wordOf word = wordOf word') :
    word = word' := by
  have hmap := Nat.ofDigits_inj_of_len_eq (by decide : 1 < 256)
    (by rwa [List.length_map, List.length_map]) (digit_lt word) (digit_lt word') h
  exact (List.map_inj_right fun _ _ heq => UInt8.toNat_inj.mp heq).mp hmap

end WordOf
