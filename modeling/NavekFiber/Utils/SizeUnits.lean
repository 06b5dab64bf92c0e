import NavekFiber.Utils.Options

/-! # Sizes with units

`get_bytes` reads the number with `stoul`, which throws for a number that does not fit into `size_t`, and
then scales it with a shift, which drops what does not fit. So a size is read as what it says, or refused,
exactly when the product fits or the number alone does not (`reads_iff`). -/

namespace NavekFiber

namespace Utils

open Regex

/-- The units of a size. -/
inductive SizeUnit
  /-- No unit. -/
  | none
  /-- `B`. -/
  | bytes
  /-- `K`. -/
  | kilo
  /-- `M`. -/
  | mega
  /-- `G`. -/
  | giga

namespace SizeUnit

/-- The text of a unit. -/
def text : SizeUnit → List UInt8
  | .none => []
  | .bytes => [66]
  | .kilo => [75]
  | .mega => [77]
  | .giga => [71]

/-- A unit as a power of two. -/
def exponent : SizeUnit → ℕ
  | .none | .bytes => 0
  | .kilo => 10
  | .mega => 20
  | .giga => 30

end SizeUnit

/-- A size is read as what it says when that fits into `size_t`, and refused otherwise. -/
def Reads (digits : List UInt8) (unit : SizeUnit) (defValue : UInt64) : Prop :=
  let size := decimalValue digits * 2 ^ unit.exponent
  (size < 2 ^ 64 → getBytes (digits ++ unit.text) defValue = .ok (UInt64.ofNat size)) ∧
    (2 ^ 64 ≤ size → ∃ exn, getBytes (digits ++ unit.text) defValue = .error exn)

variable {digits : List UInt8} {unit : SizeUnit}

/-- The first character of a unit, if there is one, is no digit and no white space. -/
theorem head_text (unit : SizeUnit) : ∀ c ∈ unit.text.head?, isDigit c ≠ true ∧ isSpace c ≠ true := by
  cases unit <;> decide

/-- A group that passes over one character remembers it. -/
theorem take_one (pos : ℕ) (c : UInt8) : [c].take (pos + 1 - pos) = [c] := by
  rw [Nat.add_sub_cancel_left]
  rfl

/-- Behind the digits, the regular expression finds the unit. -/
theorem exec_unit (unit : SizeUnit) (digits : List UInt8) (pos : ℕ) :
    ∃ stop, (cat [opt (group 2 (alt (char 71) (alt (char 77) (alt (char 75) (char 66)))))]).exec some
        ⟨pos, unit.text, [(1, digits)]⟩ = some stop ∧ stop.str 1 = digits ∧ stop.str 2 = unit.text := by
  cases unit with
  | none => exact ⟨⟨pos, [], [(1, digits)]⟩, rfl, rfl, rfl⟩
  | bytes => exact ⟨_, rfl, rfl, take_one pos 66⟩
  | kilo => exact ⟨_, rfl, rfl, take_one pos 75⟩
  | mega => exact ⟨_, rfl, rfl, take_one pos 77⟩
  | giga => exact ⟨_, rfl, rfl, take_one pos 71⟩

/-- `reBytes` finds the digits and the unit of a size as its two groups. -/
theorem regexSearch_reBytes (hnil : digits ≠ []) (hdigits : ∀ c ∈ digits, isDigit c = true) (unit : SizeUnit) :
    ∃ m, regexSearch reBytes (digits ++ unit.text) = some m ∧ m.str 1 = digits ∧ m.str 2 = unit.text := by
  obtain ⟨stop, hstop, hstr⟩ := exec_unit unit digits (0 + 0 + digits.length + 0)
  obtain ⟨first, rest, hfirst⟩ := List.exists_cons_of_ne_nil hnil
  have hspace : ∀ c ∈ (digits ++ unit.text).head?, isSpace c ≠ true := by
    rw [hfirst]
    rintro c ⟨⟩
    rw [(isDigit_ne (hdigits first (hfirst ▸ List.mem_cons_self))).1]
    exact Bool.false_ne_true
  refine ⟨⟨0, stop⟩, searchFrom_of_exec ?_, hstr⟩
  rw [reBytes, exec_cat_cons]
  -- There is no white space on either side of the digits.
  refine exec_star_greedy (u := []) (fun c hc => by cases hc) hspace ?_
  rw [exec_cat_cons]
  refine exec_group_plus hnil hdigits (fun c hc => (head_text unit c hc).1) ?_
  rw [exec_cat_cons]
  exact exec_star_greedy (u := []) (fun c hc => by cases hc) (fun c hc => (head_text unit c hc).2) hstop

/-- `std::stoul` reads a row of digits as its number when that fits, and else throws. -/
theorem stoul_digits (hnil : digits ≠ []) (hdigits : ∀ c ∈ digits, isDigit c = true) :
    stoul digits = if 2 ^ 64 ≤ decimalValue digits then .error (.stdException (bytes "stoul"))
      else .ok (UInt64.ofNat (decimalValue digits)) := by
  obtain ⟨first, rest, hfirst⟩ := List.exists_cons_of_ne_nil hnil
  obtain ⟨hspace, hminus, hplus⟩ := isDigit_ne (hdigits first (hfirst ▸ List.mem_cons_self))
  have hsign : splitSign (digits.dropWhile isSpace) = (false, digits) := by
    rw [hfirst, List.dropWhile_cons_of_neg (by rw [hspace]; exact Bool.false_ne_true), splitSign, if_neg hminus,
      if_neg hplus]
  have htake : digits.takeWhile isDigit = digits := List.takeWhile_eq_self_iff.mpr hdigits
  rw [stoul, hsign]
  simp only [htake, hnil, if_false, Bool.false_eq_true]

/-- `get_bytes` shifts the number of a size by its unit, if the number fits. -/
theorem getBytes_digits (hnil : digits ≠ []) (hdigits : ∀ c ∈ digits, isDigit c = true) (unit : SizeUnit)
    (defValue : UInt64) :
    getBytes (digits ++ unit.text) defValue =
      if 2 ^ 64 ≤ decimalValue digits then .error (.stdException (bytes "stoul"))
      else .ok (UInt64.ofNat (decimalValue digits) <<< UInt64.ofNat unit.exponent) := by
  obtain ⟨m, hsearch, hnumber, hunit⟩ := regexSearch_reBytes hnil hdigits unit
  rw [getBytes, if_neg (List.append_ne_nil_of_left_ne_nil hnil _), hsearch]
  simp only [hnumber, hunit, stoul_digits hnil hdigits]
  split
  · rfl
  · cases unit <;> rfl

/-- Shifting a number by a unit drops what does not fit into 64 bits. -/
theorem toNat_shift (n : ℕ) (unit : SizeUnit) :
    (UInt64.ofNat n <<< UInt64.ofNat unit.exponent).toNat = n * 2 ^ unit.exponent % 2 ^ 64 := by
  have hexponent : (UInt64.ofNat unit.exponent).toNat % 64 = unit.exponent := by cases unit <;> rfl
  rw [UInt64.toNat_shiftLeft, hexponent, Nat.shiftLeft_eq, UInt64.toNat_ofNat', Nat.mod_mul_mod]

/-- A size is read as what it says, or refused, exactly when it fits into `size_t` or its number alone does
not. -/
theorem reads_iff (digits : List UInt8) (unit : SizeUnit) (defValue : UInt64) (hnil : digits ≠ [])
    (hdigits : ∀ c ∈ digits, isDigit c = true) :
    Reads digits unit defValue ↔
      decimalValue digits * 2 ^ unit.exponent < 2 ^ 64 ∨ 2 ^ 64 ≤ decimalValue digits := by
  have hlarger : decimalValue digits ≤ decimalValue digits * 2 ^ unit.exponent :=
    Nat.le_mul_of_pos_right _ (Nat.two_pow_pos _)
  unfold Reads
  rw [getBytes_digits hnil hdigits]
  constructor
  · rintro ⟨-, hrefused⟩
    by_contra hnot
    obtain ⟨hsize, hnumber⟩ := not_or.mp hnot
    obtain ⟨exn, herror⟩ := hrefused (not_lt.mp hsize)
    rw [if_neg hnumber] at herror
    cases herror
  · rintro (hsize | hnumber)
    · refine ⟨fun _ => ?_, fun hle => absurd hsize (not_lt.mpr hle)⟩
      rw [if_neg (by omega), Except.ok.injEq, ← UInt64.toNat_inj, toNat_shift, UInt64.toNat_ofNat']
    · refine ⟨fun hsize => absurd (hnumber.trans hlarger) (not_le.mpr hsize), fun _ => ?_⟩
      rw [if_pos hnumber]
      exact ⟨_, rfl⟩

/-- The largest number of gigabytes that fits is read as what it says. -/
theorem reads_largest : Reads (bytes "17179869183") .giga 1048576 :=
  (reads_iff (bytes "17179869183") .giga 1048576 (by decide) (by decide)).mpr (Or.inl (by decide))

/-- One gigabyte more than the largest number that fits is read as zero. -/
theorem not_reads_next : ¬ Reads (bytes "17179869184") .giga 1048576 := by
  intro h
  obtain ⟨exn, herror⟩ := h.2 (by decide)
  rw [getBytes_digits (by decide) (by decide), if_neg (by decide)] at herror
  cases herror

end Utils

end NavekFiber
