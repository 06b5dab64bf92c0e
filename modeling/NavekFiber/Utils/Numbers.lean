import Mathlib.Data.List.DropRight
import NavekFiber.Machine.Bytes

/-! # Numbers in texts

`std::stoul` and `std::stoi` read the number that a text begins with, behind white space, and ignore what
stands behind it; `std::to_string` prints one. What is printed is read back (`stoul_of_trim`). -/

namespace NavekFiber

/-- What a handler throws. -/
inductive Exn
  /-- `RuntimeException`, which does not derive from `std::exception` publicly, with its text. -/
  | runtimeException (what : List UInt8)
  /-- Some `std::exception`, with its text. -/
  | stdException (what : List UInt8)
  deriving DecidableEq, Repr

/-- `isspace`. -/
def isSpace (b : UInt8) : Bool := b == 32 || (9 ≤ b && b ≤ 13)

/-- `isdigit`. -/
def isDigit (b : UInt8) : Bool := 48 ≤ b && b ≤ 57

/-- The number that digits stand for. -/
def decimalValue (digits : List UInt8) : ℕ :=
  digits.foldl (fun value digit => 10 * value + (digit.toNat - 48)) 0

/-- A text without a leading sign, and whether that was a minus. -/
def splitSign : List UInt8 → Bool × List UInt8
  | b :: rest => if b = 45 then (true, rest) else if b = 43 then (false, rest) else (false, b :: rest)
  | [] => (false, [])

/-- `std::stoul`: the number that the text begins with, behind white space and a sign. It throws
`std::invalid_argument` without a digit and `std::out_of_range` for a number that does not fit; a negative
number is taken modulo `2 ^ 64`. -/
def stoul (text : List UInt8) : Except Exn UInt64 :=
  let (negative, rest) := splitSign (text.dropWhile isSpace)
  let digits := rest.takeWhile isDigit
  if digits = [] then .error (.stdException (bytes "stoul"))
  else if 2 ^ 64 ≤ decimalValue digits then .error (.stdException (bytes "stoul"))
  else
    let value := UInt64.ofNat (decimalValue digits)
    .ok (if negative then 0 - value else value)

/-- `std::stoi`. It throws as `std::stoul` does, for a number that is no `int`. -/
def stoi (text : List UInt8) : Except Exn ℤ :=
  let (negative, rest) := splitSign (text.dropWhile isSpace)
  let digits := rest.takeWhile isDigit
  if digits = [] then .error (.stdException (bytes "stoi"))
  else
    let value : ℤ := if negative then -decimalValue digits else decimalValue digits
    if value < -2 ^ 31 ∨ 2 ^ 31 ≤ value then .error (.stdException (bytes "stoi")) else .ok value

/-- `std::stol`. It throws as `std::stoul` does, for a number that is no `long`. -/
def stol (text : List UInt8) : Except Exn ℤ :=
  let (negative, rest) := splitSign (text.dropWhile isSpace)
  let digits := rest.takeWhile isDigit
  if digits = [] then .error (.stdException (bytes "stol"))
  else
    let value : ℤ := if negative then -decimalValue digits else decimalValue digits
    if value < -2 ^ 63 ∨ 2 ^ 63 ≤ value then .error (.stdException (bytes "stol")) else .ok value

/-- `std::to_string`. -/
def numberText (val : ℤ) : List UInt8 := bytes (toString val)

namespace Utils

/-- `utils::trim`: the text without the white space around it. -/
def trim (s : List UInt8) : List UInt8 := (s.dropWhile isSpace).rdropWhile isSpace

end Utils

open Utils

/-! ### Reading back what is printed -/

/-- `std::to_string` of a natural number is its row of decimal digits. -/
theorem numberText_natCast (n : ℕ) : numberText n = (Nat.toDigits 10 n).map Char.toUInt8 := by
  rw [numberText, bytes, Int.toString_eq_repr]
  show List.map _ (Nat.repr n).toList = _
  rw [Nat.toList_repr]

theorem numberText_ne_nil (n : ℕ) : numberText n ≠ [] := by
  rw [numberText_natCast, Ne, List.map_eq_nil_iff]
  exact Nat.toDigits_ne_nil

/-- The byte of a digit is a digit, and has its value. -/
theorem toNat_toUInt8_of_isDigit {c : Char} (hc : c.isDigit = true) :
    c.toUInt8.toNat = c.toNat ∧ 48 ≤ c.toNat ∧ c.toNat ≤ 57 := by
  rw [Char.isDigit, Bool.and_eq_true, decide_eq_true_eq, decide_eq_true_eq] at hc
  have hlow : 48 ≤ c.toNat := UInt32.le_iff_toNat_le.mp hc.1
  have hhigh : c.toNat ≤ 57 := UInt32.le_iff_toNat_le.mp hc.2
  refine ⟨?_, hlow, hhigh⟩
  have hmod : c.toUInt8.toNat = c.toNat % 256 := rfl
  omega

theorem isDigit_of_mem_numberText {n : ℕ} : ∀ b ∈ numberText n, isDigit b = true := by
  intro b hb
  rw [numberText_natCast] at hb
  obtain ⟨c, hc, rfl⟩ := List.mem_map.mp hb
  obtain ⟨heq, hlow, hhigh⟩ :=
    toNat_toUInt8_of_isDigit (Nat.isDigit_of_mem_toDigits (by decide) (by decide) hc)
  rw [isDigit, Bool.and_eq_true, decide_eq_true_eq, decide_eq_true_eq, UInt8.le_iff_toNat_le,
    UInt8.le_iff_toNat_le, heq]
  exact ⟨hlow, hhigh⟩

/-- `decimalValue` of the digits of a number is the number. -/
theorem decimalValue_numberText (n : ℕ) : decimalValue (numberText n) = n := by
  have hfold : ∀ (digits : List Char) (value : ℕ), (∀ c ∈ digits, c.isDigit = true) →
      (digits.map Char.toUInt8).foldl (fun value digit => 10 * value + (digit.toNat - 48)) value =
        Nat.ofDigitChars 10 digits value := by
    intro digits
    induction digits with
    | nil => exact fun value _ => rfl
    | cons c digits ih =>
        intro value hdigits
        obtain ⟨heq, -⟩ := toNat_toUInt8_of_isDigit (hdigits c List.mem_cons_self)
        rw [List.map_cons, List.foldl_cons, Nat.ofDigitChars_cons, heq,
          ih _ fun c hc => hdigits c (List.mem_cons_of_mem _ hc)]
        rfl
  rw [decimalValue, numberText_natCast,
    hfold _ 0 fun c hc => Nat.isDigit_of_mem_toDigits (by decide) (by decide) hc]
  exact Nat.ofDigitChars_toDigits (by decide) (by decide)

/-- A digit is neither white space nor a sign. -/
theorem isDigit_ne {b : UInt8} (hb : isDigit b = true) : isSpace b = false ∧ b ≠ 45 ∧ b ≠ 43 := by
  rw [isDigit, Bool.and_eq_true, decide_eq_true_eq, decide_eq_true_eq, UInt8.le_iff_toNat_le,
    UInt8.le_iff_toNat_le] at hb
  have hlow : 48 ≤ b.toNat := hb.1
  refine ⟨?_, fun h => ?_, fun h => ?_⟩
  · rw [isSpace, Bool.or_eq_false_iff, Bool.and_eq_false_iff, beq_eq_false_iff_ne]
    refine ⟨fun h => ?_, Or.inr ?_⟩
    · rw [h] at hlow
      exact absurd hlow (by decide)
    · rw [decide_eq_false_iff_not, UInt8.le_iff_toNat_le]
      exact not_le.mpr (lt_of_lt_of_le (by decide) hlow)
  · rw [h] at hlow
    exact absurd hlow (by decide)
  · rw [h] at hlow
    exact absurd hlow (by decide)

/-- The digits at the front of digits and white space are the digits. -/
theorem takeWhile_isDigit_append {digits blanks : List UInt8} (hdigits : ∀ b ∈ digits, isDigit b = true)
    (hblanks : ∀ b ∈ blanks, isSpace b = true) : (digits ++ blanks).takeWhile isDigit = digits := by
  rw [List.takeWhile_append_of_pos hdigits]
  cases blanks with
  | nil => simp
  | cons b blanks =>
      have hb : ¬ isDigit b = true := by
        intro hdigit
        have hspace := hblanks b List.mem_cons_self
        rw [(isDigit_ne hdigit).1] at hspace
        cases hspace
      rw [List.takeWhile_cons_of_neg hb, List.append_nil]

/-- A text without the white space in front of it is what `trim` leaves, with white space behind it. -/
theorem exists_blanks_of_trim {text inner : List UInt8} (h : trim text = inner) :
    ∃ blanks, text.dropWhile isSpace = inner ++ blanks ∧ ∀ b ∈ blanks, isSpace b = true := by
  refine ⟨(text.dropWhile isSpace).rtakeWhile isSpace, ?_, fun b hb => List.mem_rtakeWhile_imp hb⟩
  rw [← h, trim, List.rdropWhile_append_rtakeWhile]

/-- `std::stoul` reads a printed number back, with white space around it. -/
theorem stoul_of_trim {text : List UInt8} {val : UInt64} (h : trim text = numberText val.toNat) :
    stoul text = .ok val := by
  obtain ⟨blanks, htext, hblanks⟩ := exists_blanks_of_trim h
  obtain ⟨b, rest, hfirst⟩ := List.exists_cons_of_ne_nil (numberText_ne_nil val.toNat)
  obtain ⟨-, hminus, hplus⟩ := isDigit_ne (isDigit_of_mem_numberText b (hfirst ▸ List.mem_cons_self))
  have hsign : splitSign (text.dropWhile isSpace) = (false, numberText val.toNat ++ blanks) := by
    rw [htext, hfirst, List.cons_append, splitSign, if_neg hminus, if_neg hplus]
  have hvalue : ¬ 2 ^ 64 ≤ val.toNat := not_le.mpr val.toNat_lt
  rw [stoul, hsign]
  simp only [takeWhile_isDigit_append isDigit_of_mem_numberText hblanks, numberText_ne_nil,
    decimalValue_numberText, hvalue, if_false, Bool.false_eq_true, UInt64.ofNat_toNat]

/-- `trim` leaves a text without white space as it is. -/
theorem trim_of_not_space {text : List UInt8} (h : ∀ b ∈ text, isSpace b ≠ true) : trim text = text := by
  have hdrop : ∀ text : List UInt8, (∀ b ∈ text, isSpace b ≠ true) → text.dropWhile isSpace = text := by
    intro text htext
    cases text with
    | nil => rfl
    | cons b rest => exact List.dropWhile_cons_of_neg (htext b List.mem_cons_self)
  rw [trim, hdrop _ h, List.rdropWhile, hdrop _ fun b hb => h b (List.mem_reverse.mp hb), List.reverse_reverse]

/-- A printed number has no white space in it. -/
theorem isSpace_ne_of_mem_numberText {n : ℕ} : ∀ b ∈ numberText n, isSpace b ≠ true := by
  intro b hb
  rw [(isDigit_ne (isDigit_of_mem_numberText b hb)).1]
  exact Bool.false_ne_true

theorem trim_numberText (n : ℕ) : trim (numberText n) = numberText n :=
  trim_of_not_space isSpace_ne_of_mem_numberText

theorem stoul_numberText (val : UInt64) : stoul (numberText val.toNat) = .ok val :=
  stoul_of_trim (trim_numberText _)

/-- What `std::stoul` throws is a `std::exception`. -/
theorem exists_eq_of_stoul_eq_error {text : List UInt8} {exn : Exn} (h : stoul text = .error exn) :
    ∃ what, exn = .stdException what := by
  rw [stoul] at h
  simp only at h
  split at h
  · exact ⟨_, (Except.error.inj h).symm⟩
  · split at h
    · exact ⟨_, (Except.error.inj h).symm⟩
    · cases h

/-! ### White space around a text -/

variable {u w w' : List UInt8}

/-- A text of nothing but white space. -/
def Blank (w : List UInt8) : Prop := ∀ b ∈ w, isSpace b = true

instance (w : List UInt8) : Decidable (Blank w) := inferInstanceAs (Decidable (∀ b ∈ w, isSpace b = true))

theorem rdropWhile_append_blank (hw : Blank w) : (u ++ w).rdropWhile isSpace = u.rdropWhile isSpace := by
  rw [List.rdropWhile, List.reverse_append,
    List.dropWhile_append_of_pos fun b hb => hw b (List.mem_reverse.mp hb)]
  rfl

theorem getLast?_rdropWhile (text : List UInt8) : ∀ b ∈ (text.rdropWhile isSpace).getLast?, isSpace b ≠ true := by
  intro b hb
  obtain ⟨front, hlast⟩ := List.getLast?_eq_some_iff.mp hb
  have hnot := List.rdropWhile_last_not isSpace text (by rw [hlast]; simp)
  simpa [hlast] using hnot

/-- `trim` of a text is not changed by white space around the text. -/
theorem trim_blanks (hw : Blank w) (hw' : Blank w') : trim (w ++ (u ++ w')) = trim u := by
  rw [trim, trim, List.dropWhile_append_of_pos hw, List.dropWhile_append]
  split
  · rename_i hnil
    rw [List.dropWhile_eq_nil_iff.mpr hw', List.isEmpty_iff.mp hnil]
  · exact rdropWhile_append_blank hw'

/-- `trim` keeps a character that is no white space, and cuts off white space in front of it and behind it. -/
theorem trim_append_cons {b : UInt8} (hb : isSpace b ≠ true) (u v : List UInt8) :
    trim (u ++ b :: v) = u.dropWhile isSpace ++ b :: v.rdropWhile isSpace := by
  have hfront : (u ++ b :: v).dropWhile isSpace = u.dropWhile isSpace ++ b :: v := by
    rw [List.dropWhile_append]
    split
    · rename_i hnil
      rw [List.isEmpty_iff.mp hnil, List.dropWhile_cons_of_neg hb, List.nil_append]
    · rfl
  have hback : (b :: v).reverse.dropWhile isSpace = v.reverse.dropWhile isSpace ++ [b] := by
    rw [List.reverse_cons, List.dropWhile_append]
    split
    · rename_i hnil
      rw [List.isEmpty_iff.mp hnil, List.dropWhile_cons_of_neg hb, List.nil_append]
    · rfl
  rw [trim, hfront, List.rdropWhile, List.reverse_append, List.dropWhile_append, hback, List.rdropWhile]
  simp

theorem trim_concat {b : UInt8} (hb : isSpace b ≠ true) : trim (u ++ [b]) = u.dropWhile isSpace ++ [b] :=
  trim_append_cons hb u []

/-- A text is what `trim` leaves of it, with white space in front of it and behind it. -/
theorem exists_blanks (text : List UInt8) :
    ∃ w w', text = w ++ (trim text ++ w') ∧ Blank w ∧ Blank w' ∧
      ∀ b ∈ (trim text ++ w').head?, isSpace b ≠ true := by
  obtain ⟨w', htext, hw'⟩ : ∃ blanks, text.dropWhile isSpace = trim text ++ blanks ∧ Blank blanks :=
    exists_blanks_of_trim rfl
  refine ⟨text.takeWhile isSpace, w', ?_, fun b hb => List.mem_takeWhile_imp hb, hw', ?_⟩
  · rw [← htext, List.takeWhile_append_dropWhile]
  · intro b hb
    rw [← htext] at hb
    have hnot := List.head?_dropWhile_not isSpace text
    rw [Option.mem_def.mp hb] at hnot
    simpa using hnot

/-! ### Runs of a class -/

/-- A run of a class ends where a character outside of the class follows. -/
theorem takeWhile_append_of_head {p : UInt8 → Bool} {u w : List UInt8} (hu : ∀ c ∈ u, p c = true)
    (hw : ∀ c ∈ w.head?, p c = false) : (u ++ w).takeWhile p = u ∧ (u ++ w).dropWhile p = w := by
  rw [List.takeWhile_append_of_pos hu, List.dropWhile_append_of_pos hu]
  cases w with
  | nil => simp
  | cons c w =>
      have hc := hw c rfl
      simp [List.takeWhile_cons_of_neg, List.dropWhile_cons_of_neg, hc]

/-- Behind a run of a class comes no character of the class. -/
theorem head?_dropWhile_eq_false {p : UInt8 → Bool} {w : List UInt8} : ∀ c ∈ (w.dropWhile p).head?, p c = false := by
  intro c hc
  have hnot := List.head?_dropWhile_not p w
  rw [Option.mem_def.mp hc] at hnot
  simpa using hnot

end NavekFiber
