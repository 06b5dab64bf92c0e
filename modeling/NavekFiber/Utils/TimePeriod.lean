import NavekFiber.Machine.Regex
import NavekFiber.Utils.Numbers

/-! # Periods of time

`time_period` reads hours, minutes and seconds with a regular expression all of whose parts are optional. So
the search always ends at the beginning of the text, and what does not stand there is read as nothing: the
text is said here to be taken apart from the left, without the expression (`timePeriod_eq`). -/

namespace NavekFiber

namespace Utils

open Regex

/-- `(?:\s*(\d+)\s*u)?`, with this number and this unit. -/
def rePart (n : ℕ) (unit : UInt8) : Regex UInt8 :=
  opt (cat [star true (one isSpace), group n (plus (one isDigit)), star true (one isSpace), char unit])

/-- `(?:\s*(\d+)\s*h)?(?:\s*(\d+)\s*m)?(?:\s*(\d+)\s*s)?`. -/
def rePeriod : Regex UInt8 := cat [rePart 1 104, rePart 2 109, rePart 3 115]

/-- The seconds of one part of a period; a part that is not there has none. -/
def partSeconds (digits : List UInt8) (scale : ℤ) : Except Exn ℤ :=
  if digits = [] then .ok 0 else do return (← stol digits) * scale

/-- The seconds of the three parts. C++ leaves open what happens when a product or the sum overflows `long`; here
the arithmetic is modulo `2 ^ 64`. -/
def periodSeconds (h m s : List UInt8) : Except Exn UInt64 := do
  return UInt64.ofInt ((← partSeconds h 3600) + (← partSeconds m 60) + (← partSeconds s 1))

/-- `option::time_period`. -/
def timePeriod (value : List UInt8) : Except Exn UInt64 :=
  if value = [] then .ok 0
  else
    match regexSearch rePeriod value with
    | some found => periodSeconds (found.str 1) (found.str 2) (found.str 3)
    | none => .ok 0

/-! ### Taking a text apart -/

/-- A number with its unit at the front of a text, and what stands behind it. -/
def takePart (unit : UInt8) (text : List UInt8) : Option (List UInt8 × List UInt8) :=
  let number := text.dropWhile isSpace
  let digits := number.takeWhile isDigit
  let rest := (number.dropWhile isDigit).dropWhile isSpace
  if digits ≠ [] ∧ rest.head? = some unit then some (digits, rest.tail) else none

/-- The digits of a part at the front of a text, none when it is not there, and what stands behind it. -/
def splitPart (unit : UInt8) (text : List UInt8) : List UInt8 × List UInt8 :=
  (takePart unit text).getD ([], text)

/-- A character that ends a number: it is neither a digit nor white space. -/
def EndsNumber (unit : UInt8) : Prop := isDigit unit = false ∧ isSpace unit = false

instance (unit : UInt8) : Decidable (EndsNumber unit) := inferInstanceAs (Decidable (_ ∧ _))

variable {unit : UInt8} {text digits rest w w' : List UInt8} {n : ℕ}

/-- A row of digits does not begin with white space. -/
theorem isSpace_head?_digits (hnil : digits ≠ []) (hdigits : ∀ b ∈ digits, isDigit b = true) (v : List UInt8) :
    ∀ b ∈ (digits ++ v).head?, isSpace b = false := by
  intro b hb
  obtain ⟨first, more, rfl⟩ := List.exists_cons_of_ne_nil hnil
  obtain rfl : first = b := by simpa using hb
  exact (isDigit_ne (hdigits first List.mem_cons_self)).1

/-- White space and a unit do not begin with a digit. -/
theorem isDigit_head?_unit (hunit : EndsNumber unit) (hw : Blank w) (v : List UInt8) :
    ∀ b ∈ (w ++ unit :: v).head?, isDigit b = false := by
  intro b hb
  cases w with
  | nil =>
      obtain rfl : unit = b := by simpa using hb
      exact hunit.1
  | cons c w =>
      obtain rfl : c = b := by simpa using hb
      by_contra hdigit
      have hspace := hw c List.mem_cons_self
      rw [(isDigit_ne (by simpa using hdigit)).1] at hspace
      cases hspace

/-- A unit is no white space. -/
theorem isSpace_head?_unit (hunit : EndsNumber unit) (v : List UInt8) :
    ∀ b ∈ (unit :: v).head?, isSpace b = false := by
  intro b hb
  obtain rfl : unit = b := by simpa using hb
  exact hunit.2

/-- `takePart` takes off a number with white space around it and its unit behind it. -/
theorem takePart_append (hunit : EndsNumber unit) (hw : Blank w) (hw' : Blank w') (hnil : digits ≠ [])
    (hdigits : ∀ b ∈ digits, isDigit b = true) (rest : List UInt8) :
    takePart unit (w ++ (digits ++ (w' ++ unit :: rest))) = some (digits, rest) := by
  have hnumber := (takeWhile_append_of_head hw (isSpace_head?_digits hnil hdigits (w' ++ unit :: rest))).2
  obtain ⟨htake, hdrop⟩ := takeWhile_append_of_head hdigits (isDigit_head?_unit hunit hw' rest)
  have hbehind := (takeWhile_append_of_head hw' (isSpace_head?_unit hunit rest)).2
  simp only [takePart, hnumber, htake, hdrop, hbehind]
  simp [hnil]

/-- What `takePart` takes off is a number with white space around it and its unit behind it. -/
theorem exists_of_takePart (h : takePart unit text = some (digits, rest)) :
    ∃ w w', text = w ++ (digits ++ (w' ++ unit :: rest)) ∧ Blank w ∧ Blank w' ∧ digits ≠ [] ∧
      ∀ b ∈ digits, isDigit b = true := by
  simp only [takePart] at h
  split at h
  · rename_i hpart
    obtain ⟨rfl, rfl⟩ := Prod.mk.inj (Option.some.inj h)
    obtain ⟨hnil, hhead⟩ := hpart
    refine ⟨text.takeWhile isSpace, ((text.dropWhile isSpace).dropWhile isDigit).takeWhile isSpace, ?_,
      fun b hb => List.mem_takeWhile_imp hb, fun b hb => List.mem_takeWhile_imp hb, hnil,
      fun b hb => List.mem_takeWhile_imp hb⟩
    rw [List.cons_head?_tail hhead]
    simp only [List.takeWhile_append_dropWhile]
  · cases h

/-! ### What the expression matches -/

variable {k : Cursor UInt8 → Option (Cursor UInt8)} {pos : ℕ} {groups : List (ℕ × List UInt8)}

/-- `rePart` matches the part that `takePart` takes off, when the rest matches behind it. -/
theorem exec_rePart_of_takePart (n pos : ℕ) (groups : List (ℕ × List UInt8)) (hunit : EndsNumber unit)
    (h : takePart unit text = some (digits, rest)) (hk : ∀ t, (k t).isSome) :
    ∃ pos', (rePart n unit).exec k ⟨pos, text, groups⟩ = k ⟨pos', rest, (n, digits) :: groups⟩ := by
  obtain ⟨w, w', rfl, hw, hw', hnil, hdigits⟩ := exists_of_takePart h
  refine ⟨pos + w.length + digits.length + w'.length + 1, ?_⟩
  obtain ⟨stop, hstop⟩ := Option.isSome_iff_exists.mp
    (hk ⟨pos + w.length + digits.length + w'.length + 1, rest, (n, digits) :: groups⟩)
  rw [rePart, opt, exec_alt, hstop]
  refine Option.or_eq_some_iff.mpr (Or.inl ?_)
  -- Each class goes as far as it can.
  refine exec_star_greedy hw (fun b hb => ?_) ?_
  · rw [isSpace_head?_digits hnil hdigits _ b hb]
    exact Bool.false_ne_true
  refine exec_group_plus hnil hdigits (fun b hb => ?_) ?_
  · rw [isDigit_head?_unit hunit hw' rest b hb]
    exact Bool.false_ne_true
  refine exec_star_greedy hw' (fun b hb => ?_) ?_
  · rw [isSpace_head?_unit hunit rest b hb]
    exact Bool.false_ne_true
  rw [exec_cat_cons, exec_char_cons, if_pos rfl]
  exact hstop

/-- `rePart` matches nothing where `takePart` takes nothing off. -/
theorem exec_rePart_of_none (hunit : EndsNumber unit) (h : takePart unit text = none) :
    (rePart n unit).exec k ⟨pos, text, groups⟩ = k ⟨pos, text, groups⟩ := by
  rw [rePart, opt, exec_alt]
  have hnone : (cat [star true (one isSpace), group n (plus (one isDigit)), star true (one isSpace), char unit]).exec
      k ⟨pos, text, groups⟩ = none := by
    rw [Option.eq_none_iff_forall_not_mem]
    intro stop hstop
    obtain ⟨w, number, hsplit, hw, hstop⟩ := exists_of_exec_star hstop
    obtain ⟨digits, behind, hdigitsSplit, hnil, hdigits, hstop⟩ := exists_of_exec_group_plus hstop
    obtain ⟨w', rest, hrest, hw', hstop⟩ := exists_of_exec_star hstop
    obtain ⟨c, rest', hc, hunitEq, -⟩ := exists_of_exec_one hstop
    obtain rfl : c = unit := by simpa using hunitEq
    obtain rfl : rest = c :: rest' := hc
    obtain rfl : behind = w' ++ c :: rest' := hrest
    obtain rfl : number = digits ++ (w' ++ c :: rest') := hdigitsSplit
    obtain rfl : text = w ++ (digits ++ (w' ++ c :: rest')) := hsplit
    rw [takePart_append hunit hw hw' hnil hdigits] at h
    cases h
  rw [hnone, Option.none_or]
  rfl

/-- `rePart` takes one part off the text as `splitPart` does, and remembers its digits if it is there. -/
theorem exec_rePart (n : ℕ) (hunit : EndsNumber unit) (hk : ∀ t, (k t).isSome) (s : Cursor UInt8) :
    ∃ pos, (rePart n unit).exec k s = k ⟨pos, (splitPart unit s.rest).2,
      if (splitPart unit s.rest).1 = [] then s.groups else (n, (splitPart unit s.rest).1) :: s.groups⟩ := by
  obtain ⟨pos, text, groups⟩ := s
  cases h : takePart unit text with
  | none =>
      have hsplit : splitPart unit text = ([], text) := by rw [splitPart, h, Option.getD_none]
      refine ⟨pos, ?_⟩
      simp only [hsplit, if_true]
      exact exec_rePart_of_none hunit h
  | some part =>
      have hsplit : splitPart unit text = part := by rw [splitPart, h, Option.getD_some]
      obtain ⟨digits, rest⟩ := part
      obtain ⟨-, -, -, -, -, hnil, -⟩ := exists_of_takePart h
      obtain ⟨pos', hexec⟩ := exec_rePart_of_takePart n pos groups hunit h hk
      refine ⟨pos', ?_⟩
      simp only [hsplit, if_neg hnil]
      exact hexec

/-- `rePart` matches wherever what follows it does, since the part is optional. -/
theorem isSome_exec_rePart (n : ℕ) (hunit : EndsNumber unit) (hk : ∀ t, (k t).isSome) (s : Cursor UInt8) :
    ((rePart n unit).exec k s).isSome := by
  obtain ⟨pos, hexec⟩ := exec_rePart n hunit hk s
  rw [hexec]
  exact hk _

/-- The digits of hours, minutes and seconds, taken off one after the other from the front of a text. -/
def splitPeriod (text : List UInt8) : List UInt8 × List UInt8 × List UInt8 :=
  let h := splitPart 104 text
  let m := splitPart 109 h.2
  let s := splitPart 115 m.2
  (h.1, m.1, s.1)

/-- `rePeriod` finds the three parts of `splitPeriod` at the front of the text. -/
theorem regexSearch_rePeriod (text : List UInt8) :
    ∃ found, regexSearch rePeriod text = some found ∧
      (found.str 1, found.str 2, found.str 3) = splitPeriod text := by
  have hunits : EndsNumber 104 ∧ EndsNumber 109 ∧ EndsNumber 115 := by decide
  obtain ⟨hhours, hminutes, hseconds⟩ := hunits
  have hend (t : Cursor UInt8) : ((cat []).exec some t).isSome := rfl
  have hlast (t : Cursor UInt8) : ((cat [rePart 3 115]).exec some t).isSome :=
    isSome_exec_rePart 3 hseconds hend t
  have hrest (t : Cursor UInt8) : ((cat [rePart 2 109, rePart 3 115]).exec some t).isSome :=
    isSome_exec_rePart 2 hminutes hlast t
  obtain ⟨pos₁, h₁⟩ := exec_rePart 1 hhours hrest ⟨0, text, []⟩
  obtain ⟨pos₂, h₂⟩ := exec_rePart 2 hminutes hlast ⟨pos₁, (splitPart 104 text).2,
    if (splitPart 104 text).1 = [] then [] else [(1, (splitPart 104 text).1)]⟩
  obtain ⟨pos₃, h₃⟩ := exec_rePart 3 hseconds hend ⟨pos₂, (splitPart 109 (splitPart 104 text).2).2, _⟩
  have hexec := h₁.trans (h₂.trans h₃)
  refine ⟨_, searchFrom_of_exec hexec, ?_⟩
  -- A group that has matched nothing is empty, as is a part that is not there.
  simp only [splitPeriod, Match.str, Cursor.str]
  generalize (splitPart 104 text).1 = h
  generalize (splitPart 109 _).1 = m
  generalize (splitPart 115 _).1 = s
  by_cases hh : h = [] <;> by_cases hm : m = [] <;> by_cases hs : s = [] <;> simp [hh, hm, hs, List.lookup_cons]

/-! ### What is read -/

/-- `time_period` adds up the seconds of the three parts of `splitPeriod`. -/
theorem timePeriod_eq (value : List UInt8) :
    timePeriod value =
      periodSeconds (splitPeriod value).1 (splitPeriod value).2.1 (splitPeriod value).2.2 := by
  unfold timePeriod
  split
  · rename_i hnil
    rw [hnil]
    rfl
  · obtain ⟨found, hsearch, hparts⟩ := regexSearch_rePeriod value
    simp only [hsearch, ← hparts]

/-- The first component of `splitPart` consists of digits. -/
theorem isDigit_of_mem_splitPart : ∀ b ∈ (splitPart unit text).1, isDigit b = true := by
  unfold splitPart
  cases h : takePart unit text with
  | none => simp
  | some part =>
      obtain ⟨-, -, -, -, -, -, hdigits⟩ := exists_of_takePart h
      exact hdigits

/-- `std::stol` reads a row of digits as its number when that fits, and else throws. -/
theorem stol_digits (hnil : digits ≠ []) (hdigits : ∀ b ∈ digits, isDigit b = true) :
    stol digits = if 2 ^ 63 ≤ decimalValue digits then .error (.stdException (bytes "stol"))
      else .ok (decimalValue digits) := by
  obtain ⟨first, rest, hfirst⟩ := List.exists_cons_of_ne_nil hnil
  obtain ⟨hspace, hminus, hplus⟩ := isDigit_ne (hdigits first (hfirst ▸ List.mem_cons_self))
  have hsign : splitSign (digits.dropWhile isSpace) = (false, digits) := by
    rw [hfirst, List.dropWhile_cons_of_neg (by rw [hspace]; exact Bool.false_ne_true), splitSign, if_neg hminus,
      if_neg hplus]
  have htake : digits.takeWhile isDigit = digits := List.takeWhile_eq_self_iff.mpr hdigits
  have hfits : ((decimalValue digits : ℤ) < -2 ^ 63 ∨ 2 ^ 63 ≤ (decimalValue digits : ℤ)) ↔
      2 ^ 63 ≤ decimalValue digits := by
    omega
  rw [stol, hsign]
  simp only [htake, hnil, if_false, Bool.false_eq_true, hfits]

/-- `partSeconds` of some digits is their number times the scale, when the number fits, and else `std::stol`
throws. -/
theorem partSeconds_digits (hdigits : ∀ b ∈ digits, isDigit b = true) (scale : ℤ) :
    partSeconds digits scale = if 2 ^ 63 ≤ decimalValue digits then .error (.stdException (bytes "stol"))
      else .ok (decimalValue digits * scale) := by
  unfold partSeconds
  split
  · rename_i hnil
    rw [hnil, if_neg (by decide)]
    simp [decimalValue]
  · rename_i hnil
    rw [stol_digits hnil hdigits]
    split <;> rfl

/-- A `size_t` that is made from a `long` which is not negative is its number. -/
theorem ofInt_natCast (n : ℕ) : UInt64.ofInt n = UInt64.ofNat n := by
  rw [UInt64.ofInt, ← UInt64.toNat_inj, UInt64.toNat_ofNat', UInt64.toNat_ofNat']
  omega

/-- For every text: `time_period` takes hours, minutes and seconds off its front, in this order and each of them
only if it is there. It throws when the number of one of them does not fit into `long`, and otherwise it
returns the seconds that they make together; whatever else stands in the text makes no difference. Where the
products or the sum overflow `long`, which is undefined in C++, the value is that of arithmetic modulo
`2 ^ 64`, as `periodSeconds` has it. -/
theorem timePeriod_cases (value : List UInt8) :
    timePeriod value =
      if 2 ^ 63 ≤ decimalValue (splitPeriod value).1 ∨ 2 ^ 63 ≤ decimalValue (splitPeriod value).2.1 ∨
          2 ^ 63 ≤ decimalValue (splitPeriod value).2.2 then
        .error (.stdException (bytes "stol"))
      else
        .ok (UInt64.ofNat (3600 * decimalValue (splitPeriod value).1 +
          60 * decimalValue (splitPeriod value).2.1 + decimalValue (splitPeriod value).2.2)) := by
  have hh : ∀ b ∈ (splitPeriod value).1, isDigit b = true := isDigit_of_mem_splitPart
  have hm : ∀ b ∈ (splitPeriod value).2.1, isDigit b = true := isDigit_of_mem_splitPart
  have hs : ∀ b ∈ (splitPeriod value).2.2, isDigit b = true := isDigit_of_mem_splitPart
  rw [timePeriod_eq, periodSeconds, partSeconds_digits hh, partSeconds_digits hm, partSeconds_digits hs]
  by_cases hhours : 2 ^ 63 ≤ decimalValue (splitPeriod value).1
  · simp only [hhours, if_true, true_or]
    rfl
  by_cases hminutes : 2 ^ 63 ≤ decimalValue (splitPeriod value).2.1
  · simp only [hhours, hminutes, if_true, if_false, true_or, or_true]
    rfl
  by_cases hseconds : 2 ^ 63 ≤ decimalValue (splitPeriod value).2.2
  · simp only [hhours, hminutes, hseconds, if_true, if_false, or_true]
    rfl
  simp only [hhours, hminutes, hseconds, if_false, or_self]
  have hsum : (decimalValue (splitPeriod value).1 * 3600 + decimalValue (splitPeriod value).2.1 * 60 +
      decimalValue (splitPeriod value).2.2 * 1 : ℤ) = ((3600 * decimalValue (splitPeriod value).1 +
        60 * decimalValue (splitPeriod value).2.1 + decimalValue (splitPeriod value).2.2 : ℕ) : ℤ) := by
    push_cast
    ring
  exact congrArg Except.ok ((congrArg UInt64.ofInt hsum).trans (ofInt_natCast _))

/-- The parts are read in this order only. -/
example : timePeriod (bytes "1h 30m") = .ok 5400 ∧ timePeriod (bytes "30m 1h") = .ok 1800 := by
  decide +kernel

end Utils

end NavekFiber
