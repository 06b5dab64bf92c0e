import NavekFiber.Machine.HashTable
import NavekFiber.Utils.FindMatch

/-! # The hash and the equality of header names

`zcstring_ifasthash` and `zcstring_iequal` are what the table of headers is instantiated with. Both fold
letters with `icase_ascii_table`; the hash reads eight characters at most.

* `EqualFold`: two texts are the same up to the case of ASCII letters.
* `zcstringHashing_lawful`: the two functions fit together. -/

namespace NavekFiber

namespace Utils

/-- Two texts are the same up to the case of ASCII letters. -/
def EqualFold (a b : List UInt8) : Prop := a.map icaseAscii = b.map icaseAscii

instance (a b : List UInt8) : Decidable (EqualFold a b) := inferInstanceAs (Decidable (_ = _))

/-- `EqualFold` is an equivalence. -/
theorem equivalence_equalFold : Equivalence EqualFold where
  refl _ := rfl
  symm h := h.symm
  trans h h' := Eq.trans h h'

/-- The loop of `zcstring_ifasthash` with `n` characters to go. -/
def ifasthashLoop : ℕ → UInt64 → List UInt8 → UInt64
  | n + 1, hash, c :: it => ifasthashLoop n ((hash ||| (icaseAscii c).toUInt64) <<< 8) it
  | _, hash, _ => hash

/-- `zcstring_ifasthash`. -/
def zcstringIfasthash (v : List UInt8) : UInt64 :=
  ifasthashLoop (if 8 > v.length then v.length else 8) 0 v

/-- The loop of `zcstring_iequal` over two texts of one length; `isEqual` is the flag as the last turn left
it. -/
def iequalLoop : Bool → List UInt8 → List UInt8 → Bool
  | _, a :: itA, b :: itB =>
      let isEqual := icaseAscii a == icaseAscii b
      if isEqual then iequalLoop isEqual itA itB else isEqual
  | isEqual, _, _ => isEqual

/-- `zcstring_iequal`. -/
def zcstringIequal (a b : List UInt8) : Bool :=
  if a.length = b.length then
    if a.length ≠ 0 then iequalLoop false a b else true
  else false

/-- `zcstring_ifasthash` and `zcstring_iequal` as the parameters of a table. -/
def zcstringHashing : Hashing (List UInt8) := ⟨zcstringIfasthash, zcstringIequal⟩

variable {a b : List UInt8}

/-- On texts of one length `iequalLoop` ends with the flag set exactly when all turns find the characters equal. -/
theorem iequalLoop_eq_true_iff (hlen : a.length = b.length) (isEqual : Bool)
    (hflag : a = [] → isEqual = true) : iequalLoop isEqual a b = true ↔ EqualFold a b := by
  induction a generalizing b isEqual with
  | nil =>
      obtain rfl := List.eq_nil_of_length_eq_zero hlen.symm
      exact iff_of_true (hflag rfl) rfl
  | cons x itA ih =>
      cases b with
      | nil => simp at hlen
      | cons y itB =>
          have hrest : itA.length = itB.length := by simpa using hlen
          by_cases hxy : icaseAscii x = icaseAscii y
          · simp only [iequalLoop, beq_iff_eq.mpr hxy, if_true]
            rw [ih hrest true fun _ => rfl]
            simp [EqualFold, hxy]
          · have hne : (icaseAscii x == icaseAscii y) = false := beq_eq_false_iff_ne.mpr hxy
            simp [iequalLoop, hne, EqualFold, hxy]

/-- `zcstring_iequal` is `EqualFold`. -/
theorem zcstringIequal_iff : zcstringIequal a b = true ↔ EqualFold a b := by
  rw [zcstringIequal]
  by_cases hlen : a.length = b.length
  · rw [if_pos hlen]
    by_cases hzero : a.length = 0
    · obtain rfl := List.eq_nil_of_length_eq_zero hzero
      obtain rfl := List.eq_nil_of_length_eq_zero hlen.symm
      exact iff_of_true rfl rfl
    · rw [if_pos hzero]
      exact iequalLoop_eq_true_iff hlen false fun hnil => absurd (congrArg List.length hnil) hzero
  · rw [if_neg hlen]
    refine iff_of_false Bool.false_ne_true fun hfold => hlen ?_
    simpa using congrArg List.length hfold

/-- `ifasthashLoop` reads the folded characters only. -/
theorem ifasthashLoop_eq_of_equalFold (h : EqualFold a b) (n : ℕ) (hash : UInt64) :
    ifasthashLoop n hash a = ifasthashLoop n hash b := by
  induction n generalizing a b hash with
  | zero => cases a <;> cases b <;> rfl
  | succ n ih =>
      cases a with
      | nil =>
          obtain rfl : b = [] := List.map_eq_nil_iff.mp h.symm
          rfl
      | cons x itA =>
          cases b with
          | nil => exact absurd h (by simp [EqualFold])
          | cons y itB =>
              obtain ⟨hxy, hrest⟩ := List.cons.inj h
              rw [ifasthashLoop, ifasthashLoop, hxy]
              exact ih hrest _

/-- Texts that are `EqualFold` have one hash. -/
theorem zcstringIfasthash_eq (h : EqualFold a b) : zcstringIfasthash a = zcstringIfasthash b := by
  have hlen : a.length = b.length := by simpa using congrArg List.length h
  rw [zcstringIfasthash, zcstringIfasthash, hlen, ifasthashLoop_eq_of_equalFold h]

/-- `zcstringHashing` is lawful: the equality is an equivalence, and equal names have one hash. -/
theorem zcstringHashing_lawful : zcstringHashing.Lawful where
  equivalence := by
    have heq : (fun a b => zcstringHashing.equal a b = true) = EqualFold :=
      funext fun _ => funext fun _ => propext zcstringIequal_iff
    rw [heq]
    exact equivalence_equalFold
  hash_eq _ _ h := zcstringIfasthash_eq (zcstringIequal_iff.mp h)

end Utils

end NavekFiber
