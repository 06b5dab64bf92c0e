import NavekFiber.Machine.Bytes

/-! # Paths of routes and requests: `cpathstring`

A path is compared with another byte by byte, where `?` stands for any bytes but `/` and `*` ends the
comparison; the comparison also ends, successfully, at the end of the shorter path. The hash is taken
from the raw bytes of the first segment.

* `CPathString.hash`, `CPathString.compare`: the two member functions.
* `CPathString.hash_eq_iff`: two paths have one hash exactly when the hash keeps the same seven bytes
  of their first segments.
* `CPathString.compare_iff_isPrefix`: without wildcards, `compare` asks whether one path begins with the
  other.
* `CPathString.compare_relation`: `compare` ends, and as a relation it is reflexive and symmetric. -/

namespace NavekFiber

/-- `CPathString`: the characters between `cfrom` and `cto`; `char` is signed on the platform. -/
abbrev CPathString := List UInt8

namespace CPathString

/-- The separator of segments. -/
abbrev slash : UInt8 := '/'.toUInt8

/-- The wildcard for characters of one segment. -/
abbrev question : UInt8 := '?'.toUInt8

/-- The wildcard for the rest of the path. -/
abbrev star : UInt8 := '*'.toUInt8

/-- `hash | *it`, where the signed character is extended to `size_t`, shifted by a byte. -/
def hashByte (hash : UInt64) (c : UInt8) : UInt64 := (hash ||| c.toInt8.toInt64.toUInt64) <<< 8

/-- The loop of `hash` with `len` characters to go. -/
def hashLoop : ℕ → UInt64 → List UInt8 → UInt64
  | _, hash, [] => hash
  | len, hash, c :: rest =>
      if c = slash then hash
      else match len with
        | 0 => hash
        | len + 1 => hashLoop len (hashByte hash c) rest

/-- The path without its first `/`. -/
def dropSlash : CPathString → List UInt8
  | [] => []
  | c :: rest => if c = slash then rest else c :: rest

/-- `hash`. -/
def hash (path : CPathString) : UInt64 := hashLoop 8 0 (dropSlash path)

/-- `compare`, on what is left between the two cursors and the ends of the two paths. -/
def compare : CPathString → CPathString → Bool
  | [], _ => true
  | _ :: _, [] => true
  | l :: lit, r :: rit =>
      if l ≠ r then
        if l = question then
          if r ≠ slash then compare (l :: lit) rit else compare lit (r :: rit)
        else if r = question then
          if l ≠ slash then compare lit (r :: rit) else compare (l :: lit) rit
        else decide (l = star ∨ r = star)
      else compare lit rit
termination_by left right => left.length + right.length

/-! ### What the hash keeps -/

/-- The first segment of a path: up to the next `/` after the optional leading one. -/
def firstSegment (path : CPathString) : List UInt8 := (dropSlash path).takeWhile (· ≠ slash)

/-- Enter one byte into the seven bytes that the hash keeps, newest first. The sign of a byte above
the ASCII range runs over all earlier ones. -/
def keepByte (kept : List UInt8) (c : UInt8) : List UInt8 :=
  if c < 0x80 then c :: kept.take 6 else c :: List.replicate 6 0xff

/-- The seven bytes that the hash keeps of the first eight bytes of the first segment. -/
def keptBytes (path : CPathString) : List UInt8 :=
  ((firstSegment path).take 8).foldl keepByte (List.replicate 7 0)

/-- `hashLoop` enters the bytes of the first segment into the hash, `len` of them at most. -/
theorem hashLoop_eq_foldl (len : ℕ) (hash : UInt64) (cs : List UInt8) :
    hashLoop len hash cs = ((cs.takeWhile (· ≠ slash)).take len).foldl hashByte hash := by
  induction cs generalizing len hash with
  | nil => simp [hashLoop]
  | cons c rest ih =>
      by_cases hc : c = slash
      · rw [List.takeWhile_cons_of_neg (by simpa using hc)]
        cases len <;> simp [hashLoop, hc]
      · rw [List.takeWhile_cons_of_pos (by simpa using hc)]
        cases len with
        | zero => simp [hashLoop, hc]
        | succ len =>
            simp only [hashLoop, if_neg hc, List.take_succ_cons, List.foldl_cons]
            exact ih len (hashByte hash c)

/-- A signed character extended to 64 bits is its byte, below 128, and else its byte under bits that are all set. -/
theorem toNat_signExtend (c : UInt8) :
    c.toInt8.toInt64.toUInt64.toNat
      = if c < 0x80 then c.toNat else 256 * (2 ^ 56 - 1) + c.toNat := by
  have h : ∀ b : BitVec 8, (b.signExtend 64).toNat
      = if b < 0x80#8 then b.toNat else 256 * (2 ^ 56 - 1) + b.toNat := by decide +kernel
  exact h c.toBitVec

/-- The bits of an extended sign cover everything above the lowest byte. -/
theorem or_signBits {v c : ℕ} (hv : v < 2 ^ 56) (hc : c < 2 ^ 8) :
    2 ^ 8 * v ||| (2 ^ 8 * (2 ^ 56 - 1) + c) = 2 ^ 8 * (2 ^ 56 - 1) + c := by
  apply Nat.eq_of_testBit_eq
  intro i
  rw [Nat.testBit_or, Nat.testBit_two_pow_mul, Nat.testBit_two_pow_mul_add _ hc,
    Nat.testBit_two_pow_sub_one]
  by_cases hi : 8 ≤ i
  · rw [if_neg (by omega)]
    by_cases hlt : i - 8 < 56
    · simp [hlt]
    · have hle : 2 ^ 56 ≤ 2 ^ (i - 8) := Nat.pow_le_pow_right (by decide) (by omega)
      have hbit : v.testBit (i - 8) = false := Nat.testBit_lt_two_pow (by omega)
      simp [hbit]
  · simp [hi]

/-- `hashByte` enters a byte into a hash as `keepByte` enters it into the kept bytes. -/
theorem toNat_hashByte {hash : UInt64} {kept : List UInt8} (c : UInt8) (hlen : kept.length = 7)
    (hhash : hash.toNat = 256 * wordOf kept) :
    (hashByte hash c).toNat = 256 * wordOf (keepByte kept c) := by
  have hlt : wordOf kept < 2 ^ 56 := by
    have := WordOf.wordOf_lt kept
    rwa [hlen] at this
  have hc : c.toNat < 256 := c.toNat_lt
  have hor : (hash ||| c.toInt8.toInt64.toUInt64).toNat
      = if c < 0x80 then 256 * wordOf kept + c.toNat else 256 * (2 ^ 56 - 1) + c.toNat := by
    rw [UInt64.toNat_or, toNat_signExtend, hhash]
    split
    · exact (Nat.two_pow_add_eq_or_of_lt (i := 8) hc _).symm
    · exact or_signBits hlt hc
  have hshift : (hashByte hash c).toNat
      = 256 * ((hash ||| c.toInt8.toInt64.toUInt64).toNat % 256 ^ 7) := by
    rw [hashByte, UInt64.toNat_shiftLeft, Nat.shiftLeft_eq]
    have h8 : (8 : UInt64).toNat % 64 = 8 := rfl
    rw [h8]
    omega
  rw [hshift, hor, keepByte]
  split
  · have hmod := WordOf.wordOf_mod (c :: kept) 7
    rw [WordOf.wordOf_cons] at hmod
    rw [Nat.add_comm, hmod, List.take_succ_cons]
  · have hones : wordOf (List.replicate 6 0xff) = 256 ^ 6 - 1 := by decide
    rw [WordOf.wordOf_cons, hones]
    omega

/-- `keepByte` leaves seven bytes of seven. -/
theorem length_keepByte {kept : List UInt8} (c : UInt8) (hlen : kept.length = 7) :
    (keepByte kept c).length = 7 := by
  unfold keepByte
  split <;> simp [hlen]

/-- Entering bytes into a hash with `hashByte` is entering them into the kept bytes with `keepByte`. -/
theorem toNat_foldl_hashByte (cs : List UInt8) {hash : UInt64} {kept : List UInt8}
    (hlen : kept.length = 7) (hhash : hash.toNat = 256 * wordOf kept) :
    (cs.foldl hashByte hash).toNat = 256 * wordOf (cs.foldl keepByte kept) ∧
      (cs.foldl keepByte kept).length = 7 := by
  induction cs generalizing hash kept with
  | nil => exact ⟨hhash, hlen⟩
  | cons c cs ih => exact ih (length_keepByte c hlen) (toNat_hashByte c hlen hhash)

/-- The hash of a path is the number of its `keptBytes`, above a lowest byte that is always zero. -/
theorem toNat_hash (path : CPathString) :
    (hash path).toNat = 256 * wordOf (keptBytes path) ∧ (keptBytes path).length = 7 := by
  rw [hash, hashLoop_eq_foldl]
  exact toNat_foldl_hashByte _ rfl (by decide)

/-- Two paths have one hash exactly when they have the same `keptBytes`. -/
theorem hash_eq_iff {a b : CPathString} : hash a = hash b ↔ keptBytes a = keptBytes b := by
  obtain ⟨ha, hlena⟩ := toNat_hash a
  obtain ⟨hb, hlenb⟩ := toNat_hash b
  constructor
  · intro h
    refine WordOf.wordOf_inj (hlena.trans hlenb.symm) ?_
    have : (hash a).toNat = (hash b).toNat := by rw [h]
    omega
  · intro h
    apply UInt64.toNat_inj.mp
    rw [ha, hb, h]

/-! ### What the comparison asks -/

/-- A path without wildcards. -/
def Plain (path : CPathString) : Prop := ∀ c ∈ path, c ≠ question ∧ c ≠ star

instance : DecidablePred Plain := List.decidableBAll (fun c => c ≠ question ∧ c ≠ star)

/-- Without wildcards, `compare` holds of two paths exactly when one begins with the other. -/
theorem compare_iff_isPrefix {left right : CPathString} (hl : Plain left) (hr : Plain right) :
    compare left right = true ↔ left <+: right ∨ right <+: left := by
  induction left generalizing right with
  | nil => simp [compare]
  | cons l lit ih =>
      cases right with
      | nil => simp [compare]
      | cons r rit =>
          obtain ⟨hlq, hls⟩ := hl l List.mem_cons_self
          obtain ⟨hrq, hrs⟩ := hr r List.mem_cons_self
          have hrest : compare lit rit = true ↔ lit <+: rit ∨ rit <+: lit :=
            ih (fun c hc => hl c (List.mem_cons_of_mem _ hc))
              (fun c hc => hr c (List.mem_cons_of_mem _ hc))
          rw [compare]
          by_cases heq : l = r
          · subst heq
            simp [hrest]
          · have hne : ¬ r = l := fun h => heq h.symm
            simp [heq, hne, hlq, hrq, hls, hrs]

/-! ### The comparison as a relation -/

/-- The loop of `compare` for a number of turns; none when it takes more. -/
def compareFor : ℕ → CPathString → CPathString → Option Bool
  | _, [], _ => some true
  | _, _ :: _, [] => some true
  | 0, _ :: _, _ :: _ => none
  | turns + 1, l :: lit, r :: rit =>
      if l ≠ r then
        if l = question then
          if r ≠ slash then compareFor turns (l :: lit) rit else compareFor turns lit (r :: rit)
        else if r = question then
          if l ≠ slash then compareFor turns lit (r :: rit) else compareFor turns (l :: lit) rit
        else some (decide (l = star ∨ r = star))
      else compareFor turns lit rit

/-- `compareFor` ends within as many turns as the two paths have bytes, since each turn takes one of the cursors
on. -/
theorem compareFor_eq (left right : CPathString) {turns : ℕ} (hturns : left.length + right.length ≤ turns) :
    compareFor turns left right = some (compare left right) := by
  induction turns generalizing left right with
  | zero =>
      obtain rfl := List.length_eq_zero_iff.mp (Nat.le_zero.mp ((Nat.le_add_right _ _).trans hturns))
      simp [compareFor, compare]
  | succ turns ih =>
      cases left with
      | nil => simp [compareFor, compare]
      | cons l lit =>
          cases right with
          | nil => simp [compareFor, compare]
          | cons r rit =>
              rw [List.length_cons, List.length_cons] at hturns
              have hboth := ih lit rit (by omega)
              have hleft := ih lit (r :: rit) (by rw [List.length_cons]; omega)
              have hright := ih (l :: lit) rit (by rw [List.length_cons]; omega)
              unfold compareFor compare
              rw [hboth, hleft, hright]
              split_ifs <;> rfl

/-- `compare` holds of every path and itself. -/
theorem compare_self (path : CPathString) : compare path path = true := by
  induction path with
  | nil => rw [compare]
  | cons c rest ih =>
      rw [compare, if_neg (not_not.mpr rfl)]
      exact ih

/-- `compare` does not depend on the order of the two paths: a `?` on either side takes the same bytes of the other
one. -/
theorem compare_comm (left right : CPathString) : compare left right = compare right left := by
  induction left, right using compare.induct with
  | case1 right => cases right <;> simp [compare]
  | case2 l lit => simp [compare]
  | case3 rit r lit hslash hne ih =>
      rw [compare, if_pos hne, if_pos rfl, if_pos hslash, ih]
      conv_rhs => rw [compare, if_pos hne.symm, if_neg hne.symm, if_pos rfl, if_pos hslash]
  | case4 lit r rit hslash hne ih =>
      rw [compare, if_pos hne, if_pos rfl, if_neg hslash, ih]
      conv_rhs => rw [compare, if_pos hne.symm, if_neg hne.symm, if_pos rfl, if_neg hslash]
  | case5 l lit rit hl hslash hne ih =>
      rw [compare, if_pos hne, if_neg hl, if_pos rfl, if_pos hslash, ih]
      conv_rhs => rw [compare, if_pos hne.symm, if_pos rfl, if_pos hslash]
  | case6 l lit rit hl hslash hne ih =>
      rw [compare, if_pos hne, if_neg hl, if_pos rfl, if_neg hslash, ih]
      conv_rhs => rw [compare, if_pos hne.symm, if_pos rfl, if_neg hslash]
  | case7 l lit r rit hne hl hr =>
      rw [compare, if_pos hne, if_neg hl, if_neg hr]
      conv_rhs => rw [compare, if_pos (Ne.symm hne), if_neg hr, if_neg hl]
      exact decide_eq_decide.mpr or_comm
  | case8 l lit r rit heq ih =>
      obtain rfl := not_not.mp heq
      rw [compare, if_neg heq, ih]
      conv_rhs => rw [compare, if_neg heq]

/-- `compare` ends after as many turns as there are bytes, at most. It holds of a path and itself, and of two
paths in either order. Without wildcards it holds exactly when one of the two begins with the other. -/
theorem compare_relation (left right : CPathString) :
    compareFor (left.length + right.length) left right = some (compare left right) ∧
      compare left left = true ∧ compare left right = compare right left ∧
        (Plain left → Plain right → (compare left right = true ↔ left <+: right ∨ right <+: left)) :=
  ⟨compareFor_eq left right le_rfl, compare_self left, compare_comm left right, compare_iff_isPrefix⟩

/-- `compare` tells two routes apart that differ in their last segment. -/
theorem compare_relation_segments :
    compare (bytes "/api/a") (bytes "/api/b") = true ↔
      bytes "/api/a" <+: bytes "/api/b" ∨ bytes "/api/b" <+: bytes "/api/a" :=
  (compare_relation (bytes "/api/a") (bytes "/api/b")).2.2.2 (by decide) (by decide)

end CPathString

end NavekFiber
