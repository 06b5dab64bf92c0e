import NavekFiber.Utils.Numbers

/-! # `zcstring::trim`

A `zcstring` is a pair of pointers into memory that belongs to somebody else. `trim` moves both pointers
towards each other, past the characters that are to be stripped, and there are two versions of it: one strips
white space, the other one the characters of a mask. Behind the first loop they differ: the second loop of one
tests the character in front of the end, and that of the other one the character where the first loop has
stopped. Both read before they look whether the range goes so far, so that `trim` does what it should exactly
where the characters at the ends of the range stop the loops in time (`trims_iff`). -/

namespace NavekFiber

open Utils

/-- A pair of pointers, the second one not in front of the first one. -/
structure ZcString where
  /-- `_begin`. -/
  start : ℤ
  /-- `_end`. -/
  stop : ℤ
  /-- The pointers are in order. -/
  start_le_stop : start ≤ stop

namespace ZcString

/-- What `trim` is asked for: `both`, `left` or `right`. -/
inductive TrimMode
  /-- Both ends. -/
  | both
  /-- The beginning. -/
  | left
  /-- The end. -/
  | right
  deriving DecidableEq, Repr

/-- What a call of `trim` returns, and the addresses that it has read. -/
structure Trimmed where
  /-- The first pointer. -/
  start : ℤ
  /-- The second pointer. -/
  stop : ℤ
  /-- The addresses that have been read. -/
  reads : List ℤ
  deriving DecidableEq, Repr

/-- A table of all characters, with zeros for those that are not in the mask. -/
abbrev CharacterMask := Vector UInt8 256

/-- A mask has the character. -/
def CharacterMask.has (characters : CharacterMask) (c : UInt8) : Bool := characters[c.toFin] != 0

/-- `utils::ascii_mask`. A `char` is signed on the platform: above the ASCII range the index is out of
bounds. -/
def asciiMask (characterMask : List UInt8) : Option CharacterMask :=
  characterMask.foldlM (fun table c => if c < 0x80 then some (table.set c.toFin c) else none)
    (Vector.replicate 256 0)

variable (strips : UInt8 → Bool) (memory : ℤ → UInt8)

/-- The first loop of `trim`, from `itb` on: where it stops, and what it reads. -/
def trimLeft (stop itb : ℤ) : ℤ × List ℤ :=
  if itb < stop then
    if strips (memory itb) then
      let rest := trimLeft stop (itb + 1)
      (rest.1, itb :: rest.2)
    else (itb, [itb])
  else (itb, [])
termination_by (stop - itb).toNat

/-- The second loop of `trim`, from `ite` on. It tests the character at `tested ite`. -/
def trimRight (tested : ℤ → ℤ) (start ite : ℤ) : ℤ × List ℤ :=
  if strips (memory (tested ite)) ∧ start ≤ ite then
    let rest := trimRight tested start (ite - 1)
    (rest.1, tested ite :: rest.2)
  else (ite, [tested ite])
termination_by (ite + 1 - start).toNat

/-- Both versions of `trim`: the second loop tests the character at `tested itb ite`. -/
def trimWith (tested : ℤ → ℤ → ℤ) (v : ZcString) (mode : TrimMode) : Trimmed :=
  let (itb, reads) := if mode ≠ .right then trimLeft strips memory v.stop v.start else (v.start, [])
  let (ite, reads') :=
    if mode ≠ .left then trimRight strips memory (tested itb) v.start (v.stop - 1) else (v.stop - 1, [])
  ⟨itb, ite + 1, reads ++ reads'⟩

/-- `trim(at)`. -/
def trim (v : ZcString) (mode : TrimMode) : Trimmed := trimWith isSpace memory (fun _ ite => ite) v mode

/-- `trim(characters, at)`. -/
def trimMask (characters : CharacterMask) (v : ZcString) (mode : TrimMode) : Trimmed :=
  trimWith characters.has memory (fun itb _ => itb) v mode

/-- What is left of a range when the characters at the requested ends are stripped, as far as possible, with
no byte outside of the range read. -/
structure Trims (v : ZcString) (mode : TrimMode) (result : Trimmed) : Prop where
  /-- The result does not begin in front of the range. -/
  start_le : v.start ≤ result.start
  /-- The result is a range. -/
  start_le_stop : result.start ≤ result.stop
  /-- The result does not end behind the range. -/
  stop_le : result.stop ≤ v.stop
  /-- What is cut off at the beginning is stripped, and was asked for. -/
  left : ∀ p, v.start ≤ p → p < result.start → mode ≠ .right ∧ strips (memory p) = true
  /-- What is cut off at the end is stripped, and was asked for. -/
  right : ∀ p, result.stop ≤ p → p < v.stop → mode ≠ .left ∧ strips (memory p) = true
  /-- The result does not begin with a character to strip, where the beginning was asked for. -/
  left_most : mode ≠ .right → result.start < result.stop → strips (memory result.start) = false
  /-- The result does not end with a character to strip, where the end was asked for. -/
  right_most : mode ≠ .left → result.start < result.stop → strips (memory (result.stop - 1)) = false
  /-- No byte outside of the range is read. -/
  reads : ∀ p ∈ result.reads, v.start ≤ p ∧ p < v.stop

variable {strips : UInt8 → Bool} {memory : ℤ → UInt8} {start stop itb ite p : ℤ} {v : ZcString}
  {mode : TrimMode} {characters : CharacterMask}

/-! ### The mask -/

/-- A mask in which a character that is no zero is entered has this character, and those that it had. -/
theorem has_set (c : UInt8) (hc : c ≠ 0) (b : UInt8) :
    CharacterMask.has (characters.set c.toFin c) b = true ↔ b = c ∨ characters.has b = true := by
  unfold CharacterMask.has
  rw [Fin.getElem_fin, Fin.getElem_fin, Vector.getElem_set]
  by_cases heq : b = c
  · subst heq
    simp [hc]
  · have hne : c.toNat ≠ b.toNat := fun h => heq (UInt8.toNat_inj.mp h.symm)
    have hne' : ¬ (c.toFin : ℕ) = b.toFin := hne
    rw [if_neg hne', or_iff_right heq]

/-- The mask of a text without a zero has the characters of the text. -/
theorem has_asciiMask {characterMask : List UInt8} (h : asciiMask characterMask = some characters)
    (hzero : 0 ∉ characterMask) (b : UInt8) : characters.has b = true ↔ b ∈ characterMask := by
  have hfold : ∀ (cs : List UInt8) (table : CharacterMask), 0 ∉ cs →
      cs.foldlM (fun table c => if c < 0x80 then some (table.set c.toFin c) else none) table = some characters →
        (characters.has b = true ↔ b ∈ cs ∨ table.has b = true) := by
    intro cs
    induction cs with
    | nil =>
        rintro table - hcs
        obtain rfl := Option.some.inj hcs
        simp
    | cons c cs ih =>
        intro table hzero hcs
        obtain ⟨hc, hrest⟩ := not_or.mp (List.mem_cons.not.mp hzero)
        rw [List.foldlM_cons] at hcs
        obtain ⟨table', htable, hcs⟩ := Option.bind_eq_some_iff.mp hcs
        split at htable
        · obtain rfl := Option.some.inj htable
          rw [ih _ hrest hcs, has_set c (Ne.symm hc), List.mem_cons, or_left_comm, or_assoc]
        · cases htable
  have hempty : CharacterMask.has (Vector.replicate 256 0) b ≠ true := by
    simp [CharacterMask.has]
  rw [hfold characterMask _ hzero h, or_iff_left hempty]

/-! ### The loops -/

/-- `trimLeft` stops at the first character that is not stripped, or at the end, and reads nothing behind. -/
theorem trimLeft_spec (strips : UInt8 → Bool) (memory : ℤ → UInt8) (hle : itb ≤ stop) :
    itb ≤ (trimLeft strips memory stop itb).1 ∧ (trimLeft strips memory stop itb).1 ≤ stop ∧
      (∀ p, itb ≤ p → p < (trimLeft strips memory stop itb).1 → strips (memory p) = true) ∧
      ((trimLeft strips memory stop itb).1 < stop →
        strips (memory (trimLeft strips memory stop itb).1) = false) ∧
      ∀ p ∈ (trimLeft strips memory stop itb).2, itb ≤ p ∧ p < stop := by
  induction itb using trimLeft.induct strips memory stop with
  | case1 itb hlt hstrip ih =>
      obtain ⟨hfirst, hlast, hstripped, hkept, hreads⟩ := ih (by omega)
      rw [trimLeft, if_pos hlt, if_pos hstrip]
      dsimp only
      refine ⟨by omega, hlast, ?_, hkept, ?_⟩
      · intro p hp hp'
        rcases eq_or_lt_of_le hp with rfl | hp
        · exact hstrip
        · exact hstripped p (by omega) hp'
      · intro p hp
        rcases List.mem_cons.mp hp with rfl | hp
        · exact ⟨le_rfl, hlt⟩
        · have := hreads p hp
          omega
  | case2 itb hlt hstrip =>
      rw [trimLeft, if_pos hlt, if_neg hstrip]
      refine ⟨le_rfl, hle, fun p hp hp' => absurd hp (not_le.mpr hp'), fun _ => by simpa using hstrip, ?_⟩
      intro p hp
      obtain rfl := List.mem_singleton.mp hp
      exact ⟨le_rfl, hlt⟩
  | case3 itb hlt =>
      rw [trimLeft, if_neg hlt]
      exact ⟨le_rfl, hle, fun p hp hp' => absurd hp (not_le.mpr hp'), fun h => absurd h hlt,
        fun p hp => absurd hp List.not_mem_nil⟩

/-- `trimRight` that tests the character at `ite` stops at the last character that is not stripped. -/
theorem trimRight_spec (hstart : start ≤ p) (hstop : p ≤ ite) (hp : strips (memory p) = false) :
    p ≤ (trimRight strips memory (fun ite => ite) start ite).1 ∧
      (trimRight strips memory (fun ite => ite) start ite).1 ≤ ite ∧
      (∀ q, (trimRight strips memory (fun ite => ite) start ite).1 < q → q ≤ ite → strips (memory q) = true) ∧
      strips (memory (trimRight strips memory (fun ite => ite) start ite).1) = false ∧
      ∀ q ∈ (trimRight strips memory (fun ite => ite) start ite).2, start ≤ q ∧ q ≤ ite := by
  induction ite using trimRight.induct strips memory (fun ite => ite) start with
  | case1 ite hboth ih =>
      have hne : p ≠ ite := by
        rintro rfl
        rw [hp] at hboth
        exact Bool.false_ne_true hboth.1
      obtain ⟨hfirst, hlast, hstripped, hkept, hreads⟩ := ih (by omega)
      rw [trimRight, if_pos hboth]
      dsimp only
      refine ⟨hfirst, by omega, ?_, hkept, ?_⟩
      · intro q hq hq'
        rcases eq_or_lt_of_le hq' with rfl | hq'
        · exact hboth.1
        · exact hstripped q hq (by omega)
      · intro q hq
        rcases List.mem_cons.mp hq with rfl | hq
        · exact ⟨hboth.2, le_rfl⟩
        · have := hreads q hq
          omega
  | case2 ite hboth =>
      rw [trimRight, if_neg hboth]
      refine ⟨hstop, le_rfl, fun q hq hq' => absurd hq (not_lt.mpr hq'), ?_, ?_⟩
      · by_contra hstrip
        exact hboth ⟨by simpa using hstrip, hstart.trans hstop⟩
      · intro q hq
        obtain rfl := List.mem_singleton.mp hq
        exact ⟨hstart.trans hstop, le_rfl⟩

/-- `trimRight` that tests the character at `ite` reads the one in front of the range when all characters of the range
are stripped. -/
theorem mem_reads_trimRight (hle : start ≤ ite + 1)
    (hall : ∀ p, start ≤ p → p ≤ ite → strips (memory p) = true) :
    start - 1 ∈ (trimRight strips memory (fun ite => ite) start ite).2 := by
  induction ite using trimRight.induct strips memory (fun ite => ite) start with
  | case1 ite hboth ih =>
      rw [trimRight, if_pos hboth]
      exact List.mem_cons_of_mem _ (ih (by omega) fun p hp hp' => hall p hp (by omega))
  | case2 ite hboth =>
      rw [trimRight, if_neg hboth, List.mem_singleton]
      by_contra hne
      exact hboth ⟨hall ite (by omega) le_rfl, by omega⟩

/-- `trimRight` that tests one and the same character, which is stripped, goes to the beginning of the range. -/
theorem trimRight_of_strip (hle : start ≤ ite + 1) (hstrip : strips (memory p) = true) :
    (trimRight strips memory (fun _ => p) start ite).1 = start - 1 ∧
      ∀ q ∈ (trimRight strips memory (fun _ => p) start ite).2, q = p := by
  induction ite using trimRight.induct strips memory (fun _ => p) start with
  | case1 ite hboth ih =>
      obtain ⟨hlast, hreads⟩ := ih (by omega)
      rw [trimRight, if_pos hboth]
      exact ⟨hlast, List.forall_mem_cons.mpr ⟨rfl, hreads⟩⟩
  | case2 ite hboth =>
      rw [trimRight, if_neg hboth]
      refine ⟨?_, fun q hq => List.mem_singleton.mp hq⟩
      by_contra hne
      exact hboth ⟨hstrip, by omega⟩

/-- `trimRight` that tests one and the same character reads it. -/
theorem mem_reads_trimRight_const (strips : UInt8 → Bool) (memory : ℤ → UInt8) (start ite p : ℤ) :
    p ∈ (trimRight strips memory (fun _ => p) start ite).2 := by
  rw [trimRight]
  split
  · exact List.mem_cons_self
  · exact List.mem_singleton_self p

/-- `trimRight` that tests one and the same character, which is not stripped, stays where it is. -/
theorem trimRight_of_keep (hkeep : strips (memory p) = false) :
    trimRight strips memory (fun _ => p) start ite = (ite, [p]) := by
  rw [trimRight, if_neg fun h => Bool.false_ne_true (hkeep.symm.trans h.1)]

/-! ### The calls -/

section Calls

variable {tested : ℤ → ℤ → ℤ}

theorem trimWith_left : trimWith strips memory tested v .left =
    ⟨(trimLeft strips memory v.stop v.start).1, v.stop, (trimLeft strips memory v.stop v.start).2⟩ := by
  simp [trimWith]

theorem trimWith_right : trimWith strips memory tested v .right =
    ⟨v.start, (trimRight strips memory (tested v.start) v.start (v.stop - 1)).1 + 1,
      (trimRight strips memory (tested v.start) v.start (v.stop - 1)).2⟩ := by
  simp [trimWith]

theorem trimWith_both : trimWith strips memory tested v .both =
    ⟨(trimLeft strips memory v.stop v.start).1,
      (trimRight strips memory (tested (trimLeft strips memory v.stop v.start).1) v.start (v.stop - 1)).1 + 1,
      (trimLeft strips memory v.stop v.start).2 ++
        (trimRight strips memory (tested (trimLeft strips memory v.stop v.start).1) v.start (v.stop - 1)).2⟩ := by
  simp [trimWith]

/-- Asked for the beginning, both versions of `trim` strip as they should. -/
theorem trims_left (strips : UInt8 → Bool) (memory : ℤ → UInt8) (tested : ℤ → ℤ → ℤ) (v : ZcString) :
    Trims strips memory v .left (trimWith strips memory tested v .left) := by
  obtain ⟨hfirst, hlast, hstripped, hkept, hreads⟩ := trimLeft_spec strips memory v.start_le_stop
  rw [trimWith_left]
  exact {
    start_le := hfirst
    start_le_stop := hlast
    stop_le := le_rfl
    left := fun p hp hp' => ⟨by decide, hstripped p hp hp'⟩
    right := fun p hp hp' => absurd hp (not_le.mpr hp')
    left_most := fun _ => hkept
    right_most := fun h => absurd rfl h
    reads := hreads }

/-- When `trimRight` that tests the character at `ite` does not read in front of the range, the range has a character
to keep. -/
theorem exists_keep_of_reads
    (h : v.start - 1 ∉ (trimRight strips memory (fun ite => ite) v.start (v.stop - 1)).2) :
    ∃ p, v.start ≤ p ∧ p < v.stop ∧ strips (memory p) = false := by
  have hle := v.start_le_stop
  by_contra hnone
  apply h
  refine mem_reads_trimRight (by omega) fun p hp hp' => ?_
  by_contra hkept
  exact hnone ⟨p, hp, by omega, by simpa using hkept⟩

/-- Asked for the end of a range with a character to keep, `trim` strips as it should. -/
theorem trims_right_of_keep (hp : v.start ≤ p) (hp' : p < v.stop) (hkept : strips (memory p) = false) :
    Trims strips memory v .right (trimWith strips memory (fun _ ite => ite) v .right) := by
  obtain ⟨hfirst, hlast, hstripped, hlastKept, hreads⟩ := trimRight_spec hp (show p ≤ v.stop - 1 by omega) hkept
  rw [trimWith_right]
  exact {
    start_le := le_rfl
    start_le_stop := by dsimp only; omega
    stop_le := by dsimp only; omega
    left := fun q hq hq' => absurd hq (not_le.mpr hq')
    right := fun q hq hq' => ⟨by decide, hstripped q hq (by omega)⟩
    left_most := fun h => absurd rfl h
    right_most := fun _ _ => by rwa [add_sub_cancel_right]
    reads := fun q hq => by have := hreads q hq; omega }

/-- Asked for both ends of a range with a character to keep, `trim` strips as it should. -/
theorem trims_both_of_keep (hp : v.start ≤ p) (hp' : p < v.stop) (hkept : strips (memory p) = false) :
    Trims strips memory v .both (trimWith strips memory (fun _ ite => ite) v .both) := by
  obtain ⟨hstart, hstop, hleft, hleftKept, hleftReads⟩ := trimLeft_spec strips memory v.start_le_stop
  obtain ⟨hfirst, hlast, hstripped, hlastKept, hreads⟩ := trimRight_spec hp (show p ≤ v.stop - 1 by omega) hkept
  -- The character where the second loop stops has not been stripped by the first one.
  have horder : (trimLeft strips memory v.stop v.start).1 ≤
      (trimRight strips memory (fun ite => ite) v.start (v.stop - 1)).1 := by
    by_contra hlt
    have hstrip := hleft _ (hp.trans hfirst) (not_le.mp hlt)
    exact Bool.false_ne_true (hlastKept.symm.trans hstrip)
  rw [trimWith_both]
  exact {
    start_le := hstart
    start_le_stop := by dsimp only; omega
    stop_le := by dsimp only; omega
    left := fun q hq hq' => ⟨by decide, hleft q hq hq'⟩
    right := fun q hq hq' => ⟨by decide, hstripped q hq (by omega)⟩
    left_most := fun _ _ => hleftKept (by omega)
    right_most := fun _ _ => by rwa [add_sub_cancel_right]
    reads := by
      intro q hq
      rcases List.mem_append.mp hq with hq | hq
      · exact hleftReads q hq
      · have := hreads q hq
        omega }

/-- `trim` that tests the character at the end strips as it should exactly when only the beginning is to be stripped,
or some character of the range is to be kept. -/
theorem trims_self_iff (strips : UInt8 → Bool) (memory : ℤ → UInt8) (v : ZcString) (mode : TrimMode) :
    Trims strips memory v mode (trimWith strips memory (fun _ ite => ite) v mode) ↔
      mode = .left ∨ ∃ p, v.start ≤ p ∧ p < v.stop ∧ strips (memory p) = false := by
  constructor
  · intro h
    cases mode with
    | left => exact Or.inl rfl
    | right =>
        rw [trimWith_right] at h
        refine Or.inr (exists_keep_of_reads fun hread => ?_)
        have := h.reads _ hread
        omega
    | both =>
        rw [trimWith_both] at h
        refine Or.inr (exists_keep_of_reads fun hread => ?_)
        have := h.reads _ (List.mem_append_right _ hread)
        omega
  · rintro (rfl | ⟨p, hp, hp', hkept⟩)
    · exact trims_left strips memory _ v
    · cases mode with
      | left => exact trims_left strips memory _ v
      | right => exact trims_right_of_keep hp hp' hkept
      | both => exact trims_both_of_keep hp hp' hkept

/-- When `trimMask` does what it should: asked for the end of a range only, all of its characters are stripped or
neither the first nor the last one; asked for both ends, the last one is not stripped. -/
def MaskStops (strips : UInt8 → Bool) (memory : ℤ → UInt8) (v : ZcString) : TrimMode → Prop
  | .left => True
  | .right => v.start < v.stop ∧ ((∀ p, v.start ≤ p → p < v.stop → strips (memory p) = true) ∨
      strips (memory v.start) = false ∧ strips (memory (v.stop - 1)) = false)
  | .both => v.start < v.stop ∧ strips (memory (v.stop - 1)) = false

/-- Asked for the end only, `trim` that tests where the first loop has stopped strips as it should exactly when
`MaskStops` holds. -/
theorem trims_const_right_iff (strips : UInt8 → Bool) (memory : ℤ → UInt8) (v : ZcString) :
    Trims strips memory v .right (trimWith strips memory (fun itb _ => itb) v .right) ↔
      MaskStops strips memory v .right := by
  have hle := v.start_le_stop
  have hread := mem_reads_trimRight_const strips memory v.start (v.stop - 1) v.start
  rw [trimWith_right, MaskStops]
  by_cases hfirst : strips (memory v.start) = true
  · obtain ⟨hlast, hreads⟩ := trimRight_of_strip (show v.start ≤ v.stop - 1 + 1 by omega) hfirst
    constructor
    · intro h
      refine ⟨(h.reads _ hread).2, Or.inl fun p hp hp' => (h.right p ?_ hp').2⟩
      dsimp only
      omega
    · rintro ⟨hlt, hall | ⟨hkept, -⟩⟩
      · exact {
          start_le := le_rfl
          start_le_stop := by dsimp only; omega
          stop_le := by dsimp only; omega
          left := fun q hq hq' => absurd hq (not_le.mpr hq')
          right := fun q hq hq' => ⟨by decide, hall q (by dsimp only at hq; omega) hq'⟩
          left_most := fun h => absurd rfl h
          right_most := fun _ h => by dsimp only at h; omega
          reads := fun q hq => by rw [hreads q hq]; exact ⟨le_rfl, hlt⟩ }
      · exact absurd (hkept.symm.trans hfirst) Bool.false_ne_true
  · rw [Bool.not_eq_true] at hfirst
    rw [trimRight_of_keep hfirst]
    constructor
    · intro h
      have hlt : v.start < v.stop := (h.reads v.start (List.mem_singleton_self _)).2
      have hlast := h.right_most (by decide) (by dsimp only; omega)
      rw [add_sub_cancel_right] at hlast
      exact ⟨hlt, Or.inr ⟨hfirst, hlast⟩⟩
    · rintro ⟨hlt, hall | ⟨-, hlast⟩⟩
      · exact absurd (hfirst.symm.trans (hall v.start le_rfl hlt)) Bool.false_ne_true
      · exact {
          start_le := le_rfl
          start_le_stop := by dsimp only; omega
          stop_le := by dsimp only; omega
          left := fun q hq hq' => absurd hq (not_le.mpr hq')
          right := fun q hq hq' => by dsimp only at hq; omega
          left_most := fun h => absurd rfl h
          right_most := fun _ _ => by rwa [add_sub_cancel_right]
          reads := fun q hq => by rw [List.mem_singleton.mp hq]; exact ⟨le_rfl, hlt⟩ }

/-- Asked for both ends, `trim` that tests where the first loop has stopped strips as it should exactly when
`MaskStops` holds. -/
theorem trims_const_both_iff (strips : UInt8 → Bool) (memory : ℤ → UInt8) (v : ZcString) :
    Trims strips memory v .both (trimWith strips memory (fun itb _ => itb) v .both) ↔
      MaskStops strips memory v .both := by
  obtain ⟨hstart, hstop, hleft, hkept, hreads⟩ := trimLeft_spec strips memory v.start_le_stop
  rw [trimWith_both, MaskStops]
  constructor
  · intro h
    -- The character where the first loop has stopped is read.
    have hlt := (h.reads _ (List.mem_append_right _ (mem_reads_trimRight_const strips memory v.start (v.stop - 1) _))).2
    have hlast := h.right_most (by decide)
    dsimp only at hlast
    rw [trimRight_of_keep (hkept hlt), add_sub_cancel_right] at hlast
    refine ⟨hstart.trans_lt hlt, hlast ?_⟩
    omega
  · rintro ⟨hlt, hlast⟩
    have hinside : (trimLeft strips memory v.stop v.start).1 < v.stop := by
      by_contra hnot
      have hstrip := hleft (v.stop - 1) (by omega) (by omega)
      exact Bool.false_ne_true (hlast.symm.trans hstrip)
    rw [trimRight_of_keep (hkept hinside)]
    exact {
      start_le := hstart
      start_le_stop := by dsimp only; omega
      stop_le := by dsimp only; omega
      left := fun q hq hq' => ⟨by decide, hleft q hq hq'⟩
      right := fun q hq hq' => by dsimp only at hq; omega
      left_most := fun _ _ => hkept hinside
      right_most := fun _ _ => by rwa [add_sub_cancel_right]
      reads := by
        intro q hq
        rcases List.mem_append.mp hq with hq | hq
        · exact hreads q hq
        · rw [List.mem_singleton.mp hq]
          exact ⟨hstart, hinside⟩ }

end Calls

/-- `trim` of white space does what it should exactly when only the beginning is to be stripped, or the range has
a character that is no white space. `trim` of the characters of a mask does exactly when the ends of the range
are as `MaskStops` says. -/
theorem trims_iff (memory : ℤ → UInt8) (characters : CharacterMask) (v : ZcString) (mode : TrimMode) :
    (Trims isSpace memory v mode (trim memory v mode) ↔
        mode = .left ∨ ∃ p, v.start ≤ p ∧ p < v.stop ∧ isSpace (memory p) = false) ∧
      (Trims characters.has memory v mode (trimMask memory characters v mode) ↔
        MaskStops characters.has memory v mode) := by
  refine ⟨trims_self_iff isSpace memory v mode, ?_⟩
  cases mode with
  | left => exact iff_of_true (trims_left characters.has memory _ v) trivial
  | right => exact trims_const_right_iff characters.has memory v
  | both => exact trims_const_both_iff characters.has memory v

/-- `trim` of white space reads the byte in front of a range of nothing but white space, and of an empty range. `trim`
with the mask of a space leaves the space behind a letter there. -/
theorem not_trims :
    ¬ Trims isSpace (fun _ => 32) ⟨0, 2, by decide⟩ .both (trim (fun _ => 32) ⟨0, 2, by decide⟩ .both) ∧
      ¬ Trims isSpace (fun _ => 97) ⟨0, 0, Int.le_refl 0⟩ .right (trim (fun _ => 97) ⟨0, 0, Int.le_refl 0⟩ .right) ∧
      ∃ characters, asciiMask (bytes " ") = some characters ∧
        ¬ Trims characters.has (fun p => if p = 0 then 97 else 32) ⟨0, 2, by decide⟩ .right
          (trimMask (fun p => if p = 0 then 97 else 32) characters ⟨0, 2, by decide⟩ .right) := by
  refine ⟨fun h => ?_, fun h => ?_, _, rfl, fun h => ?_⟩
  · obtain hmode | ⟨p, -, -, hkept⟩ := (trims_self_iff isSpace (fun _ => 32) ⟨0, 2, by decide⟩ .both).mp h
    · cases hmode
    · exact absurd hkept (by decide)
  · obtain hmode | ⟨p, hp, hp', -⟩ := (trims_self_iff isSpace (fun _ => 97) ⟨0, 0, Int.le_refl 0⟩ .right).mp h
    · cases hmode
    · exact absurd (Int.lt_of_le_of_lt hp hp') (Int.lt_irrefl 0)
  · obtain ⟨-, hall | ⟨-, hlast⟩⟩ := (trims_const_right_iff _ _ _).mp h
    · exact absurd (hall 0 (Int.le_refl 0) (by decide)) (by decide)
    · exact absurd hlast (by decide)

end ZcString

end NavekFiber
