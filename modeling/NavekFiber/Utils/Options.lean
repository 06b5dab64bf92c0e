import Mathlib.Data.Finset.Basic
import NavekFiber.Machine.Regex
import NavekFiber.Utils.Transform

/-! # Options with sizes and ranges

`get_bytes` reads a size with its unit, `expand` a list of numbers and ranges. The loop for a range counts up
to its second bound, around `2 ^ 64` when that is the smaller one: a range stays between its bounds exactly
when they are in order, up to one exception (`staysBetween_iff`). -/

namespace NavekFiber

namespace Utils

open Regex

/-- `\s*(\d+)\s*(G|M|K|B)?`. -/
def reBytes : Regex UInt8 :=
  cat [star true (one isSpace), group 1 (plus (one isDigit)), star true (one isSpace),
    opt (group 2 (alt (char 71) (alt (char 77) (alt (char 75) (char 66)))))]

/-- `option::get_bytes`. -/
def getBytes (value : List UInt8) (defValue : UInt64) : Except Exn UInt64 :=
  if value = [] then .ok defValue
  else
    match regexSearch reBytes value with
    | some m => do
        let units := m.str 2
        let size ← stoul (m.str 1)
        return size <<<
          (if units = bytes "G" then 30 else if units = bytes "M" then 20 else if units = bytes "K" then 10 else 0)
    | none => .ok defValue

/-- Counting `f` up comes one step nearer to the bound `t`. -/
theorem toNat_sub_add_one {f t : UInt64} (h : f ≠ t) : (t - (f + 1)).toNat + 1 = (t - f).toNat := by
  have hpos : 0 < (t - f).toNat := by
    rw [Nat.pos_iff_ne_zero, Ne, ← UInt64.toNat_zero, UInt64.toNat_inj, sub_eq_zero]
    exact Ne.symm h
  rw [sub_add_eq_sub_sub, UInt64.toNat_sub_of_le, UInt64.toNat_one]
  · omega
  · rw [UInt64.le_iff_toNat_le, UInt64.toNat_one]
    exact hpos

/-- The loop of `expand` for a range: it adds `f` and counts it up until it is `t`. -/
def expandLoop (t f : UInt64) (result : List UInt64) : List UInt64 :=
  if f ≠ t then expandLoop t (f + 1) (result ++ [f]) else result
termination_by (t - f).toNat
decreasing_by
  have := toNat_sub_add_one ‹f ≠ t›
  omega

/-- What `expand` does with one item of the list, behind the numbers that have been added already. -/
def expandItem (result : List UInt64) (p : List UInt8) : Except Exn (List UInt64) :=
  match (explode .hyphen p (-1)).map trim with
  | [only] => do return result ++ [← stoul only]
  | [first, last] => do
      let t ← stoul (if last = [] then first else last)
      let f ← stoul first
      return expandLoop t f result ++ [t]
  | _ => return result

/-- `option::expand<size_t, CvtStringToInt>`: the set of the numbers that have been added. -/
def expand (range : List UInt8) : Except Exn (Finset UInt64) := do
  if range = [] then return ∅
  let chain := (explode .comma range (-1)).map trim
  return (← chain.foldlM expandItem []).toFinset

variable {a b f t x : UInt64} {result : List UInt64}

/-! ### The numbers of a range -/

/-- Some numbers in a row, around `2 ^ 64`. -/
def countUp (f : UInt64) (n : ℕ) : List UInt64 := (List.range n).map fun i => f + UInt64.ofNat i

theorem countUp_succ (f : UInt64) (n : ℕ) : countUp f (n + 1) = f :: countUp (f + 1) n := by
  have hnext : ∀ i : ℕ, f + UInt64.ofNat (i + 1) = f + 1 + UInt64.ofNat i := by
    intro i
    rw [UInt64.ofNat_add, add_assoc, add_comm (UInt64.ofNat i)]
    rfl
  rw [countUp, countUp, List.range_succ_eq_map, List.map_cons, List.map_map]
  congr 1
  · simp
  · exact List.map_congr_left fun i _ => hnext i

@[simp] theorem length_countUp (f : UInt64) (n : ℕ) : (countUp f n).length = n := by simp [countUp]

/-- The numbers of a row are those whose distance from its beginning is below its length. -/
theorem mem_countUp {n : ℕ} (hn : n ≤ 2 ^ 64) : x ∈ countUp f n ↔ (x - f).toNat < n := by
  rw [countUp, List.mem_map]
  constructor
  · rintro ⟨i, hi, rfl⟩
    rw [List.mem_range] at hi
    rw [add_sub_cancel_left, UInt64.toNat_ofNat', Nat.mod_eq_of_lt (by omega)]
    exact hi
  · intro hlt
    exact ⟨(x - f).toNat, List.mem_range.mpr hlt, by rw [UInt64.ofNat_toNat, add_sub_cancel]⟩

/-- `expandLoop` adds the numbers from `f` up to its bound. -/
theorem expandLoop_eq (t f : UInt64) (result : List UInt64) :
    expandLoop t f result = result ++ countUp f (t - f).toNat := by
  obtain ⟨n, hn⟩ : ∃ n, (t - f).toNat = n := ⟨_, rfl⟩
  induction n generalizing f result with
  | zero =>
      have heq : f = t := by
        by_contra hne
        have := toNat_sub_add_one hne
        omega
      rw [expandLoop, if_neg (not_not.mpr heq), hn]
      simp [countUp]
  | succ n ih =>
      have hne : f ≠ t := by
        rintro rfl
        simp at hn
      have hrest : (t - (f + 1)).toNat = n := by
        have := toNat_sub_add_one hne
        omega
      rw [expandLoop, if_pos hne, ih (f + 1) _ hrest, hrest, hn, countUp_succ, List.append_assoc,
        List.singleton_append]

/-- The item `a-b`. -/
def rangeItem (a b : UInt64) : List UInt8 := numberText a.toNat ++ 45 :: numberText b.toNat

/-- A printed number has digits only. -/
theorem not_mem_numberText {n : ℕ} {c : UInt8} (hc : isDigit c = false) : c ∉ numberText n := by
  intro hmem
  rw [isDigit_of_mem_numberText c hmem] at hc
  cases hc

/-- `expandItem` adds the numbers of a range from its first bound up to the second one. -/
theorem expandItem_rangeItem (result : List UInt64) (a b : UInt64) :
    expandItem result (rangeItem a b) = .ok (result ++ countUp a (b - a).toNat ++ [b]) := by
  have hhyphen : ∀ n : ℕ, 45 ∉ numberText n := fun n => not_mem_numberText (by decide)
  have hpieces : explode .hyphen (rangeItem a b) (-1) = [numberText a.toNat, numberText b.toNat] := by
    rw [explode, if_pos (by simp [rangeItem]), rangeItem, explodeFrom_append_cons rfl (hhyphen _) (by decide),
      explodeFrom_of_notMem rfl (hhyphen _)]
  rw [expandItem, hpieces, List.map_cons, List.map_cons, List.map_nil, trim_numberText, trim_numberText]
  simp only [if_neg (numberText_ne_nil _), stoul_numberText]
  show Except.ok _ = Except.ok _
  rw [expandLoop_eq]

/-- `expand` of an option that is one range gives the numbers from its first bound up to the second one. -/
theorem expand_rangeItem (a b : UInt64) :
    expand (rangeItem a b) = .ok (countUp a (b - a).toNat ++ [b]).toFinset := by
  have hnil : rangeItem a b ≠ [] := List.append_ne_nil_of_right_ne_nil _ (List.cons_ne_nil _ _)
  have hcomma : 44 ∉ rangeItem a b := by
    rw [rangeItem, List.mem_append, List.mem_cons, not_or, not_or]
    exact ⟨not_mem_numberText (by decide), by decide, not_mem_numberText (by decide)⟩
  have hspace : ∀ c ∈ rangeItem a b, isSpace c ≠ true := by
    intro c hc
    rcases List.mem_append.mp hc with hc | hc
    · exact isSpace_ne_of_mem_numberText c hc
    · rcases List.mem_cons.mp hc with rfl | hc
      · decide
      · exact isSpace_ne_of_mem_numberText c hc
  unfold expand
  rw [if_neg hnil, explode, if_pos hnil, explodeFrom_of_notMem rfl hcomma, List.map_singleton,
    trim_of_not_space hspace]
  simp only [List.foldlM_cons, expandItem_rangeItem]
  rfl

/-- A range adds only numbers between its bounds, and its loop takes no more turns than there are from one bound to
the other. Each turn adds one number, and the second bound is added behind the loop. -/
def StaysBetween (a b : UInt64) : Prop :=
  ∀ result, ∃ turns, expandItem result (rangeItem a b) = .ok (result ++ turns ++ [b]) ∧
    (∀ x ∈ turns ++ [b], min a.toNat b.toNat ≤ x.toNat ∧ x.toNat ≤ max a.toNat b.toNat) ∧
    turns.length ≤ max a.toNat b.toNat - min a.toNat b.toNat

/-- A range `StaysBetween` exactly when the row from the first bound to the second lies between them, and is no longer
than their distance. -/
theorem staysBetween_iff_countUp (a b : UInt64) :
    StaysBetween a b ↔ (∀ x ∈ countUp a (b - a).toNat ++ [b],
        min a.toNat b.toNat ≤ x.toNat ∧ x.toNat ≤ max a.toNat b.toNat) ∧
      (b - a).toNat ≤ max a.toNat b.toNat - min a.toNat b.toNat := by
  constructor
  · intro h
    obtain ⟨turns, hturns, hbetween, hlength⟩ := h []
    rw [expandItem_rangeItem, Except.ok.injEq, List.nil_append, List.nil_append, List.append_cancel_right_eq] at hturns
    rw [← hturns, length_countUp] at hlength
    rw [← hturns] at hbetween
    exact ⟨hbetween, hlength⟩
  · rintro ⟨hbetween, hlength⟩ result
    exact ⟨_, expandItem_rangeItem result a b, hbetween, by rwa [length_countUp]⟩

/-- A range `StaysBetween` exactly when its bounds are in order, or where the largest number and zero follow each
other. -/
theorem staysBetween_iff (a b : UInt64) : StaysBetween a b ↔ a ≤ b ∨ (a.toNat = 2 ^ 64 - 1 ∧ b = 0) := by
  have hdistance : ∀ x : UInt64, (x - a).toNat = (2 ^ 64 - a.toNat + x.toNat) % 2 ^ 64 :=
    fun x => UInt64.toNat_sub x a
  have hmem : ∀ x, x ∈ countUp a (b - a).toNat ++ [b] ↔ (x - a).toNat < (b - a).toNat ∨ x = b := by
    intro x
    rw [List.mem_append, List.mem_singleton, mem_countUp (b - a).toNat_lt.le]
  have hzero : b = 0 ↔ b.toNat = 0 := UInt64.toNat_inj.symm
  have ha := a.toNat_lt
  have hb := b.toNat_lt
  rw [staysBetween_iff_countUp, UInt64.le_iff_toNat_le, hzero]
  simp only [hmem]
  simp only [hdistance]
  constructor
  · rintro ⟨hbetween, -⟩
    by_contra hnot
    -- The loop passes the largest number, and then zero.
    have hlargest := hbetween (UInt64.ofNat (2 ^ 64 - 1))
    have hsmallest := hbetween 0
    rw [UInt64.toNat_ofNat'] at hlargest
    rw [UInt64.toNat_zero] at hsmallest
    omega
  · intro h
    refine ⟨fun x hx => ?_, by omega⟩
    have hxlt := x.toNat_lt
    rcases hx with hx | rfl <;> omega

/-- The range `2-1` adds the number three, which is not between its bounds. -/
theorem not_staysBetween : ¬ ∀ a b, StaysBetween a b := by
  intro h
  have hthree : 3 ∈ countUp 2 (1 - 2 : UInt64).toNat ++ [1] :=
    List.mem_append_left _ ((mem_countUp (1 - 2 : UInt64).toNat_lt.le).mpr (by decide))
  obtain ⟨-, hle⟩ := ((staysBetween_iff_countUp 2 1).mp (h 2 1)).1 3 hthree
  exact absurd hle (by decide)

end Utils

end NavekFiber
