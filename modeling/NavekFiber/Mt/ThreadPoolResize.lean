import Mathlib.Order.Bounds.Basic
import NavekFiber.Mt.ThreadPoolGrowth

/-! # How many workers `CheckResize` hires

`CheckResize` compares the tasks with the idle workers and hires the least whole number of groups of
`PoolInitWorkers` that covers the difference, cut to what `PoolMaxWorkers` leaves. All of it happens in
`size_t`, with a signed count of busy workers. `checkedResize` is the same decision with every result
checked against the range of `size_t`; within the bounds on the counts no check fails, and the two decide
alike (`checkResize_exact`). -/

namespace NavekFiber

namespace ThreadPool

variable {l : Limits} {numWorker numTasks : UInt64} {busy : ℤ}

/-- A result that is a `size_t`; none otherwise. -/
def inRange (result : ℤ) : Option UInt64 :=
  if 0 ≤ result ∧ result < 2 ^ 64 then some (UInt64.ofNat result.toNat) else none

/-- `NewWorkerCount` before it is cut to the limit, with each operation checked. -/
def checkedWanted (l : Limits) (numWorker numTasks : UInt64) (busy : ℤ) : Option UInt64 := do
  let available ← inRange (numWorker.toNat - busy)
  if available < numTasks then
    let missing ← inRange (numTasks.toNat - available.toNat)
    let rest ← inRange (l.poolInitWorkers.toNat - 1)
    let sum ← inRange (missing.toNat + rest.toNat)
    let groups ← inRange (sum.toNat / l.poolInitWorkers.toNat)
    inRange (groups.toNat * l.poolInitWorkers.toNat)
  else return 0

/-- `CheckResize` with each operation checked. -/
def checkedResize (l : Limits) (numWorker numTasks : UInt64) (busy : ℤ) : Option UInt64 := do
  let newWorkerCount ← checkedWanted l numWorker numTasks busy
  let total ← inRange (numWorker.toNat + newWorkerCount.toNat)
  if l.poolMaxWorkers < total then inRange (l.poolMaxWorkers.toNat - numWorker.toNat)
  else return newWorkerCount

/-- The number of workers that are not busy. -/
def idleWorkers (numWorker : UInt64) (busy : ℤ) : ℕ := (numWorker.toNat - busy).toNat

/-! ### The operations one by one -/

/-- A result that is the value of a `size_t` passes `inRange`. -/
theorem inRange_toNat (a : UInt64) : inRange a.toNat = some a := by
  have := a.toNat_lt
  rw [inRange, if_pos (by omega), Int.toNat_natCast, UInt64.ofNat_toNat]

/-- An operation whose result is exact passes `inRange`. -/
theorem inRange_eq {result : ℤ} {a : UInt64} (h : (a.toNat : ℤ) = result) : inRange result = some a := by
  rw [← h, inRange_toNat]

/-- With a busy count that may be anything up to the number of workers, `availableWorkers` is the number of
`idleWorkers`. -/
theorem toNat_availableWorkers_eq (hlong : -2 ^ 63 ≤ busy) (hbusy : busy ≤ numWorker.toNat)
    (hworker : numWorker.toNat < 2 ^ 63) :
    (availableWorkers numWorker busy).toNat = idleWorkers numWorker busy := by
  have hmod : (UInt64.ofInt busy).toNat = (busy % 2 ^ 64).toNat := by
    rw [UInt64.ofInt, UInt64.toNat_ofNat']
    omega
  rw [availableWorkers, UInt64.toNat_sub, hmod, idleWorkers]
  omega

/-! ### The decision -/

/-- No operation of `CheckResize` up to the rounding leaves the range of `size_t`: `checkedWanted` is
`wantedWorkers`. -/
theorem checkedWanted_eq (hlong : -2 ^ 63 ≤ busy) (hbusy : busy ≤ numWorker.toNat)
    (hroom : numWorker.toNat + numTasks.toNat + l.poolInitWorkers.toNat < 2 ^ 63) :
    checkedWanted l numWorker numTasks busy = some (wantedWorkers l numWorker numTasks busy) := by
  have hinit := l.init_pos
  have havailable : inRange (numWorker.toNat - busy) = some (availableWorkers numWorker busy) := by
    apply inRange_eq
    rw [toNat_availableWorkers_eq hlong hbusy (by omega), idleWorkers]
    omega
  unfold checkedWanted wantedWorkers
  rw [havailable]
  set available := availableWorkers numWorker busy
  simp only [Option.bind_eq_bind, Option.bind_some]
  split
  · rename_i hlt
    have hle := UInt64.le_iff_toNat_le.mp (UInt64.le_of_lt hlt)
    have hmissing : (numTasks - available).toNat = numTasks.toNat - available.toNat :=
      UInt64.toNat_sub_of_le _ _ (UInt64.le_of_lt hlt)
    have hrest : (l.poolInitWorkers - 1).toNat = l.poolInitWorkers.toNat - 1 :=
      UInt64.toNat_sub_of_le _ _ (UInt64.le_iff_toNat_le.mpr hinit)
    have hsum : ((numTasks - available) + (l.poolInitWorkers - 1)).toNat =
        (numTasks - available).toNat + (l.poolInitWorkers - 1).toNat := by
      rw [UInt64.toNat_add, Nat.mod_eq_of_lt]
      omega
    have hgroups := UInt64.toNat_div ((numTasks - available) + (l.poolInitWorkers - 1)) l.poolInitWorkers
    have hproduct : (((numTasks - available) + (l.poolInitWorkers - 1)) / l.poolInitWorkers *
        l.poolInitWorkers).toNat = (((numTasks - available) + (l.poolInitWorkers - 1)) / l.poolInitWorkers).toNat *
          l.poolInitWorkers.toNat := by
      rw [UInt64.toNat_mul, Nat.mod_eq_of_lt]
      calc _ ≤ ((numTasks - available) + (l.poolInitWorkers - 1)).toNat := hgroups ▸ Nat.div_mul_le_self _ _
        _ < 2 ^ 64 := UInt64.toNat_lt _
    rw [inRange_eq (a := numTasks - available) (by omega), Option.bind_some,
      inRange_eq (a := l.poolInitWorkers - 1) (by omega), Option.bind_some,
      inRange_eq (by rw [hsum, Nat.cast_add]), Option.bind_some,
      inRange_eq (by rw [hgroups, Int.natCast_ediv]), Option.bind_some]
    exact inRange_eq (by rw [hproduct, Nat.cast_mul])
  · rfl

/-- No operation of `CheckResize` leaves the range of `size_t`: `checkedResize` is `checkResize`. -/
theorem checkedResize_eq (hlong : -2 ^ 63 ≤ busy) (hbusy : busy ≤ numWorker.toNat)
    (hmax : numWorker.toNat ≤ l.poolMaxWorkers.toNat)
    (hroom : numWorker.toNat + numTasks.toNat + l.poolInitWorkers.toNat < 2 ^ 63) :
    checkedResize l numWorker numTasks busy = some (checkResize l numWorker numTasks busy) := by
  have hwanted : (wantedWorkers l numWorker numTasks busy).toNat < numTasks.toNat + l.poolInitWorkers.toNat :=
    toNat_wantedWorkers_lt (by omega)
  have htotal : (numWorker + wantedWorkers l numWorker numTasks busy).toNat =
      numWorker.toNat + (wantedWorkers l numWorker numTasks busy).toNat := by
    rw [UInt64.toNat_add, Nat.mod_eq_of_lt]
    omega
  have hleft : (l.poolMaxWorkers - numWorker).toNat = l.poolMaxWorkers.toNat - numWorker.toNat :=
    UInt64.toNat_sub_of_le _ _ (UInt64.le_iff_toNat_le.mpr hmax)
  have hdecision : checkResize l numWorker numTasks busy =
      if l.poolMaxWorkers < numWorker + wantedWorkers l numWorker numTasks busy then l.poolMaxWorkers - numWorker
      else wantedWorkers l numWorker numTasks busy := rfl
  rw [hdecision, checkedResize, checkedWanted_eq hlong hbusy hroom, Option.bind_eq_bind, Option.bind_some,
    inRange_eq (by rw [htotal, Nat.cast_add]), Option.bind_some]
  split
  · exact inRange_eq (by omega)
  · rfl

/-- Rounding the missing workers up gives the least multiple that is enough. -/
theorem isLeast_roundUp {idle tasks i : ℕ} (hi : 0 < i) :
    IsLeast {n | i ∣ n ∧ tasks ≤ idle + n} ((tasks - idle + (i - 1)) / i * i) := by
  constructor
  · have hcovers := (roundUp_le_iff (m := tasks - idle) hi).mp le_rfl
    exact ⟨Nat.dvd_mul_left _ _, by omega⟩
  · rintro n ⟨⟨groups, rfl⟩, hcovers⟩
    rw [Nat.mul_comm i groups]
    exact (roundUp_le_iff hi).mpr (by rw [Nat.mul_comm]; omega)

/-- The section of `Hire` adds as many workers as it is told to. -/
theorem card_hireSection {pool pool' : ThreadPool} {ids : List ThreadId}
    (h : pool.hireSection ids = some pool') : pool'.poolWorkers.card = pool.poolWorkers.card + ids.length := by
  induction ids generalizing pool with
  | nil =>
      obtain rfl := Option.some.inj h
      rfl
  | cons id ids ih =>
      rw [hireSection] at h
      split at h
      · cases h
      · rename_i hnew
        rw [ih h, Finset.card_insert_of_notMem hnew, List.length_cons]
        omega

/-- With no more workers busy than there are and no more workers than allowed, `CheckResize` hires nobody
when the idle workers are enough, and otherwise the least whole number of groups that is enough, as far as
the limit allows. It stays within the limit, and hires enough or reaches the limit. -/
theorem checkResize_exact (l : Limits) (numWorker numTasks : UInt64) (busy : Int64)
    (hbusy : busy.toInt ≤ numWorker.toNat) (hmax : numWorker.toNat ≤ l.poolMaxWorkers.toNat)
    (hroom : numWorker.toNat + numTasks.toNat + l.poolInitWorkers.toNat < 2 ^ 63) :
    let hired := (checkResize l numWorker numTasks busy.toInt).toNat
    let idle := idleWorkers numWorker busy.toInt
    checkedResize l numWorker numTasks busy.toInt = some (checkResize l numWorker numTasks busy.toInt) ∧
      (numTasks.toNat ≤ idle → hired = 0) ∧
      (idle < numTasks.toNat → ∃ wanted,
        IsLeast {n | l.poolInitWorkers.toNat ∣ n ∧ numTasks.toNat ≤ idle + n} wanted ∧
          hired = min wanted (l.poolMaxWorkers.toNat - numWorker.toNat)) ∧
      numWorker.toNat + hired ≤ l.poolMaxWorkers.toNat ∧
      (numTasks.toNat ≤ idle + hired ∨ numWorker.toNat + hired = l.poolMaxWorkers.toNat) ∧
      ∀ (pool pool' : ThreadPool) (ids : List ThreadId), ids.length = hired →
        pool.hireSection ids = some pool' → pool'.poolWorkers.card = pool.poolWorkers.card + hired := by
  intro hired idle
  have hlong : -2 ^ 63 ≤ busy.toInt := Int64.le_toInt busy
  have hexact := checkedResize_eq hlong hbusy hmax hroom
  have hwithin : numWorker.toNat + hired ≤ l.poolMaxWorkers.toNat := add_checkResize_le _ hmax hroom
  obtain ⟨wanted, hleast, hresize⟩ : ∃ wanted,
      IsLeast {n | l.poolInitWorkers.toNat ∣ n ∧ numTasks.toNat ≤ idle + n} wanted ∧
        hired = min wanted (l.poolMaxWorkers.toNat - numWorker.toNat) := by
    refine ⟨_, isLeast_roundUp l.init_pos, ?_⟩
    show (checkResize l numWorker numTasks busy.toInt).toNat = _
    rw [toNat_checkResize busy.toInt hmax hroom, toNat_wantedWorkers (by omega),
      toNat_availableWorkers_eq hlong hbusy (by omega)]
  have hcovers : numTasks.toNat ≤ idle + wanted := hleast.1.2
  refine ⟨hexact, fun hidle => ?_, fun _ => ⟨wanted, hleast, hresize⟩, hwithin, ?_, ?_⟩
  · have hzero : wanted ≤ 0 := hleast.2 ⟨Nat.dvd_zero _, hidle⟩
    clear_value hired
    omega
  · clear_value hired idle
    omega
  · intro pool pool' ids hlength hhired
    rw [card_hireSection hhired, hlength]

/-- The limits of a pool that hires its workers two at a time. -/
def twoAtATime : Limits := ⟨2, 100, Nat.two_pos, Nat.le_of_ble_eq_true rfl⟩

/-- With two of three workers busy and five tasks, `CheckResize` hires the least even number that is enough. -/
theorem checkResize_exact_five :
    ∃ wanted, IsLeast {n | 2 ∣ n ∧ 5 ≤ 1 + n} wanted ∧
      (checkResize twoAtATime 3 5 2).toNat = min wanted (100 - 3) :=
  (checkResize_exact twoAtATime 3 5 2 (by decide) (by decide) (by decide)).2.2.1 (by decide)

end ThreadPool

end NavekFiber
