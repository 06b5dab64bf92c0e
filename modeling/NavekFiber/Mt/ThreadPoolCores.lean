import Mathlib.Data.Finset.Sort
import NavekFiber.Mt.ThreadPool
import NavekFiber.Utils.Options

/-! # The cores of the worker pool

The constructor of `ThreadPool` chooses the cores that the workers are bound to. Without a binding it takes
every core that is not excluded; otherwise it takes the bound cores modulo the number of hardware threads,
less the excluded ones. The guard behind the two loops is what the later divisions rest on. The first
division comes before the guard: the standard lets `hardware_concurrency` return zero, and the constructor
keeps what it promises exactly where that is not so or no core is bound (`new_promised_iff`).

Every `std::thread` is taken to start: that its constructor may throw `std::system_error`, when the system has no
thread to give, is left out. -/

namespace NavekFiber

open Utils

/-- The order in which the elements of an `unordered_set` are walked through, which the standard leaves
open. -/
structure WalkOrder where
  /-- The elements of a set, one after the other. -/
  elements : Finset UInt64 → List UInt64
  /-- No element comes twice. -/
  nodup : ∀ s, (elements s).Nodup
  /-- Every element comes, and nothing else does. -/
  mem_elements : ∀ s core, core ∈ elements s ↔ core ∈ s

namespace ThreadPool

/-- How a constructor call can fail. -/
inductive Failure
  /-- The constructor throws. -/
  | throws (exn : Exn)
  /-- The process stops at a division by zero. -/
  | divisionByZero
  /-- The constructor reads an element past the end of a vector. -/
  | outOfBounds

/-- `a % b`, which fails when `b` is zero. -/
def modulo (a b : UInt64) : Except Failure UInt64 := if b = 0 then .error .divisionByZero else .ok (a % b)

/-- The loop without a binding, `for (; max_threads--;)`. -/
def allCores (exclude : Finset UInt64) : ℕ → Finset UInt64 → Finset UInt64
  | 0, uniqCores => uniqCores
  | maxThreads + 1, uniqCores =>
      let core := UInt64.ofNat maxThreads
      allCores exclude maxThreads
        (if exclude = ∅ ∨ core ∉ exclude then insert core uniqCores else uniqCores)

/-- The body of the loop over the bound cores. It divides whether or not there are excluded cores. -/
def boundCore (maxThreads : UInt64) (exclude uniqCores : Finset UInt64) (co : UInt64) :
    Except Failure (Finset UInt64) := do
  let core ← modulo co maxThreads
  return if exclude = ∅ ∨ core ∉ exclude then insert core uniqCores else uniqCores

/-- `uniqCores` behind the loops. -/
def uniqCores (walk : WalkOrder) (maxThreads : UInt64) (worker exclude : Finset UInt64) :
    Except Failure (Finset UInt64) :=
  if worker = ∅ then .ok (allCores exclude maxThreads.toNat ∅)
  else (walk.elements worker).foldlM (boundCore maxThreads exclude) ∅

/-- The cores of the workers that `Hire` adds, and `PoolIndexWorkers` behind it. -/
def hireCores (binding : List UInt64) : ℕ → UInt64 → Except Failure (List UInt64 × UInt64)
  | 0, index => .ok ([], index)
  | numWorkers + 1, index => do
      let position ← modulo index (UInt64.ofNat binding.length)
      match binding[position.toNat]? with
      | some core => do
          let (cores, index) ← hireCores binding numWorkers (index + 1)
          return (core :: cores, index)
      | none => .error .outOfBounds

/-- A pool as the constructor leaves it. -/
structure Created where
  /-- `PoolInitWorkers` and `PoolMaxWorkers`. -/
  limits : Limits
  /-- `PoolWorkersBinding`. -/
  poolWorkersBinding : List UInt64
  /-- An empty binding is refused. -/
  binding_ne_nil : poolWorkersBinding ≠ []
  /-- The cores of the workers that have been hired. -/
  cores : List UInt64
  /-- `PoolIndexWorkers`. -/
  poolIndexWorkers : UInt64

/-- The exception of the constructor. Both numbers are printed as if they had a sign, and the text is
printed to a buffer with one byte less than it needs. -/
def invalidInitialization (initWorkers maxWorkers : UInt64) (coreBinding : List UInt8) : Exn :=
  .runtimeException ((bytes "Invalid thread pool initialization. (Workers: " ++
    numberText initWorkers.toInt64.toInt ++ bytes ", Max: " ++ numberText maxWorkers.toInt64.toInt ++
    bytes ", Bindigns: " ++ coreBinding.takeWhile (· != 0) ++ bytes ")").dropLast ++
    bytes " | threadpool.cpp:" ++ numberText 57)

/-- The constructor behind the conversion of its arguments. -/
def create (walk : WalkOrder) (hardwareConcurrency : UInt32) (initWorkers maxWorkers : UInt64)
    (coreBinding : List UInt8) (worker exclude : Finset UInt64) : Except Failure Created := do
  let cores ← uniqCores walk hardwareConcurrency.toUInt64 worker exclude
  let binding := walk.elements cores
  if h : binding = [] ∨ initWorkers = 0 ∨ maxWorkers < initWorkers then
    .error (.throws (invalidInitialization initWorkers maxWorkers coreBinding))
  else do
    let (hired, index) ← hireCores binding initWorkers.toNat 0
    return {
      limits := {
        poolInitWorkers := initWorkers
        poolMaxWorkers := maxWorkers
        init_pos := Nat.pos_of_ne_zero fun hzero =>
          h (Or.inr (Or.inl (UInt64.toNat_inj.mp (hzero.trans UInt64.toNat_zero.symm))))
        init_le_max := Nat.le_of_not_lt fun hlt => h (Or.inr (Or.inr (UInt64.lt_iff_toNat_lt.mpr hlt))) }
      poolWorkersBinding := binding
      binding_ne_nil := fun hnil => h (Or.inl hnil)
      cores := hired
      poolIndexWorkers := index }

/-- What a conversion throws leaves the constructor. -/
def converted {α : Type} : Except Exn α → Except Failure α
  | .ok value => .ok value
  | .error exn => .error (.throws exn)

/-- The constructor. -/
def new (walk : WalkOrder) (hardwareConcurrency : UInt32)
    (initialWorkers maxWorkers coreBinding excludeBinding : List UInt8) : Except Failure Created := do
  let init ← converted (stoul initialWorkers)
  let max ← converted (stoul maxWorkers)
  let worker ← converted (expand coreBinding)
  let exclude ← converted (expand excludeBinding)
  create walk hardwareConcurrency init max coreBinding worker exclude

/-- What is promised of a pool for these numbers and these sets of cores. -/
structure Created.Valid (pool : Created) (hardwareConcurrency : UInt32) (initWorkers maxWorkers : UInt64)
    (worker exclude : Finset UInt64) : Prop where
  /-- There is a core to bind to. -/
  ne_nil : pool.poolWorkersBinding ≠ []
  /-- No core comes twice. -/
  nodup : pool.poolWorkersBinding.Nodup
  /-- The machine has the cores, and none of them is excluded. -/
  below : ∀ core ∈ pool.poolWorkersBinding, core.toNat < hardwareConcurrency.toNat ∧ core ∉ exclude
  /-- With a binding, every bound core that is not excluded is there. -/
  bound : ∀ co ∈ worker, co % hardwareConcurrency.toUInt64 ∉ exclude →
    co % hardwareConcurrency.toUInt64 ∈ pool.poolWorkersBinding
  /-- Without one, every core that is not excluded is there. -/
  all : worker = ∅ → ∀ core : UInt64, core.toNat < hardwareConcurrency.toNat → core ∉ exclude →
    core ∈ pool.poolWorkersBinding
  /-- The limits are those asked for. -/
  limits : pool.limits.poolInitWorkers = initWorkers ∧ pool.limits.poolMaxWorkers = maxWorkers
  /-- There is a worker to begin with, and room for the workers to begin with. -/
  bounds : 1 ≤ initWorkers.toNat ∧ initWorkers.toNat ≤ maxWorkers.toNat

/-- What is promised of a constructor call: it throws a `RuntimeException`, or leaves such a pool. -/
def Promised (hardwareConcurrency : UInt32) (initWorkers maxWorkers : UInt64)
    (worker exclude : Finset UInt64) : Except Failure Created → Prop
  | .ok pool => pool.Valid hardwareConcurrency initWorkers maxWorkers worker exclude
  | .error (.throws (.runtimeException _)) => True
  | .error _ => False

/-- A core is to be used: it is bound, or there is no binding, and it is not excluded. -/
def Chosen (maxThreads : UInt64) (worker exclude : Finset UInt64) (core : UInt64) : Prop :=
  core ∉ exclude ∧ (worker = ∅ ∧ core.toNat < maxThreads.toNat ∨ ∃ co ∈ worker, core = co % maxThreads)

section Cores

variable {walk : WalkOrder} {maxThreads core : UInt64} {worker exclude cores : Finset UInt64}
  {binding : List UInt64}

/-! ### The loops -/

/-- The check whether the excluded cores are empty does not change which cores are used. -/
theorem empty_or_notMem : exclude = ∅ ∨ core ∉ exclude ↔ core ∉ exclude := by
  refine or_iff_right_of_imp ?_
  rintro rfl
  exact Finset.notMem_empty core

/-- A turn of either loop adds its core unless that is excluded. -/
theorem mem_turn (added : UInt64) :
    core ∈ (if exclude = ∅ ∨ added ∉ exclude then insert added cores else cores) ↔
      core ∈ cores ∨ core ∉ exclude ∧ core = added := by
  rw [if_congr empty_or_notMem rfl rfl]
  split
  · rename_i hnot
    rw [Finset.mem_insert, or_comm]
    refine or_congr_right ⟨?_, And.right⟩
    rintro rfl
    exact ⟨hnot, rfl⟩
  · rename_i hexclude
    refine (or_iff_left ?_).symm
    rintro ⟨hnot, rfl⟩
    exact hexclude hnot

/-- `allCores` adds the cores below its bound that are not excluded. -/
theorem mem_allCores (n : ℕ) (cores : Finset UInt64) :
    core ∈ allCores exclude n cores ↔
      core ∈ cores ∨ core ∉ exclude ∧ ∃ i < n, core = UInt64.ofNat i := by
  induction n generalizing cores with
  | zero => simp [allCores]
  | succ n ih =>
      unfold allCores
      rw [ih, mem_turn, or_assoc, ← and_or_left, Nat.exists_lt_succ_right, or_comm (a := core = _)]

/-- The loop over bound cores adds their remainders that are not excluded. -/
theorem foldlM_boundCore (exclude : Finset UInt64) (hpos : maxThreads ≠ 0) (list : List UInt64)
    (cores : Finset UInt64) :
    ∃ cores', list.foldlM (boundCore maxThreads exclude) cores = .ok cores' ∧
      ∀ core, core ∈ cores' ↔ core ∈ cores ∨ core ∉ exclude ∧ ∃ co ∈ list, core = co % maxThreads := by
  induction list generalizing cores with
  | nil => exact ⟨cores, rfl, fun core => by simp⟩
  | cons co list ih =>
      obtain ⟨cores', hrest, hmem⟩ := ih
        (if exclude = ∅ ∨ co % maxThreads ∉ exclude then insert (co % maxThreads) cores else cores)
      refine ⟨cores', ?_, fun core => ?_⟩
      · rw [List.foldlM_cons, boundCore, modulo, if_neg hpos]
        exact hrest
      · rw [hmem, mem_turn, or_assoc, ← and_or_left, List.exists_mem_cons_iff]

/-- `uniqCores` ends with the cores to be used when there is a hardware thread, or no core is bound. -/
theorem uniqCores_ok (walk : WalkOrder) (exclude : Finset UInt64) (hdivides : maxThreads ≠ 0 ∨ worker = ∅) :
    ∃ cores, uniqCores walk maxThreads worker exclude = .ok cores ∧
      ∀ core, core ∈ cores ↔ Chosen maxThreads worker exclude core := by
  unfold uniqCores
  split
  · rename_i hworker
    refine ⟨_, rfl, fun core => ?_⟩
    have hbelow : (∃ i < maxThreads.toNat, core = UInt64.ofNat i) ↔ core.toNat < maxThreads.toNat := by
      constructor
      · rintro ⟨i, hi, rfl⟩
        rwa [UInt64.toNat_ofNat_of_lt' (hi.trans maxThreads.toNat_lt)]
      · intro hlt
        exact ⟨core.toNat, hlt, UInt64.ofNat_toNat.symm⟩
    rw [mem_allCores, hbelow, Chosen]
    simp [hworker]
  · rename_i hworker
    obtain ⟨cores, hcores, hmem⟩ :=
      foldlM_boundCore exclude (hdivides.resolve_right hworker) (walk.elements worker) ∅
    refine ⟨cores, hcores, fun core => ?_⟩
    simp only [hmem, walk.mem_elements, Chosen, hworker, Finset.notMem_empty, false_and, false_or]

/-- `uniqCores` divides by zero when there is no hardware thread and a core is bound. -/
theorem uniqCores_zero (walk : WalkOrder) (hworker : worker ≠ ∅) :
    uniqCores walk 0 worker exclude = .error .divisionByZero := by
  rw [uniqCores, if_neg hworker]
  obtain ⟨co, hco⟩ := Finset.nonempty_iff_ne_empty.mpr hworker
  cases hlist : walk.elements worker with
  | nil =>
      rw [← walk.mem_elements, hlist] at hco
      cases hco
  | cons first list =>
      rw [List.foldlM_cons, boundCore, modulo, if_pos rfl]
      rfl

/-- A `Chosen` core is below the number of threads. -/
theorem Chosen.lt (hpos : maxThreads ≠ 0 ∨ worker = ∅) (h : Chosen maxThreads worker exclude core) :
    core.toNat < maxThreads.toNat := by
  obtain ⟨-, ⟨-, hlt⟩ | ⟨co, hco, rfl⟩⟩ := h
  · exact hlt
  · have hne : maxThreads ≠ 0 := hpos.resolve_right (Finset.ne_empty_of_mem hco)
    rw [UInt64.toNat_mod]
    apply Nat.mod_lt
    exact Nat.pos_of_ne_zero fun hzero => hne (UInt64.toNat_inj.mp hzero)

/-! ### The workers to begin with -/

/-- Different cores below a bound are no more than the bound. -/
theorem length_le_of_lt {n : ℕ} (hnodup : binding.Nodup) (hlt : ∀ core ∈ binding, core.toNat < n) :
    binding.length ≤ n := by
  have hsubset : binding.map UInt64.toNat ⊆ List.range n := by
    intro i hi
    obtain ⟨core, hcore, rfl⟩ := List.mem_map.mp hi
    exact List.mem_range.mpr (hlt core hcore)
  have hle := ((hnodup.map fun _ _ => UInt64.toNat_inj.mp).subperm hsubset).length_le
  rwa [List.length_map, List.length_range] at hle

/-- With a binding, `hireCores` has one of its cores for every worker that is hired. -/
theorem hireCores_ok (hne : binding ≠ []) (hlength : binding.length < 2 ^ 64) (n : ℕ) (index : UInt64) :
    ∃ cores index', hireCores binding n index = .ok (cores, index') ∧ cores.length = n ∧
      ∀ core ∈ cores, core ∈ binding := by
  induction n generalizing index with
  | zero => exact ⟨[], index, rfl, rfl, fun core hcore => by cases hcore⟩
  | succ n ih =>
      have hsize : (UInt64.ofNat binding.length).toNat = binding.length := UInt64.toNat_ofNat_of_lt' hlength
      have hpos : 0 < binding.length := List.length_pos_of_ne_nil hne
      have hne : UInt64.ofNat binding.length ≠ 0 := by
        intro hzero
        rw [hzero, UInt64.toNat_zero] at hsize
        omega
      have hlt : (index % UInt64.ofNat binding.length).toNat < binding.length := by
        rw [UInt64.toNat_mod, hsize]
        exact Nat.mod_lt _ hpos
      obtain ⟨cores, index', hrest, hcount, hmem⟩ := ih (index + 1)
      refine ⟨binding[(index % UInt64.ofNat binding.length).toNat] :: cores, index', ?_,
        congrArg Nat.succ hcount, ?_⟩
      · rw [hireCores, modulo, if_neg hne]
        simp only [Except.bind, bind, List.getElem?_eq_getElem hlt, hrest]
        rfl
      · intro core hcore
        rcases List.mem_cons.mp hcore with rfl | hcore
        · exact List.getElem_mem hlt
        · exact hmem core hcore

/-! ### The constructor -/

/-- The constructor keeps its promise when there is a hardware thread, or no core is bound. -/
theorem create_promised {hardwareConcurrency : UInt32} (walk : WalkOrder) (initWorkers maxWorkers : UInt64)
    (coreBinding : List UInt8) (hdivides : hardwareConcurrency ≠ 0 ∨ worker = ∅) :
    Promised hardwareConcurrency initWorkers maxWorkers worker exclude
      (create walk hardwareConcurrency initWorkers maxWorkers coreBinding worker exclude) := by
  have hthreads : hardwareConcurrency.toUInt64.toNat = hardwareConcurrency.toNat :=
    UInt32.toNat_toUInt64 hardwareConcurrency
  have hpos : hardwareConcurrency.toUInt64 ≠ 0 ∨ worker = ∅ := by
    refine hdivides.imp_left fun hne hzero => hne (UInt32.toNat_inj.mp ?_)
    rw [← hthreads, hzero]
    rfl
  obtain ⟨cores, hcores, hmem⟩ := uniqCores_ok walk exclude hpos
  have hbinding : ∀ core, core ∈ walk.elements cores ↔ Chosen hardwareConcurrency.toUInt64 worker exclude core :=
    fun core => (walk.mem_elements cores core).trans (hmem core)
  have hbelow : ∀ core ∈ walk.elements cores, core.toNat < hardwareConcurrency.toNat := by
    intro core hcore
    rw [← hthreads]
    exact ((hbinding core).mp hcore).lt hpos
  unfold create
  rw [hcores]
  simp only [Except.bind, bind]
  split
  · trivial
  · rename_i hguard
    rw [not_or, not_or, UInt64.not_lt] at hguard
    obtain ⟨hne, hinit, hmax⟩ := hguard
    have hlength : (walk.elements cores).length < 2 ^ 64 := by
      have := length_le_of_lt (walk.nodup cores) hbelow
      have := hardwareConcurrency.toNat_lt
      omega
    obtain ⟨hired, index, hhired, -⟩ := hireCores_ok hne hlength initWorkers.toNat 0
    rw [hhired]
    exact {
      ne_nil := hne
      nodup := walk.nodup cores
      below := fun core hcore => ⟨hbelow core hcore, ((hbinding core).mp hcore).1⟩
      bound := fun co hco hnot => (hbinding _).mpr ⟨hnot, Or.inr ⟨co, hco, rfl⟩⟩
      all := fun hworker core hlt hnot => (hbinding core).mpr ⟨hnot, Or.inl ⟨hworker, hthreads ▸ hlt⟩⟩
      limits := ⟨rfl, rfl⟩
      bounds := ⟨Nat.pos_of_ne_zero fun hzero => hinit (UInt64.toNat_inj.mp hzero), hmax⟩ }

/-- The constructor does not keep its promise when there is no hardware thread and a core is bound: it divides by
zero. -/
theorem not_create_promised (walk : WalkOrder) (initWorkers maxWorkers : UInt64) (coreBinding : List UInt8)
    (hworker : worker ≠ ∅) :
    ¬ Promised 0 initWorkers maxWorkers worker exclude
      (create walk 0 initWorkers maxWorkers coreBinding worker exclude) := by
  unfold create
  rw [show UInt32.toUInt64 0 = 0 from rfl, uniqCores_zero walk hworker]
  exact id

end Cores

variable {initialWorkers maximalWorkers coreBinding excludeBinding : List UInt8} {initWorkers maxWorkers : UInt64}
  {worker exclude : Finset UInt64}

/-- A constructor call whose arguments are a number of workers, a greatest number of them and two sets of
cores, and whose threads all start, keeps its promise exactly when there is a hardware thread or no core is
bound. -/
theorem new_promised_iff (walk : WalkOrder) (hardwareConcurrency : UInt32)
    (hinit : stoul initialWorkers = .ok initWorkers) (hmax : stoul maximalWorkers = .ok maxWorkers)
    (hworker : expand coreBinding = .ok worker) (hexclude : expand excludeBinding = .ok exclude) :
    Promised hardwareConcurrency initWorkers maxWorkers worker exclude
        (new walk hardwareConcurrency initialWorkers maximalWorkers coreBinding excludeBinding) ↔
      hardwareConcurrency ≠ 0 ∨ worker = ∅ := by
  have hnew : new walk hardwareConcurrency initialWorkers maximalWorkers coreBinding excludeBinding =
      create walk hardwareConcurrency initWorkers maxWorkers coreBinding worker exclude := by
    rw [new, hinit, hmax, hworker, hexclude]
    rfl
  rw [hnew]
  constructor
  · intro hpromised
    by_contra hnot
    obtain ⟨hzero, hne⟩ := not_or.mp hnot
    rw [not_not] at hzero
    subst hzero
    exact not_create_promised walk initWorkers maxWorkers coreBinding hne hpromised
  · exact create_promised walk initWorkers maxWorkers coreBinding

/-- Sets walked through in ascending order. -/
def ascending : WalkOrder where
  elements s := s.sort (· ≤ ·)
  nodup s := s.sort_nodup (· ≤ ·)
  mem_elements s _ := s.mem_sort (· ≤ ·)

/-- The list of cores bound by default, `1-8`, expands to the cores 1 to 8. -/
theorem expand_defaults : expand (bytes "1-8") = .ok {1, 2, 3, 4, 5, 6, 7, 8} := by
  rw [show bytes "1-8" = rangeItem 1 8 by decide, expand_rangeItem]
  exact congrArg Except.ok (by decide)

/-- On a machine with four hardware threads, the constructor keeps its promise for the default options. -/
theorem new_promised_four :
    Promised 4 10 100 {1, 2, 3, 4, 5, 6, 7, 8} ∅
      (new ascending 4 (bytes "10") (bytes "100") (bytes "1-8") (bytes "")) :=
  (new_promised_iff ascending 4 (by decide) (by decide) expand_defaults rfl).mpr (Or.inl (by decide))

/-- On a machine that does not say how many threads it has, the constructor does not keep its promise for the default
options. -/
theorem new_divides_by_zero :
    ¬ Promised 0 10 100 {1, 2, 3, 4, 5, 6, 7, 8} ∅
      (new ascending 0 (bytes "10") (bytes "100") (bytes "1-8") (bytes "")) := by
  rw [new, show stoul (bytes "10") = .ok 10 by decide, show stoul (bytes "100") = .ok 100 by decide,
    expand_defaults]
  exact not_create_promised ascending 10 100 (bytes "1-8") (Finset.insert_ne_empty _ _)

end ThreadPool

end NavekFiber
