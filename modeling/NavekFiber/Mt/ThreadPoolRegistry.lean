import Mathlib.Data.Set.Card
import NavekFiber.Mt.ThreadPool

/-! # When `PoolWorkers` lists exactly the live workers

An extended worker that leaves detaches itself and erases its entry from `PoolWorkers`. The erasure
stands among the arguments of `dbg_trace`, so it is not compiled into a build with `NDEBUG`: there the
entry of a worker that has left stays. `KeepsRegistry` excludes exactly this step. Without it the
entries are the live workers as long as the pool runs, so an id is free for a new thread as soon as the
old one has left, and `Hire` never terminates the process (`registry_of_reachable`). -/

namespace NavekFiber

namespace Pool

open ThreadPool

variable {ndebug : Bool} {l : Limits} {s s' : State} {a : Action} {p : ProducerId} {id : ThreadId}

/-- The entries of `PoolWorkers` are exactly the live workers. -/
def State.Listed (s : State) : Prop := ∀ id, id ∈ s.pool.poolWorkers ↔ (s.workers id).isLive = true

/-- A step is not, in a build with `NDEBUG`, that of an extended worker that finds no task. -/
def KeepsRegistry (ndebug : Bool) (s : State) : Action → Prop
  | .work id => ndebug = true → s.pool.poolYet = true → s.pool.poolTasks = [] →
      s.workers id ≠ .waiting .extended
  | _ => True

instance : DecidablePred (KeepsRegistry ndebug s)
  | .work id => inferInstanceAs (Decidable (ndebug = true → s.pool.poolYet = true →
      s.pool.poolTasks = [] → s.workers id ≠ .waiting .extended))
  | .enqueue _ _ | .checkResize _ | .hire _ _ | .busyUp _ | .busyDown _ | .join => isTrue trivial

/-- The invariant of runs that keep the registry: its entries are the live workers, and, once the pool
is stopped, those that have ended since. -/
structure RegistryInvariant (s : State) : Prop where
  /-- Live workers are registered. -/
  live : ∀ id, (s.workers id).isLive = true → id ∈ s.pool.poolWorkers
  /-- A registered worker is live or has found the pool stopped. -/
  registered : ∀ id ∈ s.pool.poolWorkers, (s.workers id).isLive = true ∨ s.workers id = .terminated
  /-- Workers are terminated only when the pool is stopped. -/
  terminated : ∀ id, s.workers id = .terminated → s.pool.poolYet = false

namespace RegistryInvariant

/-- In a state with the `RegistryInvariant`, as long as the pool runs, the entries are exactly the live workers. -/
theorem listed (hi : RegistryInvariant s) (hyet : s.pool.poolYet = true) : s.Listed := by
  intro id
  refine ⟨fun hid => (hi.registered id hid).resolve_right fun hended => ?_, hi.live id⟩
  exact absurd (hyet.symm.trans (hi.terminated id hended)) (by simp)

/-- In a state with the `RegistryInvariant`, an id that the system may give to a new thread is not registered. -/
theorem notMem_of_isFree (hi : RegistryInvariant s) (hfree : (s.workers id).isFree = true) :
    id ∉ s.pool.poolWorkers := by
  intro hid
  rcases hi.registered id hid with hlive | hended
  · cases hw : s.workers id <;> simp_all [Worker.isFree, Worker.isLive]
  · simp [hended, Worker.isFree] at hfree

/-- The `RegistryInvariant` holds at the start, when there are the persistent workers. -/
theorem init : RegistryInvariant (State.init l) := by
  refine ⟨fun id hlive => ?_, fun id hid => Or.inl ?_, fun id hended => ?_⟩
  · by_cases hlt : id < l.poolInitWorkers.toNat
    · exact Finset.mem_range.mpr hlt
    · simp [State.init, hlt, Worker.isLive] at hlive
  · have hlt : id < l.poolInitWorkers.toNat := Finset.mem_range.mp hid
    simp [State.init, hlt, Worker.isLive]
  · by_cases hlt : id < l.poolInitWorkers.toNat <;> simp [State.init, hlt] at hended

/-- Moving a live worker to a point where it is live keeps the `RegistryInvariant`. -/
theorem move {worker : Worker} (hi : RegistryInvariant s) (hold : (s.workers id).isLive = true)
    (hnew : worker.isLive = true) (hmoved : s'.workers = Function.update s.workers id worker)
    (hworkers : s'.pool.poolWorkers = s.pool.poolWorkers) (hyet : s'.pool.poolYet = s.pool.poolYet) :
    RegistryInvariant s' := by
  have hid : id ∈ s.pool.poolWorkers := hi.live id hold
  refine ⟨fun id' hlive => ?_, fun id' hmem => ?_, fun id' hended => ?_⟩
  · rw [hworkers]
    by_cases heq : id' = id
    · rwa [heq]
    · rw [hmoved, Function.update_of_ne heq] at hlive
      exact hi.live id' hlive
  · rw [hmoved]
    by_cases heq : id' = id
    · rw [heq, Function.update_self]
      exact Or.inl hnew
    · rw [Function.update_of_ne heq]
      exact hi.registered id' (hworkers ▸ hmem)
  · rw [hmoved] at hended
    by_cases heq : id' = id
    · rw [heq, Function.update_self] at hended
      -- The thread that moved is live, so it has not ended.
      rw [hended] at hnew
      exact absurd hnew (by simp [Worker.isLive])
    · rw [Function.update_of_ne heq] at hended
      exact hyet.trans (hi.terminated id' hended)

/-- The section of `Hire` keeps the `RegistryInvariant`: it never finds its ids registered, and registers them. -/
theorem hire {newWorkerCount : UInt64} {ids : List ThreadId} (hi : RegistryInvariant s)
    (hids : s.Supplies newWorkerCount ids) :
    RegistryInvariant (s.afterHire p ids) ∧ (s.afterHire p ids).aborted = s.aborted := by
  -- The ids given are free, and free ids are not registered.
  obtain ⟨-, heq⟩ := (afterHire_cases p hids).resolve_left fun h => by
    obtain ⟨id, hid, hreg⟩ := h.1
    exact hi.notMem_of_isFree (hids.2.2 id hid) hreg
  rw [heq]
  refine ⟨⟨fun id hlive => ?_, fun id hmem => ?_, fun id hended => ?_⟩, rfl⟩
  · refine Finset.mem_union.mpr ?_
    by_cases hid : id ∈ ids
    · exact Or.inr (List.mem_toFinset.mpr hid)
    · exact Or.inl (hi.live id (by simpa [hid] using hlive))
  · by_cases hid : id ∈ ids
    · simp [hid, Worker.isLive]
    · have hold : id ∈ s.pool.poolWorkers :=
        (Finset.mem_union.mp hmem).resolve_right fun h => hid (List.mem_toFinset.mp h)
      simpa [hid] using hi.registered id hold
  · by_cases hid : id ∈ ids
    · simp [hid] at hended
    · exact hi.terminated id (by simpa [hid] using hended)

/-- A worker that finds the pool stopped keeps the `RegistryInvariant`: it stays registered until it is joined. -/
theorem terminate (hi : RegistryInvariant s) (hyet : s.pool.poolYet = false)
    (hold : (s.workers id).isLive = true) : RegistryInvariant (s.setWorker id .terminated) := by
  refine ⟨fun id' hlive => ?_, fun id' hmem => ?_, fun _ _ => hyet⟩
  · by_cases heq : id' = id
    · rw [heq]
      exact hi.live id hold
    · exact hi.live id' (by simpa [State.setWorker, heq] using hlive)
  · by_cases heq : id' = id
    · subst heq
      exact Or.inr (Function.update_self _ _ _)
    · have hsame : (s.setWorker id .terminated).workers id' = s.workers id' :=
        Function.update_of_ne heq _ _
      rw [hsame]
      exact hi.registered id' hmem

/-- A worker that leaves and erases its entry keeps the `RegistryInvariant`. -/
theorem leave (hi : RegistryInvariant s) :
    RegistryInvariant { s.setWorker id .left with
      pool := { s.pool with poolWorkers := s.pool.poolWorkers.erase id } } := by
  refine ⟨fun id' hlive => ?_, fun id' hmem => ?_, fun id' hended => ?_⟩
  · by_cases heq : id' = id
    · subst heq
      simp [State.setWorker, Worker.isLive] at hlive
    · refine Finset.mem_erase.mpr ⟨heq, hi.live id' ?_⟩
      simpa [State.setWorker, heq] using hlive
  · obtain ⟨hne, hold⟩ := Finset.mem_erase.mp hmem
    simpa [State.setWorker, hne] using hi.registered id' hold
  · by_cases heq : id' = id
    · subst heq
      simp [State.setWorker] at hended
    · exact hi.terminated id' (by simpa [State.setWorker, heq] using hended)

/-- The section of a worker keeps the `RegistryInvariant` when the step `KeepsRegistry`. -/
theorem work {type : WorkerType} (hi : RegistryInvariant s) (hw : s.workers id = .waiting type)
    (hkeeps : KeepsRegistry ndebug s (.work id)) : RegistryInvariant (s.afterWork ndebug id type) := by
  have hold : (s.workers id).isLive = true := by
    rw [hw]
    rfl
  rcases afterWork_cases ndebug s id type with ⟨hyet, heq⟩ | ⟨-, task, rest, -, heq⟩ |
    ⟨-, -, -, heq⟩ | ⟨hyet, htasks, htype, heq⟩
  · rw [heq]
    exact hi.terminate hyet hold
  · rw [heq]
    exact hi.move hold rfl rfl rfl rfl
  · rw [heq]
    exact hi.move hold rfl rfl rfl rfl
  -- The condition excludes this end of the section in a build with `NDEBUG`.
  · have hdebug : ndebug ≠ true := fun h => hkeeps h hyet htasks (htype ▸ hw)
    rw [heq, if_neg hdebug]
    exact hi.leave

/-- Every step that `KeepsRegistry` keeps the `RegistryInvariant`. -/
theorem preserved (hi : RegistryInvariant s) (hkeeps : KeepsRegistry ndebug s a)
    (hs : step ndebug l s a = some s') : RegistryInvariant s' := by
  have hs := stepAlive_of_step hs
  cases a with
  | enqueue p task =>
      obtain ⟨-, rfl⟩ := stepAlive_enqueue_eq_some.mp hs
      cases hyet : s.pool.poolYet with
      | false => rwa [afterEnqueue_of_stopped hyet]
      | true =>
          rw [afterEnqueue_of_yet hyet]
          exact ⟨hi.live, hi.registered, hi.terminated⟩
  | checkResize p =>
      obtain ⟨numWorker, numTasks, -, rfl⟩ := stepAlive_checkResize_eq_some.mp hs
      exact ⟨hi.live, hi.registered, hi.terminated⟩
  | hire p ids =>
      obtain ⟨numWorker, newWorkerCount, -, hids, rfl⟩ := stepAlive_hire_eq_some.mp hs
      exact (hi.hire hids).1
  | work id =>
      obtain ⟨type, hw, rfl⟩ := stepAlive_work_eq_some.mp hs
      exact hi.work hw hkeeps
  | busyUp id =>
      obtain ⟨type, task, hw, rfl⟩ := stepAlive_busyUp_eq_some.mp hs
      exact hi.move (by rw [hw]; rfl) rfl rfl rfl rfl
  | busyDown id =>
      obtain ⟨type, task, hw, rfl⟩ := stepAlive_busyDown_eq_some.mp hs
      exact hi.move (by rw [hw]; rfl) rfl rfl rfl rfl
  | join =>
      obtain ⟨-, rfl⟩ := stepAlive_join_eq_some.mp hs
      exact ⟨hi.live, hi.registered, fun _ _ => rfl⟩

/-- With `NDEBUG`, an extended worker that finds no task leaves its entry behind. -/
theorem not_listed_of_leave (hi : RegistryInvariant s) (hkeeps : ¬ KeepsRegistry ndebug s a)
    (hs : step ndebug l s a = some s') : s'.pool.poolYet = true ∧ ¬ s'.Listed := by
  have hs := stepAlive_of_step hs
  cases a with
  | work id =>
      obtain ⟨type, hw, rfl⟩ := stepAlive_work_eq_some.mp hs
      simp only [KeepsRegistry, Classical.not_imp, not_not] at hkeeps
      obtain ⟨rfl, hyet, htasks, hextended⟩ := hkeeps
      obtain rfl : type = .extended := Worker.waiting.inj (hw.symm.trans hextended)
      rcases afterWork_cases true s id .extended with ⟨hstopped, -⟩ | ⟨-, task, rest, hcons, -⟩ |
        ⟨-, -, htype, -⟩ | ⟨-, -, -, heq⟩
      · exact absurd (hyet.symm.trans hstopped) (by simp)
      · exact absurd (htasks.symm.trans hcons) (by simp)
      · exact absurd htype (by simp)
      · rw [heq]
        refine ⟨hyet, fun hlisted => ?_⟩
        -- With `NDEBUG` the entry stays, and the thread has left.
        have hid : id ∈ s.pool.poolWorkers := hi.live id (by rw [hw]; rfl)
        have hlive := (hlisted id).mp hid
        simp [State.setWorker, Worker.isLive] at hlive
  | enqueue p task => exact absurd trivial hkeeps
  | checkResize p => exact absurd trivial hkeeps
  | hire p ids => exact absurd trivial hkeeps
  | busyUp id => exact absurd trivial hkeeps
  | busyDown id => exact absurd trivial hkeeps
  | join => exact absurd trivial hkeeps

end RegistryInvariant

/-- When the entries are `Listed`, there are as many of them as live workers. -/
theorem State.Listed.card_eq (h : s.Listed) :
    s.pool.poolWorkers.card = {id | (s.workers id).isLive = true}.ncard := by
  have hset : {id | (s.workers id).isLive = true} = (s.pool.poolWorkers : Set ThreadId) := by
    ext id
    exact (h id).symm
  rw [hset, Set.ncard_coe_finset]

/-- In runs without a step of an extended worker that finds no task in a build with `NDEBUG`, as long as
the pool runs, the entries of `PoolWorkers` are exactly the live workers, and `Hire` can always enter
the threads it is given, whatever ids that are free the system gives them. The condition is exact: a
step that violates it leaves an entry behind. -/
theorem registry_of_reachable (h : (machine ndebug l).ReachableUnder (KeepsRegistry ndebug) s) :
    (s.pool.poolYet = true → s.Listed ∧
        s.pool.poolWorkers.card = {id | (s.workers id).isLive = true}.ncard) ∧
      (∀ p ids s', step ndebug l s (.hire p ids) = some s' → s'.aborted = false) ∧
      ∀ a s', step ndebug l s a = some s' →
        ((s'.pool.poolYet = true → s'.Listed) ↔ KeepsRegistry ndebug s a) := by
  have hi : RegistryInvariant s :=
    h.invariant RegistryInvariant.init fun _ _ _ hi hkeeps hs => hi.preserved hkeeps hs
  refine ⟨fun hyet => ⟨hi.listed hyet, (hi.listed hyet).card_eq⟩, fun p ids s' hs => ?_,
    fun a s' hs => ⟨fun hlisted => ?_, fun hkeeps => (hi.preserved hkeeps hs).listed⟩⟩
  -- A pool that takes a step has not terminated the process before.
  · have halive : s.aborted = false := by
      by_contra haborted
      simp [step, haborted] at hs
    obtain ⟨numWorker, newWorkerCount, -, hids, rfl⟩ :=
      stepAlive_hire_eq_some.mp (stepAlive_of_step hs)
    exact (hi.hire hids).2.trans halive
  · by_contra hkeeps
    obtain ⟨hyet, hnot⟩ := hi.not_listed_of_leave hkeeps hs
    exact hnot (hlisted hyet)

/-- A pool with one worker to start with and two at most. -/
def oneExtra : Limits := ⟨1, 2, Nat.one_pos, Nat.le_succ 1⟩

/-- When a second worker is hired, does its task and leaves, its entry is gone and the entries are the live
workers. -/
theorem registry_of_reachable_again :
    ∃ s, (machine false oneExtra).exec (State.init oneExtra)
        [.enqueue 0 10, .work 0, .enqueue 1 11, .checkResize 1, .busyUp 0, .checkResize 0,
          .hire 0 [1], .work 1, .busyUp 1, .busyDown 1, .work 1] = some s ∧
      s.workers 1 = .left ∧ s.Listed := by
  have hr := (Machine.ReachableUnder.init (M := machine false oneExtra)
    (G := KeepsRegistry false)).exec
    [.enqueue 0 10, .work 0, .enqueue 1 11, .checkResize 1, .busyUp 0, .checkResize 0,
      .hire 0 [1], .work 1, .busyUp 1, .busyDown 1, .work 1] (by decide) rfl
  exact ⟨_, rfl, rfl, ((registry_of_reachable hr).1 rfl).1⟩

/-- In a build with `NDEBUG` a worker that has left is still registered. -/
theorem not_listed_of_ndebug :
    ¬ ∀ (ndebug : Bool) (l : Limits) (s : State), (machine ndebug l).Reachable s →
      s.pool.poolYet = true → s.Listed := by
  intro hclaim
  have hr := (Machine.ReachableUnder.init (M := machine true oneExtra) (G := fun _ _ => True)).exec
    [.enqueue 0 10, .work 0, .enqueue 1 11, .checkResize 1, .busyUp 0, .checkResize 0,
      .hire 0 [1], .work 1, .busyUp 1, .busyDown 1, .work 1] (by decide) rfl
  exact absurd ((hclaim true oneExtra _ hr rfl 1).mp (by decide)) (by decide)

end Pool

end NavekFiber
