import NavekFiber.Mt.ThreadPool

/-! # When the pool keeps to its limits

`CheckResize` decides from a sample of the worker count that `Enqueue` took in an earlier section, and
`Hire` acts on the decision in a later one. `FreshSample` asks that the pool has not grown beyond the
sample by then, as it has when another thread hired in between. Then the pool never has more than
`PoolMaxWorkers` workers, and since only registered threads count as busy, no subtraction of
`CheckResize` goes below zero (`limits_of_reachable`). -/

namespace NavekFiber

namespace ThreadPool

variable {l : Limits} {numWorker numTasks : UInt64} {busy : ℤ}

/-- With no more workers busy than there are, `availableWorkers` is the difference. -/
theorem toNat_availableWorkers (hpos : 0 ≤ busy) (hbusy : busy ≤ numWorker.toNat) :
    (availableWorkers numWorker busy).toNat = numWorker.toNat - busy.toNat := by
  have hlt : numWorker.toNat < 2 ^ 64 := numWorker.toNat_lt
  have hofInt : (UInt64.ofInt busy).toNat = busy.toNat := by
    rw [UInt64.ofInt, UInt64.toNat_ofNat']
    omega
  rw [availableWorkers, UInt64.toNat_sub_of_le, hofInt]
  rw [UInt64.le_iff_toNat_le, hofInt]
  omega

/-- The value of `wantedWorkers` is the number of missing workers, rounded up to a multiple of `PoolInitWorkers`. -/
theorem toNat_wantedWorkers (hroom : numTasks.toNat + l.poolInitWorkers.toNat < 2 ^ 63) :
    (wantedWorkers l numWorker numTasks busy).toNat
      = (numTasks.toNat - (availableWorkers numWorker busy).toNat + (l.poolInitWorkers.toNat - 1))
          / l.poolInitWorkers.toNat * l.poolInitWorkers.toNat := by
  have hinit := l.init_pos
  unfold wantedWorkers
  simp only
  set available := availableWorkers numWorker busy
  split
  · rename_i hlt
    have hlt' := UInt64.lt_iff_toNat_lt.mp hlt
    -- Workers are missing; none of the operations leaves the range of `size_t`.
    have hmissing : (numTasks - available).toNat = numTasks.toNat - available.toNat :=
      UInt64.toNat_sub_of_le _ _ (UInt64.le_of_lt hlt)
    have hone : (l.poolInitWorkers - 1).toNat = l.poolInitWorkers.toNat - 1 := by
      rw [UInt64.toNat_sub_of_le]
      · rfl
      · rw [UInt64.le_iff_toNat_le]
        exact hinit
    have hsum : ((numTasks - available) + (l.poolInitWorkers - 1)).toNat
        = (numTasks.toNat - available.toNat) + (l.poolInitWorkers.toNat - 1) := by
      rw [UInt64.toNat_add, hmissing, hone, Nat.mod_eq_of_lt]
      omega
    rw [UInt64.toNat_mul, UInt64.toNat_div, hsum, Nat.mod_eq_of_lt]
    calc _ ≤ (numTasks.toNat - available.toNat) + (l.poolInitWorkers.toNat - 1) := Nat.div_mul_le_self _ _
      _ < 2 ^ 64 := by omega
  · rename_i hle
    -- Nothing is missing, and what rounding adds is less than one `PoolInitWorkers`.
    have hle' := UInt64.le_iff_toNat_le.mp (UInt64.not_lt.mp hle)
    rw [Nat.sub_eq_zero_of_le hle', Nat.zero_add, Nat.div_eq_of_lt (by omega), Nat.zero_mul]
    rfl

/-- The value of `wantedWorkers` exceeds the number of missing workers by less than `PoolInitWorkers`. -/
theorem toNat_wantedWorkers_lt (hroom : numTasks.toNat + l.poolInitWorkers.toNat < 2 ^ 63) :
    (wantedWorkers l numWorker numTasks busy).toNat < numTasks.toNat + l.poolInitWorkers.toNat := by
  have hinit := l.init_pos
  rw [toNat_wantedWorkers hroom]
  calc _ ≤ (numTasks.toNat - (availableWorkers numWorker busy).toNat) + (l.poolInitWorkers.toNat - 1) :=
        Nat.div_mul_le_self _ _
    _ < numTasks.toNat + l.poolInitWorkers.toNat := by omega

/-- With no more workers than allowed, `CheckResize` hires the missing workers, rounded up, as far as the
limit allows. -/
theorem toNat_checkResize (busy : ℤ) (hmax : numWorker.toNat ≤ l.poolMaxWorkers.toNat)
    (hroom : numWorker.toNat + numTasks.toNat + l.poolInitWorkers.toNat < 2 ^ 63) :
    (checkResize l numWorker numTasks busy).toNat
      = min (wantedWorkers l numWorker numTasks busy).toNat
          (l.poolMaxWorkers.toNat - numWorker.toNat) := by
  have hwanted : (wantedWorkers l numWorker numTasks busy).toNat
      < numTasks.toNat + l.poolInitWorkers.toNat :=
    toNat_wantedWorkers_lt (by omega)
  unfold checkResize
  simp only
  split
  -- The limit cuts what is wanted.
  · rename_i hlt
    rw [UInt64.lt_iff_toNat_lt, UInt64.toNat_add, Nat.mod_eq_of_lt (by omega)] at hlt
    rw [UInt64.toNat_sub_of_le _ _ (UInt64.le_iff_toNat_le.mpr hmax)]
    omega
  · rename_i hle
    rw [UInt64.lt_iff_toNat_lt, UInt64.toNat_add, Nat.mod_eq_of_lt (by omega)] at hle
    omega

/-- With no more workers than allowed, `CheckResize` stays within the limit. -/
theorem add_checkResize_le (busy : ℤ) (hmax : numWorker.toNat ≤ l.poolMaxWorkers.toNat)
    (hroom : numWorker.toNat + numTasks.toNat + l.poolInitWorkers.toNat < 2 ^ 63) :
    numWorker.toNat + (checkResize l numWorker numTasks busy).toNat ≤ l.poolMaxWorkers.toNat := by
  rw [toNat_checkResize busy hmax hroom]
  omega

/-- With no more workers busy than there are, and no more workers than allowed, no subtraction of
`CheckResize` goes below zero. -/
theorem not_wraps (hbusy : busy ≤ numWorker.toNat)
    (hmax : numWorker.toNat ≤ l.poolMaxWorkers.toNat) : ¬ Wraps l numWorker numTasks busy := by
  rintro (hlt | ⟨-, hlt⟩) <;> omega

end ThreadPool

namespace Pool

open ThreadPool

variable {ndebug : Bool} {l : Limits} {s s' : State} {a : Action} {p : ProducerId} {id : ThreadId}

/-- The worker count a producer has sampled and is about to act on. -/
def Producer.sample : Producer → Option UInt64
  | .idle => none
  | .sampled numWorker _ => some numWorker
  | .hiring numWorker _ => some numWorker

/-- The pool has not grown beyond the sample when `CheckResize` and `Hire` act on it, and the counts
stay far below the range of `size_t`. -/
def FreshSample (l : Limits) (s : State) : Action → Prop
  | .enqueue _ _ =>
      s.pool.poolWorkers.card + s.pool.poolTasks.length + 1 + l.poolInitWorkers.toNat < 2 ^ 63
  | .checkResize p | .hire p _ =>
      ∀ numWorker ∈ (s.producers p).sample, s.pool.poolWorkers.card ≤ numWorker.toNat
  | _ => True

instance : DecidablePred (FreshSample l s)
  | .enqueue _ _ => inferInstanceAs (Decidable (_ < _))
  | .checkResize p | .hire p _ =>
      Option.decidableForallMem (p := fun numWorker : UInt64 =>
        s.pool.poolWorkers.card ≤ numWorker.toNat) (s.producers p).sample
  | .work _ | .busyUp _ | .busyDown _ | .join => isTrue trivial

/-- The registered threads that count as busy. -/
def State.runningWorkers (s : State) : Finset ThreadId :=
  s.pool.poolWorkers.filter fun id => (s.workers id).isRunning = true

/-- The registry and the counter agree with the threads. -/
structure Registered (s : State) : Prop where
  /-- Live threads are registered. -/
  live : ∀ id, (s.workers id).isLive = true → id ∈ s.pool.poolWorkers
  /-- `PoolBusyWorkers` counts the busy threads. -/
  busy : s.pool.poolBusyWorkers = s.runningWorkers.card

/-- The invariant of runs that act on fresh samples. -/
structure LimitInvariant (l : Limits) (s : State) : Prop where
  /-- The registry and the counter agree with the threads. -/
  registered : Registered s
  /-- `PoolWorkers.size()` is within the limit. -/
  size_le : s.pool.poolWorkers.card ≤ l.poolMaxWorkers.toNat
  /-- Sampled counts are within the limit and the range. -/
  sampled : ∀ p numWorker numTasks, s.producers p = .sampled numWorker numTasks →
    numWorker.toNat ≤ l.poolMaxWorkers.toNat ∧
      numWorker.toNat + numTasks.toNat + l.poolInitWorkers.toNat < 2 ^ 63
  /-- The workers to be hired are within the limit of the sample. -/
  hiring : ∀ p numWorker newWorkerCount, s.producers p = .hiring numWorker newWorkerCount →
    numWorker.toNat + newWorkerCount.toNat ≤ l.poolMaxWorkers.toNat
  /-- No subtraction has gone below zero. -/
  not_wrapped : s.wrapped = false

/-- Threads that count as busy are live. -/
theorem Worker.isLive_of_isRunning {worker : Worker} (h : worker.isRunning = true) :
    worker.isLive = true := by
  cases worker <;> simp_all [Worker.isRunning, Worker.isLive]

/-- When the live threads are registered, `runningWorkers` are all the threads that count as busy. -/
theorem mem_runningWorkers (hlive : ∀ id, (s.workers id).isLive = true → id ∈ s.pool.poolWorkers) :
    id ∈ s.runningWorkers ↔ (s.workers id).isRunning = true := by
  rw [State.runningWorkers, Finset.mem_filter]
  exact ⟨And.right, fun h => ⟨hlive id (Worker.isLive_of_isRunning h), h⟩⟩

/-- When the threads are `Registered`, `PoolBusyWorkers` is not negative and at most the number of registered
threads. -/
theorem Registered.busy_le (hr : Registered s) :
    0 ≤ s.pool.poolBusyWorkers ∧ s.pool.poolBusyWorkers ≤ s.pool.poolWorkers.card := by
  rw [hr.busy]
  refine ⟨Int.natCast_nonneg _, ?_⟩
  exact_mod_cast Finset.card_filter_le _ _

/-- A step that keeps the set of busy threads and the counter keeps `Registered`. -/
theorem Registered.of_running_iff (hr : Registered s)
    (hlive : ∀ id, (s'.workers id).isLive = true → id ∈ s'.pool.poolWorkers)
    (hrunning : ∀ id, (s'.workers id).isRunning = (s.workers id).isRunning)
    (hbusy : s'.pool.poolBusyWorkers = s.pool.poolBusyWorkers) : Registered s' := by
  refine ⟨hlive, ?_⟩
  have hset : s'.runningWorkers = s.runningWorkers := by
    ext id
    rw [mem_runningWorkers hlive, mem_runningWorkers hr.live, hrunning]
  rw [hbusy, hset, hr.busy]

/-- Moving a thread between points where it does not count as busy keeps `Registered`. -/
theorem Registered.of_update {worker : Worker} (hr : Registered s)
    (hold : (s.workers id).isRunning = false) (hnew : worker.isRunning = false)
    (hworkers : s'.workers = Function.update s.workers id worker)
    (hpool : ∀ id', id' ≠ id ∨ worker.isLive = true → id' ∈ s.pool.poolWorkers →
      id' ∈ s'.pool.poolWorkers)
    (hid : id ∈ s.pool.poolWorkers) (hbusy : s'.pool.poolBusyWorkers = s.pool.poolBusyWorkers) :
    Registered s' := by
  -- Only `id` moves, and it is busy neither before nor after.
  refine hr.of_running_iff (fun id' hlive => ?_) (fun id' => ?_) hbusy
  · rw [hworkers] at hlive
    by_cases heq : id' = id
    · subst heq
      rw [Function.update_self] at hlive
      exact hpool id' (Or.inr hlive) hid
    · rw [Function.update_of_ne heq] at hlive
      exact hpool id' (Or.inl heq) (hr.live id' hlive)
  · rw [hworkers]
    by_cases heq : id' = id
    · subst heq
      rw [Function.update_self, hold, hnew]
    · rw [Function.update_of_ne heq]

/-- The section of `Hire` keeps `Registered`: the new threads are registered and not yet busy. -/
theorem Registered.hire {newWorkerCount : UInt64} {ids : List ThreadId} (hr : Registered s)
    (hids : s.Supplies newWorkerCount ids) : Registered (s.afterHire p ids) := by
  rcases afterHire_cases p hids with ⟨-, heq⟩ | ⟨-, heq⟩
  · -- An id is registered already: the process terminates and nothing changes in the pool.
    rw [heq]
    exact ⟨hr.live, hr.busy⟩
  · rw [heq]
    refine hr.of_running_iff (fun id hlive => ?_) (fun id => ?_) rfl
    · refine Finset.mem_union.mpr ?_
      by_cases hmem : id ∈ ids
      · exact Or.inr (List.mem_toFinset.mpr hmem)
      · exact Or.inl (hr.live id (by simpa [hmem] using hlive))
    · by_cases hmem : id ∈ ids
      · have hnot : (s.workers id).isRunning = false := by
          have hfree := hids.2.2 id hmem
          cases hw : s.workers id <;> simp_all [Worker.isFree, Worker.isRunning]
        simp only [hmem, if_true, hnot]
        rfl
      · simp [hmem]

/-- The section of a worker keeps `Registered`: only a thread that leaves drops its entry. -/
theorem Registered.work {type : WorkerType} (hr : Registered s) (hw : s.workers id = .waiting type) :
    Registered (s.afterWork ndebug id type) := by
  have hid : id ∈ s.pool.poolWorkers := hr.live id (by simp [hw, Worker.isLive])
  have hold : (s.workers id).isRunning = false := by simp [hw, Worker.isRunning]
  rcases afterWork_cases ndebug s id type with ⟨-, heq⟩ | ⟨-, task, rest, -, heq⟩ |
    ⟨-, -, -, heq⟩ | ⟨-, -, -, heq⟩
  · rw [heq]
    exact hr.of_update hold rfl rfl (fun _ _ hmem => hmem) hid rfl
  · rw [heq]
    exact hr.of_update hold rfl rfl (fun _ _ hmem => hmem) hid rfl
  · rw [heq]
    exact hr.of_update hold rfl rfl (fun _ _ hmem => hmem) hid rfl
  · rw [heq]
    refine hr.of_update hold rfl rfl (fun id' hkeep hmem => ?_) hid rfl
    -- A thread that is still live is not the one that leaves.
    have hne : id' ≠ id := hkeep.resolve_right (by simp [Worker.isLive])
    show id' ∈ if ndebug then s.pool.poolWorkers else s.pool.poolWorkers.erase id
    split
    · exact hmem
    · exact Finset.mem_erase_of_ne_of_mem hne hmem

/-- Moving a live thread to a point where it is live keeps the live threads registered. -/
theorem Registered.live_setWorker {worker : Worker} (hr : Registered s)
    (hold : (s.workers id).isLive = true) :
    ∀ id', ((s.setWorker id worker).workers id').isLive = true → id' ∈ s.pool.poolWorkers := by
  intro id' hlive
  by_cases heq : id' = id
  · rw [heq]
    exact hr.live id hold
  · exact hr.live id' (by simpa [State.setWorker, heq] using hlive)

/-- `Busy += 1` keeps `Registered`. -/
theorem Registered.busyUp {type : WorkerType} {task : Task} (hr : Registered s)
    (hw : s.workers id = .taken type task) : Registered (s.afterBusyUp id type task) := by
  have hlive : (s.workers id).isLive = true := by
    rw [hw]
    rfl
  refine ⟨hr.live_setWorker hlive, ?_⟩
  -- The worker was taken and not running: the set of busy threads gains it.
  have hcount : (s.afterBusyUp id type task).runningWorkers.card + (s.workers id).isRunning.toNat
      = s.runningWorkers.card + (Worker.running type task).isRunning.toNat :=
    card_filter_update _ _ (hr.live id hlive)
  rw [hw] at hcount
  have hrunning : (s.afterBusyUp id type task).runningWorkers.card = s.runningWorkers.card + 1 := hcount
  rw [hrunning]
  simp [State.afterBusyUp, hr.busy]

/-- `Busy -= 1` keeps `Registered`. -/
theorem Registered.busyDown {type : WorkerType} {task : Task} (hr : Registered s)
    (hw : s.workers id = .running type task) : Registered (s.afterBusyDown id type) := by
  have hlive : (s.workers id).isLive = true := by
    rw [hw]
    rfl
  refine ⟨hr.live_setWorker hlive, ?_⟩
  -- The worker was running: the set of busy threads loses it.
  have hcount : (s.afterBusyDown id type).runningWorkers.card + (s.workers id).isRunning.toNat
      = s.runningWorkers.card + (Worker.waiting type).isRunning.toNat :=
    card_filter_update _ _ (hr.live id hlive)
  rw [hw] at hcount
  have hrunning : (s.afterBusyDown id type).runningWorkers.card + 1 = s.runningWorkers.card := hcount
  show s.pool.poolBusyWorkers - 1 = _
  rw [hr.busy, ← hrunning]
  push_cast
  omega

/-- The section of `Enqueue` keeps `Registered`: it changes neither the registry nor the counter. -/
theorem Registered.enqueue (hr : Registered s) (p : ProducerId) (task : Task) :
    Registered (s.afterEnqueue p task) := by
  cases hyet : s.pool.poolYet with
  | false => rwa [afterEnqueue_of_stopped hyet]
  | true =>
      rw [afterEnqueue_of_yet hyet]
      exact ⟨hr.live, hr.busy⟩

/-- Every step keeps `Registered`. -/
theorem Registered.preserved (hr : Registered s) (hs : step ndebug l s a = some s') :
    Registered s' := by
  have hs := stepAlive_of_step hs
  cases a with
  | enqueue p task =>
      obtain ⟨-, rfl⟩ := stepAlive_enqueue_eq_some.mp hs
      exact hr.enqueue p task
  | checkResize p =>
      obtain ⟨numWorker, numTasks, -, rfl⟩ := stepAlive_checkResize_eq_some.mp hs
      exact ⟨hr.live, hr.busy⟩
  | hire p ids =>
      obtain ⟨numWorker, newWorkerCount, -, hids, rfl⟩ := stepAlive_hire_eq_some.mp hs
      exact hr.hire hids
  | work id =>
      obtain ⟨type, hw, rfl⟩ := stepAlive_work_eq_some.mp hs
      exact hr.work hw
  | busyUp id =>
      obtain ⟨type, task, hw, rfl⟩ := stepAlive_busyUp_eq_some.mp hs
      exact hr.busyUp hw
  | busyDown id =>
      obtain ⟨type, task, hw, rfl⟩ := stepAlive_busyDown_eq_some.mp hs
      exact hr.busyDown hw
  | join =>
      obtain ⟨-, rfl⟩ := stepAlive_join_eq_some.mp hs
      exact ⟨hr.live, hr.busy⟩

/-- The section of `Enqueue` keeps the `LimitInvariant`: it samples a count within the limit. -/
theorem LimitInvariant.enqueue {task : Task} (hi : LimitInvariant l s)
    (hfits : FreshSample l s (.enqueue p task)) : LimitInvariant l (s.afterEnqueue p task) := by
  have hr := hi.registered.enqueue p task
  cases hyet : s.pool.poolYet with
  | false => rwa [afterEnqueue_of_stopped hyet]
  | true =>
      rw [afterEnqueue_of_yet hyet] at hr ⊢
      have hmax := hi.size_le
      have hlt : l.poolMaxWorkers.toNat < 2 ^ 64 := l.poolMaxWorkers.toNat_lt
      have hfits : s.pool.poolWorkers.card + s.pool.poolTasks.length + 1 + l.poolInitWorkers.toNat
        < 2 ^ 63 := hfits
      refine ⟨hr, hmax, fun p' numWorker numTasks hp => ?_,
        fun p' numWorker newWorkerCount hp => ?_, hi.not_wrapped⟩
      · rcases update_eq_cases hp with ⟨-, heq⟩ | ⟨-, hold⟩
        · obtain ⟨rfl, rfl⟩ := Producer.sampled.inj heq
          -- The sample is the true count, which fits into `size_t`.
          rw [UInt64.toNat_ofNat', UInt64.toNat_ofNat']
          omega
        · exact hi.sampled p' numWorker numTasks hold
      · rcases update_eq_cases hp with ⟨-, heq⟩ | ⟨-, hold⟩
        · exact absurd heq (by simp)
        · exact hi.hiring p' numWorker newWorkerCount hold

/-- `CheckResize` on a fresh sample keeps the `LimitInvariant`: busy workers are registered, so they are covered by
the sample. -/
theorem LimitInvariant.checkResize {numWorker numTasks : UInt64} (hi : LimitInvariant l s)
    (hp : s.producers p = .sampled numWorker numTasks) (hfresh : FreshSample l s (.checkResize p)) :
    LimitInvariant l (s.afterCheckResize l p numWorker numTasks) := by
  have hcard : s.pool.poolWorkers.card ≤ numWorker.toNat := hfresh numWorker (by simp [hp, Producer.sample])
  obtain ⟨hmax, hroom⟩ := hi.sampled p numWorker numTasks hp
  obtain ⟨-, hle⟩ := hi.registered.busy_le
  -- Busy threads are registered, and the pool has not outgrown the sample.
  have hbusy : s.pool.poolBusyWorkers ≤ numWorker.toNat := by omega
  have hnew := add_checkResize_le s.pool.poolBusyWorkers hmax hroom
  refine ⟨⟨hi.registered.live, hi.registered.busy⟩, hi.size_le, fun p' numWorker' numTasks' hp' => ?_,
    fun p' numWorker' newWorkerCount' hp' => ?_, ?_⟩
  · rcases update_eq_cases hp' with ⟨-, heq⟩ | ⟨-, hold⟩
    · split at heq <;> exact absurd heq (by simp)
    · exact hi.sampled p' numWorker' numTasks' hold
  · rcases update_eq_cases hp' with ⟨-, heq⟩ | ⟨-, hold⟩
    · split at heq
      · obtain ⟨rfl, rfl⟩ := Producer.hiring.inj heq
        exact hnew
      · exact absurd heq (by simp)
    · exact hi.hiring p' numWorker' newWorkerCount' hold
  · simp [State.afterCheckResize, hi.not_wrapped, not_wraps hbusy hmax]

/-- After a `Hire` that finds no id registered there are as many workers as before and those hired. -/
theorem card_union_supplied {newWorkerCount : UInt64} {ids : List ThreadId}
    (hids : s.Supplies newWorkerCount ids) (hnew : ∀ id ∈ ids, id ∉ s.pool.poolWorkers) :
    (s.pool.poolWorkers ∪ ids.toFinset).card = s.pool.poolWorkers.card + newWorkerCount.toNat := by
  obtain ⟨hlength, hnodup, -⟩ := hids
  have hdisjoint : Disjoint s.pool.poolWorkers ids.toFinset :=
    Finset.disjoint_right.mpr fun id hid => hnew id (List.mem_toFinset.mp hid)
  rw [Finset.card_union_of_disjoint hdisjoint, List.toFinset_card_of_nodup hnodup, hlength]

/-- `Hire` on a fresh sample keeps the `LimitInvariant`: what was decided from the sample still fits. -/
theorem LimitInvariant.hire {numWorker newWorkerCount : UInt64} {ids : List ThreadId}
    (hi : LimitInvariant l s) (hp : s.producers p = .hiring numWorker newWorkerCount)
    (hids : s.Supplies newWorkerCount ids) (hfresh : FreshSample l s (.hire p ids)) :
    LimitInvariant l (s.afterHire p ids) := by
  have hr := hi.registered.hire (p := p) hids
  have hold : s.pool.poolWorkers.card ≤ numWorker.toNat := hfresh numWorker (by simp [hp, Producer.sample])
  have hsum := hi.hiring p numWorker newWorkerCount hp
  rcases afterHire_cases p hids with ⟨-, heq⟩ | ⟨hnew, heq⟩
  · rw [heq] at hr ⊢
    exact ⟨hr, hi.size_le, hi.sampled, hi.hiring, hi.not_wrapped⟩
  -- As many threads as were decided, on top of no more than were sampled.
  · have hcard := card_union_supplied hids hnew
    rw [heq] at hr ⊢
    refine ⟨hr, hcard.le.trans (by omega), fun p' numWorker' numTasks' hp' => ?_,
      fun p' numWorker' newWorkerCount' hp' => ?_, hi.not_wrapped⟩
    · rcases update_eq_cases hp' with ⟨-, heq⟩ | ⟨-, hsame⟩
      · exact absurd heq (by simp)
      · exact hi.sampled p' numWorker' numTasks' hsame
    · rcases update_eq_cases hp' with ⟨-, heq⟩ | ⟨-, hsame⟩
      · exact absurd heq (by simp)
      · exact hi.hiring p' numWorker' newWorkerCount' hsame

/-- The section of a worker adds no worker. -/
theorem card_afterWork_le (ndebug : Bool) (s : State) (id : ThreadId) (type : WorkerType) :
    (s.afterWork ndebug id type).pool.poolWorkers.card ≤ s.pool.poolWorkers.card := by
  rcases afterWork_cases ndebug s id type with ⟨-, heq⟩ | ⟨-, task, rest, -, heq⟩ |
    ⟨-, -, -, heq⟩ | ⟨-, -, -, heq⟩
  · rw [heq]
    exact le_rfl
  · rw [heq]
  · rw [heq]
    exact le_rfl
  · rw [heq]
    show (if ndebug then s.pool.poolWorkers else s.pool.poolWorkers.erase id).card ≤ _
    split
    · exact le_rfl
    · exact Finset.card_erase_le

/-- The section of a worker keeps the `LimitInvariant`. -/
theorem LimitInvariant.work {type : WorkerType} (hi : LimitInvariant l s)
    (hw : s.workers id = .waiting type) : LimitInvariant l (s.afterWork ndebug id type) :=
  ⟨hi.registered.work hw, (card_afterWork_le ndebug s id type).trans hi.size_le, hi.sampled, hi.hiring,
    hi.not_wrapped⟩

/-- The `LimitInvariant` holds at the start, when there are the persistent workers and nobody is busy. -/
theorem LimitInvariant.init (l : Limits) : LimitInvariant l (State.init l) := by
  have hlive : ∀ id, ((State.init l).workers id).isLive = true →
      id ∈ (State.init l).pool.poolWorkers := by
    intro id hlive
    by_cases hid : id < l.poolInitWorkers.toNat
    · exact Finset.mem_range.mpr hid
    · simp [State.init, hid, Worker.isLive] at hlive
  -- The persistent workers wait.
  have hrunning : (State.init l).runningWorkers = ∅ := by
    ext id
    rw [mem_runningWorkers hlive]
    by_cases hid : id < l.poolInitWorkers.toNat <;> simp [State.init, hid, Worker.isRunning]
  refine ⟨⟨hlive, by rw [hrunning]; rfl⟩, ?_, ?_, ?_, rfl⟩
  · show (Finset.range _).card ≤ _
    rw [Finset.card_range]
    exact l.init_le_max
  · intro p numWorker numTasks hp
    exact absurd hp (by simp [State.init])
  · intro p numWorker newWorkerCount hp
    exact absurd hp (by simp [State.init])

/-- Every step that acts on a fresh sample keeps the `LimitInvariant`. -/
theorem LimitInvariant.preserved (hi : LimitInvariant l s) (ha : FreshSample l s a)
    (hs : step ndebug l s a = some s') : LimitInvariant l s' := by
  have hr := hi.registered.preserved hs
  have hs := stepAlive_of_step hs
  cases a with
  | enqueue p task =>
      obtain ⟨-, rfl⟩ := stepAlive_enqueue_eq_some.mp hs
      exact hi.enqueue ha
  | checkResize p =>
      obtain ⟨numWorker, numTasks, hp, rfl⟩ := stepAlive_checkResize_eq_some.mp hs
      exact hi.checkResize hp ha
  | hire p ids =>
      obtain ⟨numWorker, newWorkerCount, hp, hids, rfl⟩ := stepAlive_hire_eq_some.mp hs
      exact hi.hire hp hids ha
  | work id =>
      obtain ⟨type, hw, rfl⟩ := stepAlive_work_eq_some.mp hs
      exact hi.work hw
  | busyUp id =>
      obtain ⟨type, task, -, rfl⟩ := stepAlive_busyUp_eq_some.mp hs
      exact ⟨hr, hi.size_le, hi.sampled, hi.hiring, hi.not_wrapped⟩
  | busyDown id =>
      obtain ⟨type, task, -, rfl⟩ := stepAlive_busyDown_eq_some.mp hs
      exact ⟨hr, hi.size_le, hi.sampled, hi.hiring, hi.not_wrapped⟩
  | join =>
      obtain ⟨-, rfl⟩ := stepAlive_join_eq_some.mp hs
      exact ⟨hr, hi.size_le, hi.sampled, hi.hiring, hi.not_wrapped⟩

/-- In runs in which `CheckResize` and `Hire` act only on samples that the pool has not outgrown, the
pool never has more than `PoolMaxWorkers` workers and no subtraction of `CheckResize` goes below
zero. -/
theorem limits_of_reachable (h : (machine ndebug l).ReachableUnder (FreshSample l) s) :
    s.pool.poolWorkers.card ≤ l.poolMaxWorkers.toNat ∧ s.wrapped = false := by
  have hi : LimitInvariant l s :=
    h.invariant (LimitInvariant.init l) fun _ _ _ hi ha hs => hi.preserved ha hs
  exact ⟨hi.size_le, hi.not_wrapped⟩

/-- A pool with one worker to start with and two at most. -/
def oneToTwo : Limits := ⟨1, 2, by decide, by decide⟩

/-- When two threads enqueue one after the other, the second finds the pool full and the limit is kept. -/
theorem limits_of_reachable_twice :
    ∃ s, (machine false oneToTwo).exec (State.init oneToTwo)
        [.enqueue 0 10, .checkResize 0, .work 0, .busyUp 0, .enqueue 0 11, .checkResize 0,
          .hire 0 [1], .enqueue 1 12, .checkResize 1] = some s ∧
      s.pool.poolWorkers.card ≤ 2 ∧ s.wrapped = false := by
  have hr := (Machine.ReachableUnder.init (M := machine false oneToTwo)
    (G := FreshSample oneToTwo)).exec
    [.enqueue 0 10, .checkResize 0, .work 0, .busyUp 0, .enqueue 0 11, .checkResize 0,
      .hire 0 [1], .enqueue 1 12, .checkResize 1] (by decide) rfl
  exact ⟨_, rfl, limits_of_reachable hr⟩

/-- When two threads sample before either hires, both hire the last worker allowed, and the limit is passed. -/
theorem not_limits_of_two_samples :
    ¬ ∀ (l : Limits) (s : State), (machine false l).Reachable s →
      s.pool.poolWorkers.card ≤ l.poolMaxWorkers.toNat ∧ s.wrapped = false := by
  intro hclaim
  have hr := (Machine.ReachableUnder.init (M := machine false oneToTwo) (G := fun _ _ => True)).exec
    [.enqueue 0 10, .checkResize 0, .work 0, .busyUp 0, .enqueue 0 11, .enqueue 1 12,
      .checkResize 0, .checkResize 1, .hire 0 [1], .hire 1 [2]] (by decide) rfl
  exact absurd (hclaim _ _ hr).1 (by decide)

end Pool

end NavekFiber
