import NavekFiber.Mt.ThreadPoolLimits

/-! # When the pool grows enough for its tasks

A task taken by a worker and not yet done needs that worker, and a task still queued needs one that is
free. `CheckResize` estimates the sum from the sample of `Enqueue` and from `PoolBusyWorkers`, which
does not yet include the workers that have taken their task and not counted themselves busy.
`CountsTaken` asks that a single thread calls `Enqueue`, and that no size at which `CheckResize` stops
hiring is enough for its estimate but not for the tasks there are. Then, whenever that thread is
outside `Enqueue`, there is a worker for every task, or the pool has `PoolMaxWorkers` workers
(`covered_of_reachable`). -/

namespace NavekFiber

namespace ThreadPool

variable {l : Limits} {numWorker numTasks : UInt64} {busy : ℤ} {groups : ℕ}

/-- Rounding up to a multiple does not pass a multiple. -/
theorem roundUp_le_iff {m i j : ℕ} (hi : 0 < i) : (m + (i - 1)) / i * i ≤ j * i ↔ m ≤ j * i := by
  rw [Nat.mul_le_mul_right_iff hi, Nat.div_le_iff_le_mul_add_pred hi, Nat.mul_comm i j]
  omega

/-- `CheckResize` hires no more groups of `PoolInitWorkers` than its estimate needs. -/
theorem toNat_checkResize_le (hpos : 0 ≤ busy) (hbusy : busy ≤ numWorker.toNat)
    (hmax : numWorker.toNat ≤ l.poolMaxWorkers.toNat)
    (hroom : numWorker.toNat + numTasks.toNat + l.poolInitWorkers.toNat < 2 ^ 63)
    (henough : numTasks.toNat + busy ≤ numWorker.toNat + groups * l.poolInitWorkers.toNat) :
    (checkResize l numWorker numTasks busy).toNat ≤ groups * l.poolInitWorkers.toNat := by
  rw [toNat_checkResize busy hmax hroom, toNat_wantedWorkers (by omega), toNat_availableWorkers hpos hbusy]
  refine (min_le_left _ _).trans ((roundUp_le_iff l.init_pos).mpr ?_)
  omega

/-- `CheckResize` fills the pool up to the limit, or it hires whole groups of `PoolInitWorkers` that are
enough for its estimate. -/
theorem checkResize_cases (hpos : 0 ≤ busy) (hbusy : busy ≤ numWorker.toNat)
    (hmax : numWorker.toNat ≤ l.poolMaxWorkers.toNat)
    (hroom : numWorker.toNat + numTasks.toNat + l.poolInitWorkers.toNat < 2 ^ 63) :
    numWorker.toNat + (checkResize l numWorker numTasks busy).toNat = l.poolMaxWorkers.toNat ∨
      ∃ groups, (checkResize l numWorker numTasks busy).toNat = groups * l.poolInitWorkers.toNat ∧
        numWorker.toNat + groups * l.poolInitWorkers.toNat < l.poolMaxWorkers.toNat ∧
        numTasks.toNat + busy ≤ numWorker.toNat + groups * l.poolInitWorkers.toNat := by
  have hresize := toNat_checkResize busy hmax hroom
  have hwanted : (wantedWorkers l numWorker numTasks busy).toNat = _ := toNat_wantedWorkers (by omega)
  rw [toNat_availableWorkers hpos hbusy] at hwanted
  set groups := (numTasks.toNat - (numWorker.toNat - busy.toNat) + (l.poolInitWorkers.toNat - 1))
    / l.poolInitWorkers.toNat
  -- Rounded up, the groups are at least what is missing.
  have henough : numTasks.toNat - (numWorker.toNat - busy.toNat) ≤ groups * l.poolInitWorkers.toNat :=
    (roundUp_le_iff l.init_pos).mp le_rfl
  rw [hwanted] at hresize
  by_cases hlt : groups * l.poolInitWorkers.toNat < l.poolMaxWorkers.toNat - numWorker.toNat
  · refine Or.inr ⟨groups, ?_, ?_, ?_⟩ <;> omega
  · refine Or.inl ?_
    omega

end ThreadPool

namespace Pool

open ThreadPool

variable {ndebug : Bool} {l : Limits} {s s' : State} {a : Action} {p p₀ : ProducerId} {id : ThreadId}

/-- A thread has taken a task and has not finished it. -/
def Worker.isEngaged : Worker → Bool
  | .taken _ _ | .running _ _ => true
  | _ => false

/-- The registered threads that have taken a task and have not finished it. -/
def State.engagedWorkers (s : State) : Finset ThreadId :=
  s.pool.poolWorkers.filter fun id => (s.workers id).isEngaged = true

/-- The number of workers needed: one for every task taken and not finished, one for every task queued. -/
def State.demand (s : State) : ℕ := s.pool.poolTasks.length + s.engagedWorkers.card

/-- The queued tasks find free workers, or the pool cannot grow. -/
def State.Covered (l : Limits) (s : State) : Prop :=
  s.demand ≤ s.pool.poolWorkers.card ∨ s.pool.poolWorkers.card = l.poolMaxWorkers.toNat

/-- No size at which `CheckResize` stops hiring below the limit, the sampled number of workers and whole
groups of `PoolInitWorkers`, is enough for the sampled tasks and `PoolBusyWorkers` but not for the
tasks there are. -/
def Producer.CountsTaken (l : Limits) (s : State) : Producer → Prop
  | .sampled numWorker numTasks =>
      ∀ groups < l.poolMaxWorkers.toNat,
        numWorker.toNat + groups * l.poolInitWorkers.toNat < l.poolMaxWorkers.toNat →
        numTasks.toNat + s.pool.poolBusyWorkers
          ≤ (numWorker.toNat + groups * l.poolInitWorkers.toNat : ℕ) →
        s.demand ≤ numWorker.toNat + groups * l.poolInitWorkers.toNat
  | _ => True

/-- Only `p₀` calls `Enqueue`, with counts far below the range of `size_t`, and `CheckResize` does not
stop hiring on account of workers that have taken a task and not yet counted themselves busy. -/
def CountsTaken (l : Limits) (p₀ : ProducerId) (s : State) : Action → Prop
  | .enqueue p _ => p = p₀ ∧
      s.pool.poolWorkers.card + s.pool.poolTasks.length + 1 + l.poolInitWorkers.toNat < 2 ^ 63
  | .checkResize p => (s.producers p).CountsTaken l s
  | _ => True

instance : DecidablePred (Producer.CountsTaken l s)
  | .sampled _ _ => inferInstanceAs (Decidable (∀ groups < _, _ → _ → _))
  | .idle | .hiring _ _ => isTrue trivial

instance : DecidablePred (CountsTaken l p₀ s)
  | .enqueue _ _ => inferInstanceAs (Decidable (_ ∧ _))
  | .checkResize p => inferInstanceAs (Decidable ((s.producers p).CountsTaken l s))
  | .hire _ _ | .work _ | .busyUp _ | .busyDown _ | .join => isTrue trivial

/-- What holds of the pool at each point of `Enqueue`. While tasks are queued no worker leaves, so the
sampled number of workers is still exact. -/
def Producer.Accounts (l : Limits) (s : State) : Producer → Prop
  | .idle => s.pool.poolTasks ≠ [] → s.Covered l
  | .sampled numWorker numTasks =>
      s.pool.poolWorkers.card ≤ numWorker.toNat ∧ numWorker.toNat ≤ l.poolMaxWorkers.toNat ∧
        numWorker.toNat + numTasks.toNat + l.poolInitWorkers.toNat < 2 ^ 63 ∧
        (s.pool.poolTasks ≠ [] → s.pool.poolWorkers.card = numWorker.toNat)
  | .hiring numWorker newWorkerCount =>
      s.pool.poolWorkers.card ≤ numWorker.toNat ∧
        numWorker.toNat + newWorkerCount.toNat ≤ l.poolMaxWorkers.toNat ∧
        (s.pool.poolTasks ≠ [] → s.pool.poolWorkers.card = numWorker.toNat ∧
          (numWorker.toNat + newWorkerCount.toNat = l.poolMaxWorkers.toNat ∨
            s.demand ≤ numWorker.toNat + newWorkerCount.toNat))

/-- The invariant of runs with one producer in which `CheckResize` counts the workers that have taken a
task. -/
structure CoverInvariant (l : Limits) (p₀ : ProducerId) (s : State) : Prop where
  /-- The registry and the counter agree with the threads. -/
  registered : Registered s
  /-- Nobody else is in `Enqueue`. -/
  alone : ∀ p, p ≠ p₀ → s.producers p = .idle
  /-- `PoolWorkers.size()` is within the limit. -/
  size_le : s.pool.poolWorkers.card ≤ l.poolMaxWorkers.toNat
  /-- The producer's view of the pool. -/
  accounts : (s.producers p₀).Accounts l s

/-- Engaged threads, which have taken a task and have not finished it, are live. -/
theorem Worker.isLive_of_isEngaged {worker : Worker} (h : worker.isEngaged = true) :
    worker.isLive = true := by
  cases worker <;> simp_all [Worker.isEngaged, Worker.isLive]

/-- When the threads are `Registered`, the `engagedWorkers` are all threads that have taken a task and have not
finished it. -/
theorem Registered.mem_engagedWorkers (hr : Registered s) :
    id ∈ s.engagedWorkers ↔ (s.workers id).isEngaged = true := by
  rw [State.engagedWorkers, Finset.mem_filter]
  exact ⟨And.right, fun h => ⟨hr.live id (Worker.isLive_of_isEngaged h), h⟩⟩

/-- A step after which the same threads are engaged keeps the `engagedWorkers`. -/
theorem Registered.engagedWorkers_eq (hr : Registered s) (hr' : Registered s')
    (hsame : ∀ id, (s'.workers id).isEngaged = (s.workers id).isEngaged) :
    s'.engagedWorkers = s.engagedWorkers := by
  ext id
  rw [hr'.mem_engagedWorkers, hr.mem_engagedWorkers, hsame]

/-- A state with an empty queue is `Covered`. -/
theorem State.covered_of_nil (hnil : s.pool.poolTasks = []) : s.Covered l := by
  -- Every task there is has been taken, each by one registered worker.
  refine Or.inl ?_
  rw [State.demand, hnil, List.length_nil, Nat.zero_add]
  exact Finset.card_filter_le _ _

/-- A step of a worker keeps the producer's view of the pool: no worker is lost while tasks are queued, and no task is
added. -/
theorem Producer.Accounts.of_le {producer : Producer} (h : producer.Accounts l s)
    (hcard : s'.pool.poolWorkers.card ≤ s.pool.poolWorkers.card)
    (hkeep : s'.pool.poolTasks ≠ [] → s.pool.poolTasks ≠ [] ∧
      s'.pool.poolWorkers.card = s.pool.poolWorkers.card ∧ s'.demand ≤ s.demand) :
    producer.Accounts l s' := by
  cases producer with
  | idle =>
      intro hne
      -- While tasks are queued the pool does not shrink, and the demand does not grow.
      obtain ⟨hold, hsame, hdemand⟩ := hkeep hne
      rcases h hold with hle | hmax
      · exact Or.inl (by omega)
      · exact Or.inr (hsame.trans hmax)
  | sampled numWorker numTasks =>
      obtain ⟨hle, hmax, hroom, hexact⟩ := h
      refine ⟨hcard.trans hle, hmax, hroom, fun hne => ?_⟩
      obtain ⟨hold, hsame, -⟩ := hkeep hne
      exact hsame.trans (hexact hold)
  | hiring numWorker newWorkerCount =>
      obtain ⟨hle, hmax, hexact⟩ := h
      refine ⟨hcard.trans hle, hmax, fun hne => ?_⟩
      obtain ⟨hold, hsame, hdemand⟩ := hkeep hne
      obtain ⟨heq, henough⟩ := hexact hold
      exact ⟨hsame.trans heq, henough.imp_right hdemand.trans⟩

/-- A pool with more tasks than workers and fewer workers than allowed is not `Covered`. -/
theorem State.not_covered (hdemand : s.pool.poolWorkers.card < s.demand)
    (hmax : s.pool.poolWorkers.card < l.poolMaxWorkers.toNat) : ¬ s.Covered l := by
  rintro (hle | heq)
  · exact absurd hle (Nat.not_le.mpr hdemand)
  · exact absurd heq hmax.ne

/-- `Hire` adds its workers and no demand, since new threads have no task. -/
theorem hired {newWorkerCount : UInt64} {ids : List ThreadId} (hr : Registered s)
    (hids : s.Supplies newWorkerCount ids) (hnew : ∀ id ∈ ids, id ∉ s.pool.poolWorkers) :
    (s.afterHire p ids).pool.poolWorkers.card = s.pool.poolWorkers.card + newWorkerCount.toNat ∧
      (s.afterHire p ids).demand = s.demand ∧
      (s.afterHire p ids).pool.poolTasks = s.pool.poolTasks ∧
      (s.afterHire p ids).producers = Function.update s.producers p .idle := by
  have hr' := hr.hire (p := p) hids
  obtain ⟨-, heq⟩ := (afterHire_cases p hids).resolve_left fun ⟨⟨id, hid, hreg⟩, _⟩ =>
    hnew id hid hreg
  rw [heq] at hr' ⊢
  refine ⟨card_union_supplied hids hnew, ?_, rfl, rfl⟩
  rw [State.demand, State.demand, hr.engagedWorkers_eq hr']
  intro id
  -- The ids given were free, and the new threads wait: neither has a task.
  by_cases hid : id ∈ ids
  · have hnot : (s.workers id).isEngaged = false := by
      have hfree := hids.2.2 id hid
      cases hw : s.workers id <;> simp_all [Worker.isFree, Worker.isEngaged]
    simp only [hid, if_true, hnot]
    rfl
  · simp [hid]

namespace CoverInvariant

/-- The `CoverInvariant` holds at the start, when the queue is empty. -/
theorem init (l : Limits) (p₀ : ProducerId) : CoverInvariant l p₀ (State.init l) := by
  have hlimit := LimitInvariant.init l
  exact ⟨hlimit.registered, fun _ _ => rfl, hlimit.size_le, fun hne => absurd rfl hne⟩

/-- In a state with the `CoverInvariant`, nobody but `p₀` is at a point inside `Enqueue`. -/
theorem eq_of_ne_idle (hi : CoverInvariant l p₀ s) (hp : s.producers p ≠ .idle) : p = p₀ := by
  by_contra hne
  exact hp (hi.alone p hne)

/-- In a state with the `CoverInvariant`, no more threads are busy than a sample that the pool has not outgrown. -/
theorem busy_le {numWorker : UInt64} (hi : CoverInvariant l p₀ s)
    (hle : s.pool.poolWorkers.card ≤ numWorker.toNat) :
    0 ≤ s.pool.poolBusyWorkers ∧ s.pool.poolBusyWorkers ≤ numWorker.toNat := by
  obtain ⟨hpos, hbusy⟩ := hi.registered.busy_le
  exact ⟨hpos, hbusy.trans (by exact_mod_cast hle)⟩

/-- The section of `Enqueue` keeps the `CoverInvariant`: it samples the state it leaves. -/
theorem enqueue {task : Task} (hi : CoverInvariant l p₀ s)
    (hfits : s.pool.poolWorkers.card + s.pool.poolTasks.length + 1 + l.poolInitWorkers.toNat < 2 ^ 63) :
    CoverInvariant l p₀ (s.afterEnqueue p₀ task) := by
  have hr := hi.registered.enqueue p₀ task
  cases hyet : s.pool.poolYet with
  | false => rwa [afterEnqueue_of_stopped hyet]
  | true =>
      rw [afterEnqueue_of_yet hyet] at hr ⊢
      have hmax := hi.size_le
      -- The counts fit into `size_t`, so the sample is exact.
      have hcard : (UInt64.ofNat s.pool.poolWorkers.card).toNat = s.pool.poolWorkers.card := by
        rw [UInt64.toNat_ofNat']
        omega
      have htasks : (UInt64.ofNat (s.pool.poolTasks.length + 1)).toNat
          = s.pool.poolTasks.length + 1 := by
        rw [UInt64.toNat_ofNat']
        omega
      refine ⟨hr, fun p hne => ?_, hmax, ?_⟩
      · simpa [hne] using hi.alone p hne
      · simp only [Function.update_self]
        refine ⟨hcard.ge, hcard.trans_le hmax, ?_, fun _ => hcard.symm⟩
        omega

/-- When it counts the workers that have taken a task, `CheckResize` decides for enough workers, or for all that are
allowed. -/
theorem checkResize_enough {numWorker numTasks : UInt64} (hi : CoverInvariant l p₀ s)
    (hp : s.producers p₀ = .sampled numWorker numTasks)
    (hcounts : (Producer.sampled numWorker numTasks).CountsTaken l s) :
    numWorker.toNat + (ThreadPool.checkResize l numWorker numTasks s.pool.poolBusyWorkers).toNat
        = l.poolMaxWorkers.toNat ∨
      s.demand ≤ numWorker.toNat
        + (ThreadPool.checkResize l numWorker numTasks s.pool.poolBusyWorkers).toNat := by
  obtain ⟨hle, hmax, hroom, -⟩ : (Producer.sampled numWorker numTasks).Accounts l s :=
    hp ▸ hi.accounts
  obtain ⟨hpos, hbusy⟩ := hi.busy_le hle
  have hinit := l.init_pos
  rcases checkResize_cases hpos hbusy hmax hroom with
    hfull | ⟨groups, heq, hlt, henough⟩
  · exact Or.inl hfull
  · have hgroups : groups < l.poolMaxWorkers.toNat := by
      calc groups ≤ groups * l.poolInitWorkers.toNat := Nat.le_mul_of_pos_right _ hinit
        _ < l.poolMaxWorkers.toNat := by omega
    rw [heq]
    exact Or.inr (hcounts groups hgroups hlt (by exact_mod_cast henough))

/-- `CheckResize` keeps the `CoverInvariant` when it counts the workers that have taken a task. -/
theorem checkResize {numWorker numTasks : UInt64} (hi : CoverInvariant l p₀ s)
    (hp : s.producers p₀ = .sampled numWorker numTasks)
    (hcounts : (Producer.sampled numWorker numTasks).CountsTaken l s) :
    CoverInvariant l p₀ (s.afterCheckResize l p₀ numWorker numTasks) := by
  obtain ⟨hle, hmax, hroom, hexact⟩ : (Producer.sampled numWorker numTasks).Accounts l s :=
    hp ▸ hi.accounts
  have henough := hi.checkResize_enough hp hcounts
  have hwithin := add_checkResize_le s.pool.poolBusyWorkers hmax hroom
  refine ⟨⟨hi.registered.live, hi.registered.busy⟩, fun p hne => ?_, hi.size_le, ?_⟩
  · simpa [State.afterCheckResize, hne] using hi.alone p hne
  · simp only [State.afterCheckResize, Function.update_self]
    set newWorkerCount := ThreadPool.checkResize l numWorker numTasks s.pool.poolBusyWorkers
    -- Either `Hire` is called for what was decided, or the pool is left as it is.
    split
    · exact ⟨hle, hwithin, fun hne => ⟨hexact hne, henough⟩⟩
    · rename_i hzero
      have hzero : newWorkerCount.toNat = 0 := by
        rw [UInt64.lt_iff_toNat_lt] at hzero
        exact Nat.eq_zero_of_not_pos hzero
      intro hne
      have hcard : s.pool.poolWorkers.card = numWorker.toNat := hexact hne
      rcases henough with hfull | hdemand
      · exact Or.inr (show s.pool.poolWorkers.card = _ by omega)
      · exact Or.inl (show s.demand ≤ s.pool.poolWorkers.card by omega)

/-- The section of `Hire` keeps the `CoverInvariant`: what was decided is carried out. -/
theorem hire {numWorker newWorkerCount : UInt64} {ids : List ThreadId} (hi : CoverInvariant l p₀ s)
    (hp : s.producers p₀ = .hiring numWorker newWorkerCount) (hids : s.Supplies newWorkerCount ids) :
    CoverInvariant l p₀ (s.afterHire p₀ ids) := by
  obtain ⟨hle, hwithin, hexact⟩ : (Producer.hiring numWorker newWorkerCount).Accounts l s :=
    hp ▸ hi.accounts
  rcases afterHire_cases p₀ hids with ⟨-, heq⟩ | ⟨hnew, -⟩
  · -- An id is registered already: the process terminates and nothing changes in the pool.
    rw [heq]
    exact ⟨⟨hi.registered.live, hi.registered.busy⟩, hi.alone, hi.size_le, hi.accounts⟩
  · obtain ⟨hcard, hdemand, htasks, hproducers⟩ := hired (p := p₀) hi.registered hids hnew
    refine ⟨hi.registered.hire hids, fun p hne => ?_, by omega, ?_⟩
    · rw [hproducers, Function.update_of_ne hne]
      exact hi.alone p hne
    · rw [hproducers, Function.update_self]
      intro hne
      -- While tasks are queued the sampled count is the true one.
      obtain ⟨hsame, hfull | henough⟩ := hexact (htasks ▸ hne)
      · exact Or.inr (by omega)
      · exact Or.inl (by omega)

/-- A step of a worker that loses no worker while tasks are queued keeps the `CoverInvariant`. -/
theorem of_worker (hi : CoverInvariant l p₀ s) (hr : Registered s')
    (hproducers : s'.producers = s.producers)
    (hcard : s'.pool.poolWorkers.card ≤ s.pool.poolWorkers.card)
    (hkeep : s'.pool.poolTasks ≠ [] → s.pool.poolTasks ≠ [] ∧
      s'.pool.poolWorkers.card = s.pool.poolWorkers.card ∧ s'.demand ≤ s.demand) :
    CoverInvariant l p₀ s' := by
  refine ⟨hr, fun p hne => ?_, hcard.trans hi.size_le, ?_⟩
  · rw [hproducers]
    exact hi.alone p hne
  · rw [hproducers]
    exact hi.accounts.of_le hcard hkeep

/-- After a step of a live thread, the number of `engagedWorkers` has changed by what this thread was and is. -/
theorem card_engagedWorkers {worker : Worker} (hi : CoverInvariant l p₀ s) (s' : State)
    (hlive : (s.workers id).isLive = true)
    (hmoved : s'.workers = Function.update s.workers id worker)
    (hworkers : s'.pool.poolWorkers = s.pool.poolWorkers) :
    s'.engagedWorkers.card + (s.workers id).isEngaged.toNat
      = s.engagedWorkers.card + worker.isEngaged.toNat := by
  rw [State.engagedWorkers, hmoved, hworkers]
  exact card_filter_update _ _ (hi.registered.live id hlive)

/-- The section of a worker keeps the `CoverInvariant`: a task it takes still needs a worker, and a worker only leaves
an empty queue. -/
theorem work {type : WorkerType} (hi : CoverInvariant l p₀ s) (hw : s.workers id = .waiting type) :
    CoverInvariant l p₀ (s.afterWork ndebug id type) := by
  have hr : Registered (s.afterWork ndebug id type) := hi.registered.work hw
  have hlive : (s.workers id).isLive = true := by
    rw [hw]
    rfl
  rcases afterWork_cases ndebug s id type with ⟨-, heq⟩ | ⟨-, task, rest, htasks, heq⟩ |
    ⟨-, -, -, heq⟩ | ⟨-, htasks, -, heq⟩
  · rw [heq] at hr ⊢
    refine hi.of_worker hr rfl le_rfl fun hne => ⟨hne, rfl, ?_⟩
    have hcount := hi.card_engagedWorkers (s.setWorker id .terminated) hlive rfl rfl
    rw [hw] at hcount
    exact Nat.add_le_add_left hcount.le _
  · rw [heq] at hr ⊢
    -- One task less in the queue, one worker more engaged.
    refine hi.of_worker hr rfl le_rfl fun _ => ⟨by rw [htasks]; simp, rfl, ?_⟩
    have hcount := hi.card_engagedWorkers { s.setWorker id (.taken type task) with
      pool := { s.pool with poolTasks := rest }
      dequeued := s.dequeued ++ [task] } hlive rfl rfl
    rw [hw] at hcount
    simp only [Worker.isEngaged, Bool.toNat_false, Bool.toNat_true, Nat.add_zero] at hcount
    simp only [State.demand, hcount, htasks, List.length_cons]
    omega
  · rw [heq] at hr ⊢
    refine hi.of_worker hr rfl le_rfl fun hne => ⟨hne, rfl, ?_⟩
    have hcount := hi.card_engagedWorkers (s.setWorker id (.waiting .persistent)) hlive rfl rfl
    rw [hw] at hcount
    exact Nat.add_le_add_left hcount.le _
  · rw [heq] at hr ⊢
    exact hi.of_worker hr rfl (heq ▸ card_afterWork_le ndebug s id type) fun hne => absurd htasks hne

/-- `Busy += 1` keeps the `CoverInvariant`: the worker was engaged before. -/
theorem busyUp {type : WorkerType} {task : Task} (hi : CoverInvariant l p₀ s)
    (hw : s.workers id = .taken type task) : CoverInvariant l p₀ (s.afterBusyUp id type task) := by
  refine hi.of_worker (hi.registered.busyUp hw) rfl le_rfl fun hne => ⟨hne, rfl, ?_⟩
  have hcount := hi.card_engagedWorkers (s.afterBusyUp id type task)
    (by rw [hw]; rfl) rfl rfl
  rw [hw] at hcount
  exact Nat.add_le_add_left (Nat.le_of_add_le_add_right hcount.le) _

/-- `Busy -= 1` keeps the `CoverInvariant`: one task less needs a worker. -/
theorem busyDown {type : WorkerType} {task : Task} (hi : CoverInvariant l p₀ s)
    (hw : s.workers id = .running type task) : CoverInvariant l p₀ (s.afterBusyDown id type) := by
  refine hi.of_worker (hi.registered.busyDown hw) rfl le_rfl fun hne => ⟨hne, rfl, ?_⟩
  have hcount := hi.card_engagedWorkers (s.afterBusyDown id type)
    (by rw [hw]; rfl) rfl rfl
  rw [hw] at hcount
  exact Nat.add_le_add_left (Nat.le_of_succ_le hcount.le) _

/-- Every step of a run with one producer in which `CheckResize` counts the workers that have taken a task keeps the
`CoverInvariant`. -/
theorem preserved (hi : CoverInvariant l p₀ s) (ha : CountsTaken l p₀ s a)
    (hs : step ndebug l s a = some s') : CoverInvariant l p₀ s' := by
  have hs := stepAlive_of_step hs
  cases a with
  | enqueue p task =>
      obtain ⟨-, rfl⟩ := stepAlive_enqueue_eq_some.mp hs
      obtain ⟨rfl, hfits⟩ := ha
      exact hi.enqueue hfits
  | checkResize p =>
      obtain ⟨numWorker, numTasks, hp, rfl⟩ := stepAlive_checkResize_eq_some.mp hs
      obtain rfl : p = p₀ := hi.eq_of_ne_idle (by simp [hp])
      have hcounts : (s.producers p).CountsTaken l s := ha
      exact hi.checkResize hp (hp ▸ hcounts)
  | hire p ids =>
      obtain ⟨numWorker, newWorkerCount, hp, hids, rfl⟩ := stepAlive_hire_eq_some.mp hs
      obtain rfl : p = p₀ := hi.eq_of_ne_idle (by simp [hp])
      exact hi.hire hp hids
  | work id =>
      obtain ⟨type, hw, rfl⟩ := stepAlive_work_eq_some.mp hs
      exact hi.work hw
  | busyUp id =>
      obtain ⟨type, task, hw, rfl⟩ := stepAlive_busyUp_eq_some.mp hs
      exact hi.busyUp hw
  | busyDown id =>
      obtain ⟨type, task, hw, rfl⟩ := stepAlive_busyDown_eq_some.mp hs
      exact hi.busyDown hw
  | join =>
      obtain ⟨-, rfl⟩ := stepAlive_join_eq_some.mp hs
      exact hi.of_worker ⟨hi.registered.live, hi.registered.busy⟩ rfl le_rfl
        fun hne => ⟨hne, rfl, le_rfl⟩

/-- When `CheckResize` misses workers that have taken a task, it decides for too few: for fewer than
the tasks need and the limit allows. -/
theorem checkResize_missed {numWorker numTasks : UInt64} (hi : CoverInvariant l p₀ s)
    (hp : s.producers p₀ = .sampled numWorker numTasks)
    (hmissed : ¬ (Producer.sampled numWorker numTasks).CountsTaken l s) :
    s.pool.poolWorkers.card
        + (ThreadPool.checkResize l numWorker numTasks s.pool.poolBusyWorkers).toNat < s.demand ∧
      s.pool.poolWorkers.card
        + (ThreadPool.checkResize l numWorker numTasks s.pool.poolBusyWorkers).toNat
        < l.poolMaxWorkers.toNat := by
  obtain ⟨hle, hmax, hroom, -⟩ : (Producer.sampled numWorker numTasks).Accounts l s :=
    hp ▸ hi.accounts
  obtain ⟨hpos, hbusy⟩ := hi.busy_le hle
  simp only [Producer.CountsTaken, Classical.not_forall, Nat.not_le] at hmissed
  -- The size that is enough for the estimate and not for the tasks.
  obtain ⟨groups, -, hlt, henough, hdemand⟩ := hmissed
  have hgroups : (ThreadPool.checkResize l numWorker numTasks s.pool.poolBusyWorkers).toNat
      ≤ groups * l.poolInitWorkers.toNat :=
    toNat_checkResize_le hpos hbusy hmax hroom (by exact_mod_cast henough)
  constructor
  · omega
  · omega

/-- When `CheckResize` misses workers that have taken a task, and `Enqueue` goes on at once, it returns
with a task waiting behind running ones in a pool that could grow. -/
theorem not_covered_of_not_countsTaken (hi : CoverInvariant l p₀ s)
    (hmissed : ¬ CountsTaken l p₀ s (.checkResize p₀))
    (hs : step ndebug l s (.checkResize p₀) = some s') :
    (s'.producers p₀ = .idle → ¬ s'.Covered l) ∧
      ∀ ids s'', step ndebug l s' (.hire p₀ ids) = some s'' → s''.aborted = false →
        ¬ s''.Covered l := by
  obtain ⟨numWorker, numTasks, hp, rfl⟩ := stepAlive_checkResize_eq_some.mp (stepAlive_of_step hs)
  have hmissed : ¬ (Producer.sampled numWorker numTasks).CountsTaken l s := by
    rw [← hp]
    exact hmissed
  obtain ⟨hdemand, hmax⟩ := hi.checkResize_missed hp hmissed
  refine ⟨fun _ => ?_, fun ids s'' hs'' halive => ?_⟩
  · exact State.not_covered (Nat.lt_of_le_of_lt (Nat.le_add_right _ _) hdemand)
      (Nat.lt_of_le_of_lt (Nat.le_add_right _ _) hmax)
  · obtain ⟨numWorker', newWorkerCount, hp', hids, rfl⟩ :=
      stepAlive_hire_eq_some.mp (stepAlive_of_step hs'')
    -- `Hire` is called with what `CheckResize` has decided.
    have hcount : newWorkerCount
        = ThreadPool.checkResize l numWorker numTasks s.pool.poolBusyWorkers := by
      simp only [State.afterCheckResize, Function.update_self] at hp'
      split at hp'
      · exact (Producer.hiring.inj hp').2.symm
      · exact absurd hp' (by simp)
    rcases afterHire_cases p₀ hids with ⟨-, heq⟩ | ⟨hnew, -⟩
    · rw [heq] at halive
      exact absurd halive (by simp)
    · have hr' : Registered (s.afterCheckResize l p₀ numWorker numTasks) :=
        ⟨hi.registered.live, hi.registered.busy⟩
      obtain ⟨hcard, hsame, -, -⟩ := hired (p := p₀) hr' hids hnew
      rw [← hcount] at hdemand hmax
      refine State.not_covered ?_ ?_
      · rw [hcard, hsame]
        exact hdemand
      · rw [hcard]
        exact hmax

end CoverInvariant

/-- In runs with one producer in which `CheckResize` does not stop hiring on account of workers that
have taken a task and not yet counted themselves busy, whenever the producer is outside `Enqueue` the
queued tasks find free workers or the pool has all the workers allowed. The condition is exact: after a
`CheckResize` that violates it, `Enqueue` can return without either. -/
theorem covered_of_reachable (h : (machine ndebug l).ReachableUnder (CountsTaken l p₀) s) :
    (s.producers p₀ = .idle → s.Covered l) ∧
      (∀ id, id ∈ s.engagedWorkers ↔ (s.workers id).isEngaged = true) ∧
      ∀ s', step ndebug l s (.checkResize p₀) = some s' → ¬ CountsTaken l p₀ s (.checkResize p₀) →
        (s'.producers p₀ = .idle → ¬ s'.Covered l) ∧
          ∀ ids s'', step ndebug l s' (.hire p₀ ids) = some s'' → s''.aborted = false →
            ¬ s''.Covered l := by
  have hi : CoverInvariant l p₀ s :=
    h.invariant (CoverInvariant.init l p₀) fun _ _ _ hi ha hs => hi.preserved ha hs
  refine ⟨fun hidle => ?_, fun _ => hi.registered.mem_engagedWorkers, fun s' hs hmissed =>
    hi.not_covered_of_not_countsTaken hmissed hs⟩
  by_cases hnil : s.pool.poolTasks = []
  · exact State.covered_of_nil hnil
  · have haccounts := hi.accounts
    rw [hidle] at haccounts
    exact haccounts hnil

/-- A second worker is hired for the second task while the first one is run, and the state is `Covered`. -/
theorem covered_of_reachable_two :
    ∃ s, (machine false oneToTwo).exec (State.init oneToTwo)
        [.enqueue 0 10, .checkResize 0, .work 0, .busyUp 0, .enqueue 0 11, .checkResize 0,
          .hire 0 [1]] = some s ∧ s.Covered oneToTwo := by
  have hr := (Machine.ReachableUnder.init (M := machine false oneToTwo)
    (G := CountsTaken oneToTwo 0)).exec
    [.enqueue 0 10, .checkResize 0, .work 0, .busyUp 0, .enqueue 0 11, .checkResize 0,
      .hire 0 [1]] (by decide) rfl
  exact ⟨_, rfl, (covered_of_reachable hr).1 rfl⟩

/-- When the first task is taken and not yet counted as the second one is queued, nobody is hired for it, and the
state is not `Covered`. -/
theorem not_covered_of_uncounted :
    ¬ ∀ (l : Limits) (s : State),
      (machine false l).ReachableUnder (fun _ a => ∀ p task, a = .enqueue p task → p = 0) s →
      s.producers 0 = .idle → s.Covered l := by
  intro hclaim
  have hr : (machine false oneToTwo).ReachableUnder
      (fun _ a => ∀ p task, a = .enqueue p task → p = 0) _ :=
    (Machine.ReachableUnder.init (M := machine false oneToTwo)
      (G := fun _ a => ∀ p task, a = .enqueue p task → p = 0)).exec
      [.enqueue 0 10, .checkResize 0, .work 0, .enqueue 0 11, .checkResize 0] ?_ rfl
  · rcases hclaim oneToTwo _ hr rfl with hle | hmax
    · exact absurd hle (by decide)
    · exact absurd hmax (by decide)
  · simp [Machine.meets_cons]

end Pool

end NavekFiber
