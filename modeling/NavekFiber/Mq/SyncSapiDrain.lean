import Mathlib.Algebra.BigOperators.Group.List.Basic
import NavekFiber.Machine.Progress
import NavekFiber.Mq.SyncSapiThread

/-! # How the script queue class comes to rest

A thread of `SyncSAPIHandler` goes round its loop once for each message that it takes, and `Put` starts at
most one thread for each message that it accepts. So all threads together take at most seven steps for each
accepted message, whatever the interleaving and whatever becomes of the replies; without new messages they
come to rest, and then every thread has returned or been left by an exception. -/

namespace NavekFiber

namespace SyncSapi

open SyncSAPIHandler

variable {o : Options} {s s' : State} {a : Action} {w : WorkerId}

/-- The number of steps that a started thread can still take before it takes another message. -/
def Worker.stepsLeft (worker : Worker) : ℕ := rank (some worker)

/-- The number of steps that the threads can still take for the messages that are queued and held. -/
def State.stepsLeft (s : State) : ℕ :=
  5 * s.handler.mqQueue.length + (s.workers.map Worker.stepsLeft).sum

/-- Moving one thread on changes the sum of `Worker.stepsLeft` by its own part. -/
theorem sum_stepsLeft_set (new : Worker) {workers : List Worker} {old : Worker} (hw : workers[w]? = some old) :
    ((workers.set w new).map Worker.stepsLeft).sum + old.stepsLeft
      = (workers.map Worker.stepsLeft).sum + new.stepsLeft := by
  induction workers generalizing w with
  | nil => exact absurd hw (by simp)
  | cons first workers ih =>
      cases w with
      | zero =>
          obtain rfl : first = old := by simpa using hw
          simp only [List.set_cons_zero, List.map_cons, List.sum_cons]
          omega
      | succ w =>
          have hrest := ih (w := w) (by simpa using hw)
          simp only [List.set_cons_succ, List.map_cons, List.sum_cons]
          omega

/-- Each step of a thread is paid for out of `State.stepsLeft`, and an accepted message brings seven new ones: two of
the thread that may be started for it and five of the one that takes it. -/
theorem stepsLeft_step (hstored : ∀ x ∈ s.handler.mqQueue, x ∈ s.handler.mqMessages)
    (hs : step o s a = some s') :
    a.thread.isSome.toNat + s'.stepsLeft + 7 * s.accepted.length ≤ s.stepsLeft + 7 * s'.accepted.length := by
  cases ha : a.thread with
  | some w =>
      obtain ⟨old, new, hstep⟩ := exists_threadStep hstored ha hs
      have hsum := sum_stepsLeft_set new hstep.stood
      have hrank := hstep.rank_lt
      rw [hstep.accepted, State.stepsLeft, State.stepsLeft, hstep.workers]
      simp only [Worker.stepsLeft] at hsum ⊢
      simp only [Option.isSome_some, Bool.toNat_true]
      omega
  | none =>
      cases a with
      | putEnter c =>
          obtain ⟨-, rfl⟩ := step_putEnter_eq_some.mp hs
          simp [State.afterPutEnter, State.stepsLeft]
      | put c id =>
          obtain ⟨-, rfl⟩ := step_put_eq_some.mp hs
          by_cases haccepts : Accepts o s.handler id
          · rw [afterPut_of_accepts c haccepts]
            by_cases hhires : Hires o s.handler
            · simp [State.stepsLeft, hhires, Worker.stepsLeft, rank]
              omega
            · simp [State.stepsLeft, hhires]
              omega
          · rw [afterPut_of_not_accepts c haccepts]
            simp [State.stepsLeft]
      | finalize =>
          obtain ⟨-, rfl⟩ := step_finalize_eq_some.mp hs
          simp [State.afterFinalize, State.stepsLeft]
      | dequeue w => cases ha
      | reply w result => cases ha
      | excuse w result => cases ha
      | testWorking w => cases ha
      | testQueue w => cases ha
      | leave w => cases ha

/-- A thread with `stepsLeft` can take a step. -/
theorem exists_thread_step {worker : Worker} (hw : s.workers[w]? = some worker)
    (hleft : 0 < worker.stepsLeft) : ∃ a s', a.thread = some w ∧ step o s a = some s' := by
  have hlive : ¬ Ended o s w := by
    rw [ended_iff hw]
    rintro (rfl | rfl) <;> exact absurd hleft (by simp [Worker.stepsLeft, rank])
  simp only [Ended, not_forall] at hlive
  obtain ⟨a, ha, hs⟩ := hlive
  obtain ⟨s', hs⟩ := Option.ne_none_iff_exists'.mp hs
  exact ⟨a, s', ha, hs⟩

/-- The steps of threads accept no message. -/
theorem accepted_of_thread (hstored : ∀ x ∈ s.handler.mqQueue, x ∈ s.handler.mqMessages)
    (ha : a.thread = some w) (hs : step o s a = some s') : s'.accepted = s.accepted := by
  obtain ⟨old, new, hstep⟩ := exists_threadStep hstored ha hs
  exact hstep.accepted

/-- As long as some thread has not ended, one of them can take a step that lowers `State.stepsLeft`. -/
theorem exists_lowering_step {accepted : List MsgId}
    (hstored : ∀ x ∈ s.handler.mqQueue, x ∈ s.handler.mqMessages) (haccepted : s.accepted = accepted)
    (hsome : ¬ ∀ worker ∈ s.workers, worker = .finished ∨ worker = .terminated) :
    ∃ a s', a.thread.isSome = true ∧ (machine o).step s a = some s' ∧
      ((∀ x ∈ s'.handler.mqQueue, x ∈ s'.handler.mqMessages) ∧ s'.accepted = accepted) ∧
      s'.stepsLeft < s.stepsLeft := by
  simp only [not_forall, not_or] at hsome
  obtain ⟨worker, hmem, hfinished, hterminated⟩ := hsome
  obtain ⟨w, hw⟩ := List.mem_iff_getElem?.mp hmem
  have hleft : 0 < worker.stepsLeft := by
    cases worker <;> simp_all [Worker.stepsLeft, rank]
  obtain ⟨a, s', ha, hs⟩ := exists_thread_step (o := o) hw hleft
  have hsame := accepted_of_thread hstored ha hs
  refine ⟨a, s', by rw [ha]; rfl, hs, ⟨stored_step hstored hs, hsame.trans haccepted⟩, ?_⟩
  have hpaid := stepsLeft_step hstored hs
  rw [hsame, ha, Option.isSome_some, Bool.toNat_true] at hpaid
  omega

/-- In every run of the handler, whatever the interleaving with calls of `Put` and with `Finalize` and
whatever becomes of the replies: the threads have taken, all together, at most seven steps for each accepted
message; a thread that has not ended can take a step; and some run of the threads, of no more steps than
were left, ends them all. So when no more messages come the handler comes to rest, and it does so in a
number of steps that is linear in the number of messages. -/
theorem drains_of_exec {as : List Action} (hexec : (machine o).exec State.init as = some s) :
    as.countP (fun a => a.thread.isSome) + s.stepsLeft ≤ 7 * s.accepted.length ∧
      (∀ w worker, s.workers[w]? = some worker → worker ≠ .finished → worker ≠ .terminated →
        ∃ a s', a.thread = some w ∧ step o s a = some s') ∧
      ∃ bs s', (∀ b ∈ bs, b.thread.isSome = true) ∧ bs.length ≤ s.stepsLeft ∧
        (machine o).exec s bs = some s' ∧ s'.accepted = s.accepted ∧
        ∀ worker ∈ s'.workers, worker = .finished ∨ worker = .terminated := by
  have hstored := (threadInvariant_of_exec hexec).stored
  refine ⟨?_, fun w worker hw hfinished hterminated => ?_, ?_⟩
  · have hpaid := Machine.countP_le (M := machine o) (p := fun a => a.thread.isSome)
      (I := fun s => ∀ x ∈ s.handler.mqQueue, x ∈ s.handler.mqMessages) State.stepsLeft
      (fun s => 7 * s.accepted.length) (fun _ _ _ hi hs => ⟨stored_step hi hs, stepsLeft_step hi hs⟩) as
      (fun x hx => absurd hx (by simp [State.init])) hexec
    simpa [State.init, State.stepsLeft] using hpaid
  · refine exists_thread_step hw ?_
    cases worker <;> simp_all [Worker.stepsLeft, rank]
  · obtain ⟨bs, s', hown, hlength, hbs, ⟨-, haccepted⟩, hended⟩ :=
      Machine.exists_exec_goal (M := machine o) (P := fun a => a.thread.isSome = true)
        (I := fun s' => (∀ x ∈ s'.handler.mqQueue, x ∈ s'.handler.mqMessages) ∧ s'.accepted = s.accepted)
        State.stepsLeft (fun s' => ∀ worker ∈ s'.workers, worker = .finished ∨ worker = .terminated)
        (fun s hi hsome => exists_lowering_step hi.1 hi.2 hsome) ⟨hstored, rfl⟩
    exact ⟨bs, s', hown, hlength, hbs, haccepted, hended⟩

/-- Two messages and one thread, which answers both in at most twelve steps. -/
theorem drains_of_exec_two :
    ∃ s bs s', (machine ⟨1, 0⟩).exec State.init [.putEnter 0, .put 0 7, .putEnter 1, .put 1 8] = some s ∧
      s.stepsLeft = 12 ∧ (machine ⟨1, 0⟩).exec s bs = some s' ∧ bs.length ≤ 12 ∧
      ∀ worker ∈ s'.workers, worker = .finished ∨ worker = .terminated := by
  have hexec : (machine ⟨1, 0⟩).exec State.init [.putEnter 0, .put 0 7, .putEnter 1, .put 1 8] = some _ := rfl
  obtain ⟨-, -, bs, s', -, hlength, hbs, -, hended⟩ := drains_of_exec hexec
  exact ⟨_, bs, s', hexec, rfl, hbs, hlength, hended⟩

end SyncSapi

end NavekFiber
