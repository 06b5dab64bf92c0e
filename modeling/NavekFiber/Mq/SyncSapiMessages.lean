import NavekFiber.Machine.Fifo
import NavekFiber.Mq.SyncSapi

/-! # Which messages the script queue class keeps

`ExecuteThread` moves the request out of `mq_messages` but leaves its key there, and nothing erases the
key afterwards. `Kept` is what one would expect of the keys: they are the queued ids and the ids of the
messages that some worker has taken and not finished replying to. It holds until the first reply is
finished, and every finished reply leaves a key behind (`kept_of_reachable`). -/

namespace NavekFiber

namespace SyncSapi

open SyncSAPIHandler

variable {o : Options} {s s' : State} {a : Action} {w : WorkerId} {worker old : Worker}

/-- The message that a worker has taken and not finished replying to. -/
def Worker.holding : Worker → Option MsgId
  | .replying msgid _ | .excusing msgid _ => some msgid
  | _ => none

/-- The message that worker number `w`, if there is one, holds. -/
def State.held (s : State) (w : WorkerId) : Option MsgId := s.workers[w]?.bind Worker.holding

/-- The keys of `mq_messages` are the queued ids and the ids that workers hold. -/
def State.Kept (s : State) : Prop :=
  ∀ x, x ∈ s.handler.mqMessages ↔ x ∈ s.handler.mqQueue ∨ ∃ w, s.held w = some x

/-- A `Put` comes with an id that no earlier `Put` came with. -/
def FreshPut (s : State) : Action → Prop
  | .put _ id => id ∉ s.puts
  | _ => True

/-- A step ends the replies to a message: the reply 200 returns, or the reply 503 returns or throws, which ends the
process. -/
def FinishesReply : Action → Prop
  | .reply _ result => result ≠ .runtimeException
  | .excuse _ _ => True
  | _ => False

instance : DecidablePred (FreshPut s)
  | .put _ id => inferInstanceAs (Decidable (id ∉ s.puts))
  | .putEnter _ | .dequeue _ | .reply _ _ | .excuse _ _ | .testWorking _ | .testQueue _
  | .leave _ | .finalize => isTrue trivial

instance : DecidablePred FinishesReply
  | .reply _ result => inferInstanceAs (Decidable (result ≠ .runtimeException))
  | .excuse _ _ => isTrue trivial
  | .putEnter _ | .put _ _ | .dequeue _ | .testWorking _ | .testQueue _ | .leave _
  | .finalize => isFalse id

/-- The invariant of runs with distinct `Put` ids in which no reply is finished. -/
structure MessageInvariant (s : State) : Prop where
  /-- The accepted ids are the taken ids followed by the queue. -/
  inOrder : InOrder s.accepted s.taken s.handler.mqQueue
  /-- The accepted ids are among the ids put, in the same order. -/
  sublist : s.accepted.Sublist s.puts
  /-- No id was put twice. -/
  nodup : s.puts.Nodup
  /-- The keys are the queued and the held ids. -/
  kept : s.Kept
  /-- Held ids were taken. -/
  taken : ∀ w x, s.held w = some x → x ∈ s.taken
  /-- No two workers hold one id. -/
  unique : ∀ w w' x, s.held w = some x → s.held w' = some x → w = w'

/-- A worker that stands at a given point holds what this point is `holding`. -/
theorem held_of_getElem? (hw : s.workers[w]? = some old) : s.held w = old.holding := by
  rw [State.held, hw, Option.bind_some]

/-- States with the same workers have the same messages `held`. -/
theorem held_congr (h : s'.workers = s.workers) : s'.held = s.held := by
  funext w
  rw [State.held, State.held, h]

/-- A held message is held by some worker. -/
theorem exists_mem_of_held {x : MsgId} (h : s.held w = some x) :
    ∃ worker ∈ s.workers, worker.holding = some x := by
  obtain ⟨worker, hw, hx⟩ := Option.bind_eq_some_iff.mp h
  exact ⟨worker, List.mem_of_getElem? hw, hx⟩

/-- After a worker has moved on, it holds what its new point is `holding`, and the others hold what they held. -/
theorem held_setWorker (hw : s.workers[w]? = some old) :
    (s.setWorker w worker).held = Function.update s.held w worker.holding := by
  funext w'
  by_cases heq : w' = w
  · subst heq
    have hself : (s.setWorker w' worker).workers[w']? = some worker :=
      List.getElem?_set_self (List.getElem?_eq_some_iff.mp hw).1
    rw [held_of_getElem? hself, Function.update_self]
  · rw [Function.update_of_ne heq, State.held, State.setWorker, List.getElem?_set_ne (Ne.symm heq)]
    rfl

/-- When a worker moves on and goes on holding what it held, what is `held` stays the same. -/
theorem held_setWorker_of_same (hw : s.workers[w]? = some old) (hsame : worker.holding = old.holding) :
    (s.setWorker w worker).held = s.held := by
  rw [held_setWorker hw, hsame, ← held_of_getElem? hw, Function.update_eq_self]

/-- The `MessageInvariant` holds at the start, when there are no messages. -/
theorem MessageInvariant.init : MessageInvariant State.init := by
  refine ⟨InOrder.nil, List.Sublist.refl _, List.nodup_nil, fun x => ?_, fun w x hx => ?_,
    fun w w' x hx => ?_⟩
  · simp [State.init, State.held]
  · simp [State.init, State.held] at hx
  · simp [State.init, State.held] at hx

/-- A step that only moves a worker, one that goes on holding what it held, keeps the `MessageInvariant`. -/
theorem MessageInvariant.setWorker (hi : MessageInvariant s) (hw : s.workers[w]? = some old)
    (hsame : worker.holding = old.holding) : MessageInvariant (s.setWorker w worker) := by
  have hheld := held_setWorker_of_same hw hsame
  refine ⟨hi.inOrder, hi.sublist, hi.nodup, fun x => ?_, ?_, ?_⟩
  · rw [hheld]
    exact hi.kept x
  · rw [hheld]
    exact hi.taken
  · rw [hheld]
    exact hi.unique

/-- In a state with the `MessageInvariant`, no taken id is queued. -/
theorem MessageInvariant.notMem_queue (hi : MessageInvariant s) {x : MsgId} (hx : x ∈ s.taken) :
    x ∉ s.handler.mqQueue := by
  have hnodup := hi.inOrder.nodup (hi.sublist.nodup hi.nodup)
  exact fun hqueue => (List.nodup_append.mp hnodup).2.2 x hx x hqueue rfl

/-- Starting a worker does not change what is `held`. -/
theorem held_append_dequeuing (h : s'.workers = s.workers ++ [.dequeuing]) : s'.held = s.held := by
  funext w
  rw [State.held, State.held, h, List.getElem?_append]
  split
  · rfl
  -- A number behind the old workers is that of the new one, or of none.
  · rename_i hlt
    rw [List.getElem?_eq_none (not_lt.mp hlt)]
    cases hone : ([Worker.dequeuing] : List Worker)[w - s.workers.length]? with
    | none => rfl
    | some worker =>
        obtain rfl := List.mem_singleton.mp (List.mem_of_getElem? hone)
        rfl

/-- `Put` with a new id keeps the `MessageInvariant`. -/
theorem MessageInvariant.put {c : CallId} {id : MsgId} (hi : MessageInvariant s)
    (hfresh : id ∉ s.puts) : MessageInvariant (s.afterPut o c id) := by
  have hnodup : (s.puts ++ [id]).Nodup := by
    rw [← List.concat_eq_append]
    exact hi.nodup.concat hfresh
  by_cases haccepts : Accepts o s.handler id
  · have hheld : (s.afterPut o c id).held = s.held := by
      rw [afterPut_of_accepts c haccepts]
      by_cases hhires : Hires o s.handler
      · exact held_append_dequeuing (if_pos hhires)
      · exact held_congr (if_neg hhires)
    have hput := afterPut_of_accepts c haccepts
    refine ⟨?_, ?_, ?_, fun x => ?_, hheld ▸ ?_, hheld ▸ hi.unique⟩
    · rw [hput]
      exact hi.inOrder.push id
    · rw [hput]
      exact hi.sublist.append (List.Sublist.refl _)
    · rw [hput]
      exact hnodup
    · -- The new id is a key and queued.
      rw [hheld, hput]
      simp only [AList.mem_insert, hi.kept x, List.mem_append, List.mem_singleton]
      tauto
    · rw [hput]
      exact hi.taken
  -- Refused: only `puts` grows, and with it the list that `accepted` is taken from.
  · rw [afterPut_of_not_accepts c haccepts]
    exact ⟨hi.inOrder, hi.sublist.trans (List.sublist_append_left _ _), hnodup, hi.kept, hi.taken,
      hi.unique⟩

/-- The keys are still the queued and the held ids when a worker that held nothing takes the front message: its id
goes from the queue to the worker. -/
theorem MessageInvariant.kept_update {msgid : MsgId} {rest : List MsgId} (hi : MessageInvariant s)
    (hqueue : s.handler.mqQueue = msgid :: rest) (hnone : s.held w = none) (x : MsgId) :
    x ∈ s.handler.mqMessages ↔
      x ∈ rest ∨ ∃ w', Function.update s.held w (some msgid) w' = some x := by
  rw [hi.kept x, hqueue, List.mem_cons]
  constructor
  · rintro ((rfl | hrest) | ⟨w', hw'⟩)
    · exact Or.inr ⟨w, Function.update_self _ _ _⟩
    · exact Or.inl hrest
    -- Another worker goes on holding its id: worker `w` held none.
    · refine Or.inr ⟨w', ?_⟩
      rwa [Function.update_of_ne]
      rintro rfl
      rw [hnone] at hw'
      exact absurd hw' (by simp)
  · rintro (hrest | ⟨w', hw'⟩)
    · exact Or.inl (Or.inr hrest)
    · rcases update_eq_cases hw' with ⟨-, heq⟩ | ⟨-, hold⟩
      · exact Or.inl (Or.inl (Option.some.inj heq).symm)
      · exact Or.inr ⟨w', hold⟩

/-- The section of `ExecuteThread` keeps the `MessageInvariant`: the id goes from the queue to the worker. -/
theorem MessageInvariant.dequeue (hi : MessageInvariant s) (hw : s.workers[w]? = some .dequeuing) :
    MessageInvariant (s.afterDequeue w) := by
  cases hqueue : s.handler.mqQueue with
  | nil =>
      rw [afterDequeue_of_nil w hqueue]
      exact hi.setWorker hw rfl
  | cons msgid rest =>
      -- Queued ids are keys, so `mq_messages.at` finds the message.
      have hstored : msgid ∈ s.handler.mqMessages := (hi.kept msgid).mpr (Or.inl (by simp [hqueue]))
      obtain ⟨request, hat⟩ := Option.isSome_iff_exists.mp (UnorderedMap.isSome_atKey.mpr hstored)
      have hheld : (s.afterDequeue w).held = Function.update s.held w (some msgid) := by
        rw [afterDequeue_of_cons w hqueue hat]
        exact held_setWorker hw
      have hnone : s.held w = none := held_of_getElem? hw
      have hfront : msgid ∉ s.taken := fun hmem => hi.notMem_queue hmem (by simp [hqueue])
      have htake := afterDequeue_of_cons w hqueue hat
      refine ⟨?_, ?_, ?_, fun x => ?_, fun w' x hx => ?_, fun w₁ w₂ x hx₁ hx₂ => ?_⟩
      · have hpop := hi.inOrder.pop
        rw [hqueue] at hpop
        rw [htake]
        exact hpop
      · rw [htake]
        exact hi.sublist
      · rw [htake]
        exact hi.nodup
      · rw [hheld, htake]
        exact hi.kept_update hqueue hnone x
      · rw [htake]
        refine List.mem_append.mpr ?_
        rcases update_eq_cases (hheld ▸ hx) with ⟨-, heq⟩ | ⟨-, hold⟩
        · exact Or.inr (List.mem_singleton.mpr (Option.some.inj heq).symm)
        · exact Or.inl (hi.taken w' x hold)
      · -- The id is new among the taken ones, so nobody else holds it.
        rcases update_eq_cases (hheld ▸ hx₁) with ⟨rfl, heq₁⟩ | ⟨-, hold₁⟩ <;>
          rcases update_eq_cases (hheld ▸ hx₂) with ⟨rfl, heq₂⟩ | ⟨-, hold₂⟩
        · rfl
        · exact absurd (hi.taken w₂ x hold₂) (Option.some.inj heq₁ ▸ hfront)
        · exact absurd (hi.taken w₁ x hold₁) (Option.some.inj heq₂ ▸ hfront)
        · exact hi.unique w₁ w₂ x hold₁ hold₂

/-- A worker that lets go of its message leaves a key behind that nobody holds, so that the state is not `Kept`. -/
theorem MessageInvariant.not_kept_setWorker (hi : MessageInvariant s) {x : MsgId}
    (hw : s.workers[w]? = some old) (hold : old.holding = some x) (hnew : worker.holding = none) :
    ¬ (s.setWorker w worker).Kept := by
  intro hkept
  have hx : s.held w = some x := (held_of_getElem? hw).trans hold
  have hmem : x ∈ s.handler.mqMessages := (hi.kept x).mpr (Or.inr ⟨w, hx⟩)
  -- The id is a key still, but it was taken, and nobody but `w` held it.
  rcases (hkept x).mp hmem with hqueue | ⟨w', hw'⟩
  · exact hi.notMem_queue (hi.taken w x hx) hqueue
  · rw [held_setWorker hw] at hw'
    rcases update_eq_cases hw' with ⟨-, heq⟩ | ⟨hne, hother⟩
    · rw [hnew] at heq
      exact absurd heq (by simp)
    · exact hne (hi.unique w' w x hother hx)

/-- Every step of a run with distinct `Put` ids keeps the `MessageInvariant`, unless it finishes a reply. -/
theorem MessageInvariant.preserved (hi : MessageInvariant s) (hfresh : FreshPut s a)
    (hopen : ¬ FinishesReply a) (hs : step o s a = some s') : MessageInvariant s' := by
  cases a with
  | putEnter c =>
      obtain ⟨-, rfl⟩ := step_putEnter_eq_some.mp hs
      exact ⟨hi.inOrder, hi.sublist, hi.nodup, hi.kept, hi.taken, hi.unique⟩
  | put c id =>
      obtain ⟨-, rfl⟩ := step_put_eq_some.mp hs
      exact hi.put hfresh
  | dequeue w =>
      obtain ⟨hw, rfl⟩ := step_dequeue_eq_some.mp hs
      exact hi.dequeue hw
  | reply w result =>
      obtain ⟨msgid, request, hw, rfl⟩ := step_reply_eq_some.mp hs
      refine hi.setWorker hw ?_
      -- The reply threw, so the worker holds its message through the `catch`.
      rw [if_pos (not_not.mp hopen)]
      rfl
  | excuse w result => exact absurd trivial hopen
  | testWorking w =>
      obtain ⟨hw, rfl⟩ := step_testWorking_eq_some.mp hs
      refine hi.setWorker hw ?_
      split <;> rfl
  | testQueue w =>
      obtain ⟨hw, rfl⟩ := step_testQueue_eq_some.mp hs
      refine hi.setWorker hw ?_
      split <;> rfl
  | leave w =>
      obtain ⟨hw, rfl⟩ := step_leave_eq_some.mp hs
      have hi' : MessageInvariant (s.setWorker w .finished) := hi.setWorker hw rfl
      exact ⟨hi'.inOrder, hi'.sublist, hi'.nodup, hi'.kept, hi'.taken, hi'.unique⟩
  | finalize =>
      obtain ⟨-, rfl⟩ := step_finalize_eq_some.mp hs
      exact ⟨hi.inOrder, hi.sublist, hi.nodup, hi.kept, hi.taken, hi.unique⟩

/-- A step that finishes a reply leaves the key of the message behind, so that the state is not `Kept`. -/
theorem MessageInvariant.not_kept_of_finishes (hi : MessageInvariant s) (hfinishes : FinishesReply a)
    (hs : step o s a = some s') : ¬ s'.Kept := by
  cases a with
  | reply w result =>
      obtain ⟨msgid, request, hw, rfl⟩ := step_reply_eq_some.mp hs
      refine hi.not_kept_setWorker hw rfl ?_
      -- The reply 200 has returned.
      rw [if_neg hfinishes]
      rfl
  | excuse w result =>
      obtain ⟨⟨msgid, request, hw⟩, rfl⟩ := step_excuse_eq_some.mp hs
      refine hi.not_kept_setWorker hw rfl ?_
      -- Returned or thrown, the 503 was the last reply.
      split <;> rfl
  | putEnter c => exact False.elim hfinishes
  | put c id => exact False.elim hfinishes
  | dequeue w => exact False.elim hfinishes
  | testWorking w => exact False.elim hfinishes
  | testQueue w => exact False.elim hfinishes
  | leave w => exact False.elim hfinishes
  | finalize => exact False.elim hfinishes

/-- In runs with distinct `Put` ids in which no reply is finished, the keys of `mq_messages` are the
queued ids and the ids of the messages being replied to. The condition is exact: a step that finishes a
reply leaves a key behind. -/
theorem kept_of_reachable
    (h : (machine o).ReachableUnder (fun s a => FreshPut s a ∧ ¬ FinishesReply a) s) :
    s.Kept ∧ ∀ a s', FreshPut s a → step o s a = some s' → (s'.Kept ↔ ¬ FinishesReply a) := by
  have hi : MessageInvariant s :=
    h.invariant MessageInvariant.init fun _ _ _ hi ha hs => hi.preserved ha.1 ha.2 hs
  refine ⟨hi.kept, fun a s' hfresh hs => ?_⟩
  constructor
  · exact fun hkept hfinishes => hi.not_kept_of_finishes hfinishes hs hkept
  · exact fun hopen => (hi.preserved hfresh hopen hs).kept

/-- While one message is being replied to and another one waits, the state is `Kept`. -/
theorem kept_of_reachable_two :
    ∃ s, (machine ⟨1, 0⟩).exec State.init
        [.putEnter 0, .put 0 7, .dequeue 0, .putEnter 1, .put 1 8] = some s ∧ s.Kept := by
  have hr := (Machine.ReachableUnder.init (M := machine ⟨1, 0⟩)
    (G := fun s a => FreshPut s a ∧ ¬ FinishesReply a)).exec
    [.putEnter 0, .put 0 7, .dequeue 0, .putEnter 1, .put 1 8] (by decide) rfl
  exact ⟨_, rfl, (kept_of_reachable hr).1⟩

/-- After the only message has been answered its id is still a key, so that the state is not `Kept`. -/
theorem not_kept_of_answered :
    ¬ ∀ (o : Options) (s : State), (machine o).ReachableUnder FreshPut s → s.Kept := by
  intro hclaim
  have hr := (Machine.ReachableUnder.init (M := machine ⟨1, 0⟩) (G := FreshPut)).exec
    [.putEnter 0, .put 0 7, .dequeue 0, .reply 0 .delivered, .testWorking 0, .testQueue 0, .leave 0]
    (by decide) rfl
  have hkept := hclaim ⟨1, 0⟩ _ hr
  rcases (hkept 7).mp (by decide) with hqueue | ⟨w, hheld⟩
  · exact absurd hqueue (by decide)
  · exact absurd (exists_mem_of_held hheld) (by decide)

end SyncSapi

end NavekFiber
