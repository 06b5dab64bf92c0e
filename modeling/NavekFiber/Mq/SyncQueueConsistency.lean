import NavekFiber.Mq.SyncQueue

/-! # The three containers of the queue class stay in step, unless `Post` names a queued id

`Consistent` says what `Get` relies on when it calls `mq_messages.at` without a check: the queue has
no repeated id, no queued id is locked, and the stored messages are those of the queued and locked
ids. Each section is shown to keep it. The one exception is the second section of `Post`, which
erases an id from `mq_messages` and `mq_locked` but not from `mq_queue`: it keeps `Consistent`
exactly when the id is not queued (`Consistent.postEraseSection_iff`). A client learns queued ids
from `HEAD`, so nothing keeps it from naming one. -/

namespace NavekFiber

namespace SyncQueueHandler

variable {h : SyncQueueHandler} {xid : MsgId} {request : IRequest} {limitSize : ℕ}

/-- The three containers of a handler are in step. -/
structure Consistent (h : SyncQueueHandler) : Prop where
  /-- `mq_queue` has no repeated id. -/
  nodup : h.mqQueue.Nodup
  /-- `mq_queue` and `mq_locked` are disjoint. -/
  disjoint : ∀ x ∈ h.mqQueue, x ∉ h.mqLocked
  /-- The keys of `mq_messages` are the queued ids together with the locked ids. -/
  keys : ∀ x, x ∈ h.mqMessages ↔ x ∈ h.mqQueue ∨ x ∈ h.mqLocked

namespace Consistent

/-- In `Consistent` containers as many messages are stored as are queued and pending. -/
theorem messagesCount_eq (hc : h.Consistent) :
    h.getStats.messagesCount = h.getStats.queueCount + h.getStats.lockedCount := by
  have hkeys : h.mqMessages.keys.toFinset = h.mqQueue.toFinset ∪ h.mqLocked := by
    ext x
    rw [List.mem_toFinset, ← AList.mem_keys, Finset.mem_union, List.mem_toFinset]
    exact hc.keys x
  have hdisj : Disjoint h.mqQueue.toFinset h.mqLocked :=
    Finset.disjoint_left.mpr fun x hx => hc.disjoint x (List.mem_toFinset.mp hx)
  calc h.mqMessages.keys.length
      = h.mqMessages.keys.toFinset.card := (List.toFinset_card_of_nodup h.mqMessages.keys_nodup).symm
    _ = h.mqQueue.toFinset.card + h.mqLocked.card := by rw [hkeys, Finset.card_union_of_disjoint hdisj]
    _ = h.mqQueue.length + h.mqLocked.card := by rw [List.toFinset_card_of_nodup hc.nodup]

/-- The section of `Get` keeps the containers `Consistent`. -/
theorem getSection (hc : h.Consistent) : h.getSection.1.Consistent := by
  obtain ⟨queue, locked, messages⟩ := h
  cases queue with
  | nil => exact hc
  | cons muid rest =>
      obtain ⟨hnodup, hdisj, hkeys⟩ := hc
      obtain ⟨hmuid, hrest⟩ := List.nodup_cons.mp hnodup
      -- The front id leaves the queue and enters the lock set; the keys stay.
      have hlocked : (⟨rest, insert muid locked, messages⟩ : SyncQueueHandler).Consistent := by
        refine ⟨hrest, fun x hx => ?_, fun x => ?_⟩
        · have hne : x ≠ muid := fun heq => hmuid (heq ▸ hx)
          have hold := hdisj x (List.mem_cons_of_mem _ hx)
          simp [hne, hold]
        · rw [hkeys x, List.mem_cons, Finset.mem_insert]
          tauto
      cases hat : messages.lookup muid <;>
        simpa [SyncQueueHandler.getSection, UnorderedMap.atKey, hat] using hlocked

/-- In `Consistent` containers `mq_messages.at` does not throw in `Get`. -/
theorem getSection_ne_outOfRange (hc : h.Consistent) : h.getSection.2 ≠ .outOfRange := by
  obtain ⟨queue, locked, messages⟩ := h
  cases queue with
  | nil => simp [SyncQueueHandler.getSection]
  | cons muid rest =>
      have hmem : muid ∈ messages := (hc.keys muid).mpr (Or.inl List.mem_cons_self)
      obtain ⟨xrequest, hat⟩ := Option.isSome_iff_exists.mp (UnorderedMap.isSome_atKey.mpr hmem)
      simp [SyncQueueHandler.getSection, hat]

/-- The section of `Put` keeps the containers `Consistent` when the id is new. -/
theorem putSection (hc : h.Consistent) (hnew : request.msgId ∉ h.mqMessages) :
    (h.putSection limitSize request).1.Consistent := by
  by_cases hroom : limitSize = 0 ∨ h.mqQueue.length < limitSize
  -- An id that is not a key is neither queued nor locked.
  · have hout := fun hx => hnew ((hc.keys request.msgId).mpr hx)
    rw [SyncQueueHandler.putSection, if_pos hroom, UnorderedMap.emplace_of_notMem hnew]
    refine ⟨?_, fun x hx => ?_, fun x => ?_⟩
    · rw [← List.concat_eq_append]
      exact hc.nodup.concat fun hx => hout (Or.inl hx)
    · rcases List.mem_append.mp hx with hx | hx
      · exact hc.disjoint x hx
      · rw [List.mem_singleton] at hx
        exact fun hl => hout (Or.inr (hx ▸ hl))
    · rw [AList.mem_insert, hc.keys x, List.mem_append, List.mem_singleton]
      tauto
  · rwa [SyncQueueHandler.putSection, if_neg hroom]

/-- The second section of `Post` keeps the containers `Consistent` exactly when its id is not queued. -/
theorem postEraseSection_iff (hc : h.Consistent) :
    (h.postEraseSection xid).Consistent ↔ xid ∉ h.mqQueue := by
  constructor
  · intro hc' hx
    -- A queued id would have to be a key, and it has just been erased.
    have hmem : xid ∈ h.mqMessages.erase xid := (hc'.keys xid).mpr (Or.inl hx)
    exact (AList.mem_erase.mp hmem).1 rfl
  · intro hx
    refine ⟨hc.nodup, fun y hy hl => ?_, fun y => ?_⟩
    · exact hc.disjoint y hy (Finset.mem_of_mem_erase hl)
    · have hne : y ∈ h.mqQueue → y ≠ xid := fun hy heq => hx (heq ▸ hy)
      have hkeys := hc.keys y
      simp only [SyncQueueHandler.postEraseSection, AList.mem_erase, Finset.mem_erase]
      tauto

end Consistent

/-- `Put` stores no message under an id other than that of its request. -/
theorem mem_of_mem_putSection {x : MsgId}
    (hx : x ∈ (h.putSection limitSize request).1.mqMessages) :
    x = request.msgId ∨ x ∈ h.mqMessages := by
  rw [putSection] at hx
  split at hx
  · by_cases hmem : request.msgId ∈ h.mqMessages
    · exact Or.inr (by simpa [UnorderedMap.emplace_of_mem hmem] using hx)
    · rw [UnorderedMap.emplace_of_notMem hmem] at hx
      exact (AList.mem_insert _).mp hx
  · exact Or.inr hx

end SyncQueueHandler

namespace SyncQueue

variable {limitSize : ℕ} {s s' : State} {a : Action}

/-- A `Put` comes with an id that no earlier `Put` came with. -/
def FreshPut (s : State) : Action → Prop
  | .put _ id => id ∉ s.puts
  | _ => True

/-- A `Post` does not erase an id that is still queued. -/
def SparesQueued (s : State) : Action → Prop
  | .postErase c => ∀ xid ∈ (s.calls c).erasing, xid ∉ s.handler.mqQueue
  | _ => True

instance : ∀ a, Decidable (FreshPut s a)
  | .put _ id => inferInstanceAs (Decidable (id ∉ s.puts))
  | .get _ | .getReply _ _ | .postLookup _ _ | .postForward _ _ | .postErase _ => isTrue trivial

instance : ∀ a, Decidable (SparesQueued s a)
  | .postErase c => Option.decidableForallMem (p := (· ∉ s.handler.mqQueue)) (s.calls c).erasing
  | .put _ _ | .get _ | .getReply _ _ | .postLookup _ _ | .postForward _ _ => isTrue trivial

/-- The invariant of runs whose `Put` ids are distinct: the containers are in step and every stored
id came with some `Put`. -/
structure Invariant (s : State) : Prop where
  /-- The containers are in step. -/
  consistent : s.handler.Consistent
  /-- Stored ids were put. -/
  put : ∀ x ∈ s.handler.mqMessages, x ∈ s.puts

/-- The `Invariant` holds of a fresh handler. -/
theorem Invariant.init : Invariant State.init := by
  refine ⟨⟨List.nodup_nil, fun x hx => ?_, fun x => ?_⟩, fun x hx => ?_⟩
  · simp [State.init] at hx
  · simp [State.init]
  · simp [State.init] at hx

/-- Every step from a state with the `Invariant` leaves the containers `Consistent`, a `Post` that erases its message
exactly when the id is not queued. -/
theorem Invariant.consistent_iff (hi : Invariant s) (hfresh : FreshPut s a)
    (hs : step limitSize s a = some s') : s'.handler.Consistent ↔ SparesQueued s a := by
  cases a with
  | put c id =>
      obtain ⟨-, rfl⟩ := step_put_eq_some.mp hs
      exact iff_of_true (hi.consistent.putSection fun hmem => hfresh (hi.put id hmem)) trivial
  | get c =>
      obtain ⟨-, rfl⟩ := step_get_eq_some.mp hs
      exact iff_of_true hi.consistent.getSection trivial
  | getReply c result =>
      obtain ⟨-, rfl⟩ := step_getReply_eq_some.mp hs
      exact iff_of_true hi.consistent trivial
  | postLookup c xid =>
      obtain ⟨-, rfl⟩ := step_postLookup_eq_some.mp hs
      exact iff_of_true hi.consistent trivial
  | postForward c result =>
      obtain ⟨xid, xrequest, -, rfl⟩ := step_postForward_eq_some.mp hs
      exact iff_of_true hi.consistent trivial
  | postErase c =>
      obtain ⟨xid, xrequest, hcall, rfl⟩ := step_postErase_eq_some.mp hs
      -- The only step that can bring the containers out of step.
      simp [SparesQueued, hcall, Call.erasing, State.afterPostErase,
        hi.consistent.postEraseSection_iff]

/-- After every step from a state with the `Invariant`, each stored id came with some `Put`. -/
theorem Invariant.put_step (hi : Invariant s) (hs : step limitSize s a = some s') :
    ∀ x ∈ s'.handler.mqMessages, x ∈ s'.puts := by
  intro x hx
  cases a with
  | put c id =>
      obtain ⟨-, rfl⟩ := step_put_eq_some.mp hs
      refine List.mem_append.mpr ?_
      rcases SyncQueueHandler.mem_of_mem_putSection hx with heq | hold
      · exact Or.inr (List.mem_singleton.mpr heq)
      · exact Or.inl (hi.put x hold)
  | get c =>
      obtain ⟨-, rfl⟩ := step_get_eq_some.mp hs
      exact hi.put x (by simpa [State.afterGet] using hx)
  | getReply c result =>
      obtain ⟨-, rfl⟩ := step_getReply_eq_some.mp hs
      exact hi.put x hx
  | postLookup c xid =>
      obtain ⟨-, rfl⟩ := step_postLookup_eq_some.mp hs
      exact hi.put x hx
  | postForward c result =>
      obtain ⟨xid, xrequest, -, rfl⟩ := step_postForward_eq_some.mp hs
      exact hi.put x hx
  | postErase c =>
      obtain ⟨xid, xrequest, -, rfl⟩ := step_postErase_eq_some.mp hs
      exact hi.put x (AList.mem_erase.mp hx).2

/-- Runs with distinct `Put` ids in which no `Post` erases a queued id keep the `Invariant`. -/
theorem invariant_of_reachable
    (h : (machine limitSize).ReachableUnder (fun s a => FreshPut s a ∧ SparesQueued s a) s) :
    Invariant s :=
  h.invariant Invariant.init fun _ _ _ hi ha hs =>
    ⟨(hi.consistent_iff ha.1 hs).mpr ha.2, hi.put_step hs⟩

/-- In runs with distinct `Put` ids in which no `Post` erases a queued id, the containers are in
step in every state, `Get` finds its message, and the reported counts add up. The condition is
exact: a step that violates it brings the containers out of step. -/
theorem consistent_of_reachable
    (h : (machine limitSize).ReachableUnder (fun s a => FreshPut s a ∧ SparesQueued s a) s) :
    s.handler.Consistent ∧
      (∀ c s', step limitSize s (.get c) = some s' → s'.calls c ≠ .threw) ∧
      s.handler.getStats.messagesCount
        = s.handler.getStats.queueCount + s.handler.getStats.lockedCount ∧
      ∀ a s', FreshPut s a → step limitSize s a = some s' →
        (s'.handler.Consistent ↔ SparesQueued s a) := by
  have hi := invariant_of_reachable h
  refine ⟨hi.consistent, fun c s' hs => ?_, hi.consistent.messagesCount_eq,
    fun a s' hfresh hs => hi.consistent_iff hfresh hs⟩
  obtain ⟨-, rfl⟩ := step_get_eq_some.mp hs
  have hne := hi.consistent.getSection_ne_outOfRange
  cases hget : s.handler.getSection.2 <;> simp_all [State.afterGet]

/-- A message put, fetched and answered in the usual order meets the condition. -/
theorem consistent_of_reachable_served :
    ∃ s, (machine 0).exec State.init
        [.put 0 7, .get 1, .postLookup 2 7, .postForward 2 .delivered, .postErase 2] = some s ∧
      s.handler.Consistent := by
  have hr := (Machine.ReachableUnder.init (M := machine 0)
    (G := fun s a => FreshPut s a ∧ SparesQueued s a)).exec
    [.put 0 7, .get 1, .postLookup 2 7, .postForward 2 .delivered, .postErase 2] (by decide) rfl
  exact ⟨_, rfl, (consistent_of_reachable hr).1⟩

/-- A `Post` that answers a message nobody has fetched yet leaves its id in the queue: the next
`Get` throws, and the counts no longer add up. -/
theorem not_consistent_of_queued_post :
    ¬ ∀ s, (machine 0).ReachableUnder FreshPut s →
      s.handler.Consistent ∧
        (∀ c s', step 0 s (.get c) = some s' → s'.calls c ≠ .threw) ∧
        s.handler.getStats.messagesCount
          = s.handler.getStats.queueCount + s.handler.getStats.lockedCount := by
  intro hclaim
  have hr := (Machine.ReachableUnder.init (M := machine 0) (G := FreshPut)).exec
    [.put 0 7, .postLookup 1 7, .postForward 1 .delivered, .postErase 1] (by decide) rfl
  exact (hclaim _ hr).2.1 2 _ rfl rfl

end SyncQueue

end NavekFiber
