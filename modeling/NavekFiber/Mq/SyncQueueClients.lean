import NavekFiber.Mq.SyncQueueTasks

/-! # Which client a reply reaches

`Post` knows the client that it passes its content on to by the id of the message alone. As long as the ids
of the `Put` requests are distinct, this is the client whose `Put` came with the id that the `Post` names,
and a client that has had no answer of its own: `Put` answers only when it refuses the message, and then no
`Post` finds it.

* `putCalls`: the calls of `Put` of a run with their ids, so that the client of a request is found by
  `IRequest.conn`, its position.
* `ClientInvariant`: what holds after every run with distinct `Put` ids. -/

namespace NavekFiber

namespace SyncQueue

open SyncQueueHandler

variable {limitSize : ℕ} {s s' : State} {a : Action} {as : List Action}

/-- The call that a step of a queue object belongs to. -/
def Action.call : Action → CallId
  | .put c _ | .get c | .getReply c _ | .postLookup c _ | .postForward c _ | .postErase c => c

/-- A step begins its call: it is the first one of a method. -/
def Action.Begins : Action → Prop
  | .put _ _ | .get _ | .postLookup _ _ => True
  | .getReply _ _ | .postForward _ _ | .postErase _ => False

/-- The call of `Put` that a step is, if it is one, with its id. -/
def Action.put? : Action → Option (CallId × MsgId)
  | .put c id => some (c, id)
  | _ => none

/-- The calls of `Put` among some steps, with their ids, in order. -/
def putCalls (as : List Action) : List (CallId × MsgId) := as.filterMap Action.put?

/-- `putCalls` of a run with one more step has the call of `Put` that the step is, if it is one, at its end. -/
theorem putCalls_append (as : List Action) (a : Action) : putCalls (as ++ [a]) = putCalls as ++ a.put?.toList := by
  rw [putCalls, List.filterMap_append]
  cases ha : a.put? <;> simp [putCalls, ha]

/-- A step that is a call of `Put` belongs to this call. -/
theorem Action.call_of_put? {p : CallId × MsgId} (h : a.put? = some p) : a.call = p.1 := by
  cases a with
  | put c id =>
      obtain rfl := Option.some.inj h
      rfl
  | _ => cases h

/-- A call of `Post` has looked for the request of an accepted message, under its id. -/
structure Asks (as : List Action) (s : State) (d : CallId) (x : MsgId) (request : IRequest) : Prop where
  /-- The call names the id. -/
  names : .postLookup d x ∈ as
  /-- The message has been accepted. -/
  accepted : x ∈ s.accepted
  /-- The request came with the `Put` of the message. -/
  brought : s.Brought x request

/-- What holds of the calls after every run of a queue object. -/
structure CallsInvariant (as : List Action) (s : State) : Prop where
  /-- A call that has taken a step has begun. -/
  begun : ∀ a ∈ as, s.calls a.call ≠ .idle
  /-- A call that has begun did so with the first step of a method. -/
  first : ∀ c, s.calls c ≠ .idle → ∃ a ∈ as, a.call = c ∧ a.Begins
  /-- No call is a `Put` twice. -/
  nodup : ((putCalls as).map Prod.fst).Nodup
  /-- The ids of the `Put` requests are those of the calls of `Put`. -/
  puts : s.puts = (putCalls as).map Prod.snd

/-- What holds of the clients, besides `CallsInvariant`, as long as the ids of the `Put` requests are distinct. -/
structure ClientInvariant (as : List Action) (s : State) : Prop where
  /-- The calls are known by what they have done. -/
  calls : CallsInvariant as s
  /-- A call of `Put` waits when its message has been accepted, and else it answers 507. -/
  outcome : ∀ c x, (c, x) ∈ putCalls as →
    (s.calls c = .stored ∧ x ∈ s.accepted) ∨ (s.calls c = .answering 507 ∧ x ∉ s.accepted)
  /-- Only calls of `Put` wait. -/
  waiting : ∀ c, s.calls c = .stored → ∃ x, (c, x) ∈ putCalls as
  /-- Only accepted messages are stored. -/
  stored : ∀ x ∈ s.handler.mqMessages, x ∈ s.accepted
  /-- What a `Post` has found is what it has asked for. -/
  found : ∀ d x r, (s.calls d).found = some (x, r) → Asks as s d x r
  /-- What a `Post` has passed its content on to is what it has asked for. -/
  forwards : ∀ d r, (d, r) ∈ s.forwards → Asks as s d r.msgId r

/-- The `CallsInvariant` holds of a fresh handler, which has no calls. -/
theorem CallsInvariant.init : CallsInvariant [] State.init :=
  ⟨by simp, fun c hc => absurd rfl hc, List.nodup_nil, rfl⟩

/-- The `ClientInvariant` holds of a fresh handler, which has no clients. -/
theorem ClientInvariant.init : ClientInvariant [] State.init := by
  refine ⟨CallsInvariant.init, ?_, ?_, ?_, ?_, ?_⟩ <;> simp [State.init, putCalls, Call.found]

/-- A step of a queue object moves its own call on, and no other; this call has begun then. -/
theorem calls_step (hs : step limitSize s a = some s') :
    ∃ call, call ≠ .idle ∧ s'.calls = Function.update s.calls a.call call := by
  cases a with
  | put c id =>
      obtain ⟨-, rfl⟩ := step_put_eq_some.mp hs
      exact ⟨_, by split <;> simp, rfl⟩
  | get c =>
      obtain ⟨-, rfl⟩ := step_get_eq_some.mp hs
      exact ⟨_, by split <;> simp, rfl⟩
  | getReply c result =>
      obtain ⟨-, rfl⟩ := step_getReply_eq_some.mp hs
      exact ⟨_, by split <;> simp, rfl⟩
  | postLookup c xid =>
      obtain ⟨-, rfl⟩ := step_postLookup_eq_some.mp hs
      exact ⟨_, by split <;> simp, rfl⟩
  | postForward c result =>
      obtain ⟨xid, xrequest, -, rfl⟩ := step_postForward_eq_some.mp hs
      exact ⟨_, by split <;> simp, rfl⟩
  | postErase c =>
      obtain ⟨xid, xrequest, -, rfl⟩ := step_postErase_eq_some.mp hs
      exact ⟨_, by simp, rfl⟩

/-- A call that has not begun begins with the first step of a method. -/
theorem begins_of_idle (hs : step limitSize s a = some s') (hidle : s.calls a.call = .idle) : a.Begins := by
  cases a with
  | getReply c result =>
      obtain ⟨⟨muid, xrequest, hcall⟩, -⟩ := step_getReply_eq_some.mp hs
      exact absurd (hcall.symm.trans hidle) (by simp)
  | postForward c result =>
      obtain ⟨xid, xrequest, hcall, -⟩ := step_postForward_eq_some.mp hs
      exact absurd (hcall.symm.trans hidle) (by simp)
  | postErase c =>
      obtain ⟨xid, xrequest, hcall, -⟩ := step_postErase_eq_some.mp hs
      exact absurd (hcall.symm.trans hidle) (by simp)
  | put c id => trivial
  | get c => trivial
  | postLookup c xid => trivial

/-- A step adds to the ids of the `Put` requests the one that it comes with, if it is a `Put`, and then its call had
not begun. -/
theorem puts_step (hs : step limitSize s a = some s') :
    s'.puts = s.puts ++ (a.put?.map Prod.snd).toList ∧ ∀ p, a.put? = some p → s.calls p.1 = .idle := by
  cases a with
  | put c id =>
      obtain ⟨hidle, rfl⟩ := step_put_eq_some.mp hs
      refine ⟨rfl, fun p hp => ?_⟩
      obtain rfl := Option.some.inj hp
      exact hidle
  | get c =>
      obtain ⟨-, rfl⟩ := step_get_eq_some.mp hs
      exact ⟨(List.append_nil _).symm, fun p hp => by cases hp⟩
  | getReply c result =>
      obtain ⟨-, rfl⟩ := step_getReply_eq_some.mp hs
      exact ⟨(List.append_nil _).symm, fun p hp => by cases hp⟩
  | postLookup c xid =>
      obtain ⟨-, rfl⟩ := step_postLookup_eq_some.mp hs
      exact ⟨(List.append_nil _).symm, fun p hp => by cases hp⟩
  | postForward c result =>
      obtain ⟨xid, xrequest, -, rfl⟩ := step_postForward_eq_some.mp hs
      exact ⟨(List.append_nil _).symm, fun p hp => by cases hp⟩
  | postErase c =>
      obtain ⟨xid, xrequest, -, rfl⟩ := step_postErase_eq_some.mp hs
      exact ⟨(List.append_nil _).symm, fun p hp => by cases hp⟩

/-- A call that has not begun is not among the `putCalls`. -/
theorem CallsInvariant.not_mem_putCalls {c : CallId} (hi : CallsInvariant as s) (hidle : s.calls c = .idle)
    (x : MsgId) : (c, x) ∉ putCalls as := by
  intro hmem
  obtain ⟨b, hb, hput⟩ := List.mem_filterMap.mp hmem
  have hcall : b.call = c := Action.call_of_put? hput
  exact hi.begun b hb (hcall.symm ▸ hidle)

/-- Every step keeps the `CallsInvariant`. -/
theorem CallsInvariant.preserved (hi : CallsInvariant as s) (hs : step limitSize s a = some s') :
    CallsInvariant (as ++ [a]) s' := by
  obtain ⟨call, hbegun, hcalls⟩ := calls_step hs
  obtain ⟨hputs, hidle⟩ := puts_step hs
  refine ⟨fun b hb => ?_, fun c hc => ?_, ?_, ?_⟩
  · rw [hcalls]
    by_cases heq : b.call = a.call
    · rwa [heq, Function.update_self]
    · rw [Function.update_of_ne heq]
      rcases List.mem_append.mp hb with hb | hb
      · exact hi.begun b hb
      · exact absurd (congrArg Action.call (List.mem_singleton.mp hb)) heq
  · by_cases hold : s.calls c = .idle
    · obtain rfl : c = a.call := by
        by_contra hne
        rw [hcalls, Function.update_of_ne hne] at hc
        exact hc hold
      exact ⟨a, List.mem_append_right _ (List.mem_singleton_self a), rfl, begins_of_idle hs hold⟩
    · obtain ⟨b, hb, hcall⟩ := hi.first c hold
      exact ⟨b, List.mem_append_left _ hb, hcall⟩
  · rw [putCalls_append, List.map_append, List.nodup_append']
    refine ⟨hi.nodup, by cases a.put? <;> simp, fun c hc hnew => ?_⟩
    obtain ⟨p, hp, rfl⟩ := List.mem_map.mp hnew
    obtain ⟨⟨c, x⟩, hold, heq⟩ := List.mem_map.mp hc
    obtain rfl : c = p.1 := heq
    exact hi.not_mem_putCalls (hidle p (Option.mem_toList.mp hp)) x hold
  · rw [putCalls_append, List.map_append, ← hi.puts, hputs]
    cases a.put? <;> rfl

/-- The `CallsInvariant` holds after every run. -/
theorem callsInvariant_of_exec (hexec : (machine limitSize).exec State.init as = some s) :
    CallsInvariant as s := by
  have hi := Machine.exec_history (M := machine limitSize) (I := CallsInvariant)
    (fun _ _ _ _ hi hs => hi.preserved hs) as CallsInvariant.init hexec
  rwa [List.nil_append] at hi

/-- What a `Post` has asked for, it has asked for after further steps as well. -/
theorem Asks.mono {d : CallId} {x : MsgId} {r : IRequest} (h : Asks as s d x r)
    (haccepted : ∀ x ∈ s.accepted, x ∈ s'.accepted) (hputs : s.puts <+: s'.puts) : Asks (as ++ [a]) s' d x r := by
  obtain ⟨names, accepted, hid, hput⟩ := h
  refine ⟨List.mem_append_left _ names, haccepted x accepted, hid, ?_⟩
  obtain ⟨more, hmore⟩ := hputs
  rw [← hmore, List.getElem?_append_left (List.getElem?_eq_some_iff.mp hput).1]
  exact hput

/-- A step that is no `Put` leaves the `putCalls` as they are. -/
theorem putCalls_of_none (as : List Action) (ha : a.put? = none) : putCalls (as ++ [a]) = putCalls as := by
  rw [putCalls_append, ha, Option.toList_none, List.append_nil]

namespace ClientInvariant

variable {call : Call} {c : CallId} {id : MsgId}

/-- After a step, every call that has found a request has asked for it, when this holds of the call that has moved. -/
theorem found_update (hi : ClientInvariant as s) (hcalls : s'.calls = Function.update s.calls a.call call)
    (haccepted : ∀ x ∈ s.accepted, x ∈ s'.accepted) (hputs : s.puts <+: s'.puts)
    (hfound : ∀ x r, call.found = some (x, r) → Asks (as ++ [a]) s' a.call x r) :
    ∀ d x r, (s'.calls d).found = some (x, r) → Asks (as ++ [a]) s' d x r := by
  intro d x r hd
  rw [hcalls] at hd
  by_cases heq : d = a.call
  · subst heq
    rw [Function.update_self] at hd
    exact hfound x r hd
  · rw [Function.update_of_ne heq] at hd
    exact (hi.found d x r hd).mono haccepted hputs

/-- A step of another method than `Put` keeps the `ClientInvariant` when what it finds and passes on is what has been
asked for. -/
theorem move (hi : ClientInvariant as s) (hs : step limitSize s a = some s') (ha : a.put? = none)
    (hcalls : s'.calls = Function.update s.calls a.call call) (hold : ∀ x, (a.call, x) ∉ putCalls as)
    (hnew : call ≠ .stored) (hputs : s'.puts = s.puts) (haccepted : s'.accepted = s.accepted)
    (hmessages : ∀ x ∈ s'.handler.mqMessages, x ∈ s.handler.mqMessages)
    (hfound : ∀ x r, call.found = some (x, r) → Asks (as ++ [a]) s' a.call x r)
    (hforwards : ∀ d r, (d, r) ∈ s'.forwards → (d, r) ∈ s.forwards ∨ Asks (as ++ [a]) s' d r.msgId r) :
    ClientInvariant (as ++ [a]) s' := by
  have hgrows : ∀ x ∈ s.accepted, x ∈ s'.accepted := by simp [haccepted]
  have hprefix : s.puts <+: s'.puts := by simp [hputs]
  have hsame := putCalls_of_none as ha
  refine ⟨hi.calls.preserved hs, fun c x hput => ?_, fun c hc => ?_, fun x hx => ?_,
    hi.found_update hcalls hgrows hprefix hfound, fun d r hd => ?_⟩
  · rw [hsame] at hput
    have hne : c ≠ a.call := by
      rintro rfl
      exact hold x hput
    rw [hcalls, haccepted, Function.update_of_ne hne]
    exact hi.outcome c x hput
  · rw [hsame]
    rw [hcalls] at hc
    rcases update_eq_cases hc with ⟨-, hstored⟩ | ⟨-, hc⟩
    · exact absurd hstored hnew
    · exact hi.waiting c hc
  · rw [haccepted]
    exact hi.stored x (hmessages x hx)
  · exact (hforwards d r hd).elim (fun hd => (hi.forwards d r hd).mono hgrows hprefix) fun h => h

end ClientInvariant

/-- How a `Put` with a new id ends: the message is stored and its client waits, or it is refused. -/
theorem afterPut_cases (limitSize : ℕ) (c : CallId) {id : MsgId} (hnew : id ∉ s.handler.mqMessages) :
    ∃ call, (s.afterPut limitSize c id).calls = Function.update s.calls c call ∧
      ((call = .stored ∧ (s.afterPut limitSize c id).accepted = s.accepted ++ [id] ∧
          (s.afterPut limitSize c id).handler.mqMessages =
            s.handler.mqMessages.insert id ⟨s.puts.length, id⟩) ∨
        (call = .answering 507 ∧ (s.afterPut limitSize c id).accepted = s.accepted ∧
          (s.afterPut limitSize c id).handler.mqMessages = s.handler.mqMessages)) := by
  have hput := putSection_of_new limitSize ⟨s.puts.length, id⟩ hnew
  refine ⟨_, rfl, ?_⟩
  simp only [State.afterPut]
  rw [hput]
  by_cases hroom : limitSize = 0 ∨ s.handler.mqQueue.length < limitSize
  · exact Or.inl (by simp [hroom])
  · exact Or.inr (by simp [hroom])

/-- `Put` keeps the `ClientInvariant` when its id is new. -/
theorem ClientInvariant.put {c : CallId} {id : MsgId} (hi : ClientInvariant as s)
    (hs : step limitSize s (.put c id) = some (s.afterPut limitSize c id))
    (hput : ∀ x ∈ s.accepted, x ∈ s.puts) (hfresh : id ∉ s.puts) :
    ClientInvariant (as ++ [.put c id]) (s.afterPut limitSize c id) := by
  have hidle := (step_put_eq_some.mp hs).1
  have hnew : id ∉ s.handler.mqMessages := fun hmem => hfresh (hput id (hi.stored id hmem))
  have hputCalls : putCalls (as ++ [.put c id]) = putCalls as ++ [(c, id)] := putCalls_append as _
  obtain ⟨call, hcalls, hends⟩ := afterPut_cases limitSize c hnew
  have hprefix : s.puts <+: (s.afterPut limitSize c id).puts := List.prefix_append _ _
  have hgrows : ∀ x ∈ s.accepted, x ∈ (s.afterPut limitSize c id).accepted := by
    intro x hx
    rcases hends with ⟨-, haccepted, -⟩ | ⟨-, haccepted, -⟩ <;> simp [haccepted, hx]
  -- An id from before is accepted now only if it was.
  have hback : ∀ x ∈ s.puts, x ∉ s.accepted → x ∉ (s.afterPut limitSize c id).accepted := by
    intro x hx hnot
    have hne : x ≠ id := fun heq => hfresh (heq ▸ hx)
    rcases hends with ⟨-, haccepted, -⟩ | ⟨-, haccepted, -⟩ <;> simp [haccepted, hnot, hne]
  refine ⟨hi.calls.preserved hs, fun c' x hmem => ?_, fun c' hc => ?_, fun x hx => ?_,
    hi.found_update hcalls hgrows hprefix fun x r hfound => ?_,
    fun d r hd => (hi.forwards d r hd).mono hgrows hprefix⟩
  · rw [hputCalls] at hmem
    rcases List.mem_append.mp hmem with hearlier | hnow
    · have hne : c' ≠ c := by
        rintro rfl
        exact hi.calls.not_mem_putCalls hidle x hearlier
      have hold : x ∈ s.puts := hi.calls.puts ▸ List.mem_map.mpr ⟨(c', x), hearlier, rfl⟩
      rw [hcalls, Function.update_of_ne hne]
      exact (hi.outcome c' x hearlier).imp (And.imp_right (hgrows x)) (And.imp_right (hback x hold))
    · obtain ⟨rfl, rfl⟩ := Prod.mk.inj (List.mem_singleton.mp hnow)
      rw [hcalls, Function.update_self]
      rcases hends with ⟨rfl, haccepted, -⟩ | ⟨rfl, haccepted, -⟩
      · exact Or.inl ⟨rfl, by simp [haccepted]⟩
      · exact Or.inr ⟨rfl, fun hx => hfresh (hput x (haccepted ▸ hx))⟩
  · rw [hputCalls]
    rw [hcalls] at hc
    rcases update_eq_cases hc with ⟨rfl, -⟩ | ⟨-, hc⟩
    · exact ⟨id, List.mem_append_right _ (List.mem_singleton_self _)⟩
    · obtain ⟨x, hx⟩ := hi.waiting c' hc
      exact ⟨x, List.mem_append_left _ hx⟩
  · rcases hends with ⟨-, haccepted, hmessages⟩ | ⟨-, haccepted, hmessages⟩
    · rw [hmessages, AList.mem_insert] at hx
      rw [haccepted]
      rcases hx with rfl | hx
      · exact List.mem_append_right _ (List.mem_singleton_self x)
      · exact List.mem_append_left _ (hi.stored x hx)
    · rw [haccepted]
      exact hi.stored x (hmessages ▸ hx)
  · rcases hends with ⟨rfl, -⟩ | ⟨rfl, -⟩ <;> cases hfound

/-- A call that is past its start in another method is no call of `Put`. -/
theorem ClientInvariant.not_mem_of_call {c : CallId} {call : Call} (hi : ClientInvariant as s)
    (hcall : s.calls c = call) (hstored : call ≠ .stored) (hrefused : call ≠ .answering 507) (x : MsgId) :
    (c, x) ∉ putCalls as := by
  intro hmem
  rcases hi.outcome c x hmem with ⟨hc, -⟩ | ⟨hc, -⟩
  · exact hstored (hcall.symm.trans hc)
  · exact hrefused (hcall.symm.trans hc)

/-- Every step keeps the `ClientInvariant` as long as the ids of the `Put` requests stay distinct. -/
theorem ClientInvariant.preserved {delivered : List IRequest} (hi : ClientInvariant as s)
    (hkept : KeptInvariant delivered s) (hnodup : s'.puts.Nodup) (hs : step limitSize s a = some s') :
    ClientInvariant (as ++ [a]) s' := by
  cases a with
  | put c id =>
      obtain ⟨-, rfl⟩ := step_put_eq_some.mp hs
      have hfresh : id ∉ s.puts := fun hmem =>
        (List.nodup_append'.mp hnodup).2.2 hmem (List.mem_singleton_self id)
      exact hi.put hs hkept.put hfresh
  | get c =>
      obtain ⟨hidle, rfl⟩ := step_get_eq_some.mp hs
      refine hi.move hs rfl rfl (hi.calls.not_mem_putCalls hidle) ?_ rfl rfl (by simp [State.afterGet])
        (fun x r h => absurd h ?_) (fun d r hd => Or.inl hd) <;> split <;> simp [Call.found]
  | getReply c result =>
      obtain ⟨⟨muid, xrequest, hcall⟩, rfl⟩ := step_getReply_eq_some.mp hs
      refine hi.move hs rfl rfl (hi.not_mem_of_call hcall (by simp) (by simp)) ?_ rfl rfl (fun x hx => hx)
        (fun x r h => absurd h ?_) (fun d r hd => Or.inl hd) <;> split <;> simp [Call.found]
  | postLookup c xid =>
      obtain ⟨hidle, rfl⟩ := step_postLookup_eq_some.mp hs
      refine hi.move hs rfl rfl (hi.calls.not_mem_putCalls hidle) (by split <;> simp) rfl rfl
        (fun x hx => hx) (fun x r h => ?_) (fun d r hd => Or.inl hd)
      -- What is found is stored, and stored messages have been accepted.
      split at h
      · rename_i xrequest hfind
        obtain ⟨rfl, rfl⟩ : xid = x ∧ xrequest = r := by simpa [Call.found] using h
        have hmem : xid ∈ s.handler.mqMessages := UnorderedMap.isSome_atKey.mp (by
          rw [Option.isSome_iff_exists]
          exact ⟨xrequest, hfind⟩)
        exact ⟨by simp [Action.call], hi.stored xid hmem, hkept.stored xid xrequest hfind⟩
      · cases h
  | postForward c result =>
      obtain ⟨xid, xrequest, hcall, rfl⟩ := step_postForward_eq_some.mp hs
      have hasks : Asks as s c xid xrequest := hi.found c xid xrequest (by rw [hcall]; rfl)
      have hafter : Asks (as ++ [.postForward c result]) (s.afterPostForward c xid xrequest result) c xid
          xrequest := hasks.mono (fun x hx => hx) (List.prefix_refl _)
      refine hi.move hs rfl rfl (hi.not_mem_of_call hcall (by simp) (by simp))
        (by split <;> simp) rfl rfl (fun x hx => hx) (fun x r h => ?_) (fun d r hd => ?_)
      · split at h
        · obtain ⟨rfl, rfl⟩ : xid = x ∧ xrequest = r := by simpa [Call.found] using h
          exact hafter
        · cases h
        · cases h
      · rcases List.mem_append.mp hd with hd | hd
        · exact Or.inl hd
        · obtain ⟨rfl, rfl⟩ := Prod.mk.inj (List.mem_singleton.mp hd)
          obtain rfl := hasks.brought.1
          exact Or.inr hafter
  | postErase c =>
      obtain ⟨xid, xrequest, hcall, rfl⟩ := step_postErase_eq_some.mp hs
      exact hi.move hs rfl rfl (hi.not_mem_of_call hcall (by simp) (by simp)) (by simp) rfl rfl
        (fun x hx => (AList.mem_erase.mp hx).2) (fun x r h => by cases h) (fun d r hd => Or.inl hd)

/-- The `ClientInvariant` holds after every run with distinct `Put` ids. -/
theorem clientInvariant_of_exec (hexec : (machine limitSize).exec State.init as = some s)
    (hnodup : s.puts.Nodup) : ClientInvariant as s := by
  have hi := Machine.exec_history (M := machine limitSize)
    (I := fun as s => s.puts.Nodup → (∃ delivered, KeptInvariant delivered s) ∧ ClientInvariant as s) ?_ as
    (fun _ => ⟨⟨[], KeptInvariant.init⟩, ClientInvariant.init⟩) hexec
  · rw [List.nil_append] at hi
    exact (hi hnodup).2
  · intro as s a s' hi hs hnodup
    obtain ⟨⟨delivered, hkept⟩, hclient⟩ := hi ((puts_kept hs).sublist.nodup hnodup)
    exact ⟨⟨_, hkept.preserved hnodup hs⟩, hclient.preserved hkept hnodup hs⟩

/-- The client of a request that a `Put` has brought is the call of `Put` that the number of the request counts. -/
theorem ClientInvariant.client_of_brought {x : MsgId} {r : IRequest} (hi : ClientInvariant as s)
    (h : s.Brought x r) : ∃ c, (putCalls as)[r.conn]? = some (c, x) := by
  have hput := h.2
  rw [hi.calls.puts, List.getElem?_map, Option.map_eq_some_iff] at hput
  obtain ⟨⟨c, x⟩, hput, rfl⟩ := hput
  exact ⟨c, hput⟩

/-- A `Post` passes its content on to the client whose `Put` came with the id that it names, and this client
waits for it. -/
theorem ClientInvariant.client_of_forward {d : CallId} {r : IRequest} (hi : ClientInvariant as s)
    (hforward : (d, r) ∈ s.forwards) :
    ∃ c, (putCalls as)[r.conn]? = some (c, r.msgId) ∧ s.calls c = .stored ∧ .postLookup d r.msgId ∈ as := by
  obtain ⟨names, accepted, brought⟩ := hi.forwards d r hforward
  obtain ⟨c, hc⟩ := hi.client_of_brought brought
  have houtcome := hi.outcome c r.msgId (List.mem_of_getElem? hc)
  exact ⟨c, hc, (houtcome.resolve_right fun h => h.2 accepted).1, names⟩

/-- The `OrderInvariant` holds after every run with distinct `Put` ids. -/
theorem orderInvariant_of_exec (hexec : (machine limitSize).exec State.init as = some s)
    (hnodup : s.puts.Nodup) : OrderInvariant limitSize s := by
  refine Machine.exec_invariant (M := machine limitSize)
    (I := fun s => s.puts.Nodup → OrderInvariant limitSize s) ?_ as (fun _ => OrderInvariant.init) hexec hnodup
  intro s a s' hi hs hnodup
  refine (hi ((puts_kept hs).sublist.nodup hnodup)).preserved ?_ hs
  cases a with
  | put c id =>
      obtain ⟨-, rfl⟩ := step_put_eq_some.mp hs
      exact fun hmem => (List.nodup_append'.mp hnodup).2.2 hmem (List.mem_singleton_self id)
  | _ => trivial

/-- After every run with distinct `Put` ids, the message of a client that waits is stored, or a reply has been
delivered to the client. -/
theorem kept_of_waiting {c : CallId} (hexec : (machine limitSize).exec State.init as = some s)
    (hnodup : s.puts.Nodup) (hcall : s.calls c = .stored) :
    ∃ n x, (putCalls as)[n]? = some (c, x) ∧
      (s.handler.mqMessages.find x = some ⟨n, x⟩ ∨ ⟨n, x⟩ ∈ deliveries limitSize as) := by
  have hi := clientInvariant_of_exec hexec hnodup
  obtain ⟨x, hx⟩ := hi.waiting c hcall
  obtain ⟨n, hn⟩ := List.getElem?_of_mem hx
  have haccepted : x ∈ s.accepted := by
    rcases hi.outcome c x hx with ⟨-, haccepted⟩ | ⟨hrefused, -⟩
    · exact haccepted
    · exact absurd (hcall.symm.trans hrefused) (by simp)
  have hput : s.puts[n]? = some x := by rw [hi.calls.puts, List.getElem?_map, hn, Option.map_some]
  exact ⟨n, x, hn, (keptInvariant_of_exec hexec hnodup).kept x haccepted ⟨n, x⟩ ⟨rfl, hput⟩⟩

end SyncQueue

end NavekFiber
