import NavekFiber.Mq.SyncQueue

/-! # How often `Post` forwards a reply to the client behind a stored message

`Post` looks the message up, forwards the reply without the lock, and erases the message in a second
section. Between the two sections the message is still stored, so another `Post` with the same id
finds it too. `Call.Holds` marks the calls that have found a request and have not erased it, those
whose forwarded reply failed included. If no `Post` finds a request that another call holds, every
request is forwarded to at most once (`forwards_nodup_of_reachable`). Requests are told apart by
their connection, so nothing is assumed about message ids. -/

namespace NavekFiber

namespace SyncQueueHandler

variable {h : SyncQueueHandler} {x xid : MsgId} {request xrequest : IRequest} {limitSize : ℕ}

/-- `Put` leaves the stored messages stored. -/
theorem find_putSection_of_find (hx : h.mqMessages.find x = some xrequest) :
    (h.putSection limitSize request).1.mqMessages.find x = some xrequest := by
  rw [putSection]
  split
  · exact UnorderedMap.find_emplace_of_find hx
  · exact hx

/-- `Put` stores nothing but its own request. -/
theorem find_of_find_putSection
    (hx : (h.putSection limitSize request).1.mqMessages.find x = some xrequest) :
    (x = request.msgId ∧ xrequest = request) ∨ h.mqMessages.find x = some xrequest := by
  rw [putSection] at hx
  split at hx
  · exact UnorderedMap.find_of_find_emplace hx
  · exact Or.inr hx

end SyncQueueHandler

namespace SyncQueue

variable {limitSize : ℕ} {s s' : State} {a : Action} {c : CallId} {r : IRequest}

/-- The request that a `Post` in progress is about to forward to. -/
def Call.Claims (r : IRequest) : Call → Prop
  | .forwarding _ xrequest => xrequest = r
  | _ => False

/-- The request that a `Post` has forwarded to, or failed to, without erasing it. -/
def Call.Keeps (r : IRequest) : Call → Prop
  | .forwarded _ xrequest => xrequest = r
  | .unsent xrequest _ => xrequest = r
  | _ => False

/-- A call has found the request and has not erased it. -/
def Call.Holds (r : IRequest) (call : Call) : Prop := call.Claims r ∨ call.Keeps r

/-- A `Post` between its sections knows the message under the id of its request. -/
def Call.Keyed : Call → Prop
  | .forwarding xid xrequest => xid = xrequest.msgId
  | .forwarded xid xrequest => xid = xrequest.msgId
  | _ => True

/-- A `Post` finds no request that another call holds. -/
def FindsUnheld (s : State) : Action → Prop
  | .postLookup _ xid =>
      ∀ r, s.handler.postLookupSection xid = some r → ∀ c, ¬ (s.calls c).Holds r
  | _ => True

/-- The invariant of runs in which no `Post` finds a request that another call holds. -/
structure ForwardInvariant (s : State) : Prop where
  /-- A message is stored under the id of its request, which some `Put` brought. -/
  stored : ∀ x r, s.handler.mqMessages.find x = some r → x = r.msgId ∧ r.conn < s.puts.length
  /-- Every call knows its message under the right id. -/
  keyed : ∀ c, (s.calls c).Keyed
  /-- A held request is still stored. -/
  held : ∀ c r, (s.calls c).Holds r → s.handler.mqMessages.find r.msgId = some r
  /-- At most one call holds a request. -/
  unique : ∀ c c' r, (s.calls c).Holds r → (s.calls c').Holds r → c = c'
  /-- Who keeps a request has forwarded to it. -/
  logged : ∀ c r, (s.calls c).Keeps r → (c, r) ∈ s.forwards
  /-- A request forwarded to is kept by the call that did, or no longer stored. -/
  past : ∀ e ∈ s.forwards,
    (s.calls e.1).Keeps e.2 ∨ ∀ x, s.handler.mqMessages.find x ≠ some e.2
  /-- A request forwarded to came with some `Put`. -/
  known : ∀ e ∈ s.forwards, e.2.conn < s.puts.length
  /-- No request is forwarded to twice. -/
  nodup : (s.forwards.map Prod.snd).Nodup

/-- The `ForwardInvariant` holds of a fresh handler, which has forwarded nothing. -/
theorem ForwardInvariant.init : ForwardInvariant State.init := by
  refine ⟨fun x r hx => ?_, fun c => trivial, fun c r hh => ?_, fun c c' r hh => ?_,
    fun c r hk => absurd hk id, fun e he => ?_, fun e he => ?_, List.nodup_nil⟩
  · simp [State.init, UnorderedMap.find] at hx
  · simp [State.init, Call.Holds, Call.Claims, Call.Keeps] at hh
  · simp [State.init, Call.Holds, Call.Claims, Call.Keeps] at hh
  · simp [State.init] at he
  · simp [State.init] at he

/-- After a move of one call, the calls that hold a request are this one, if it does at its new point, and the others
that held it. -/
theorem holds_update {calls : CallId → Call} {call : Call} {c' : CallId} :
    (Function.update calls c call c').Holds r ↔
      (c' = c ∧ call.Holds r) ∨ (c' ≠ c ∧ (calls c').Holds r) := by
  by_cases hc : c' = c
  · subst hc
    simp
  · simp [hc]

/-- What a call keeps is not affected by another call's move. -/
theorem keeps_update_of_ne {calls : CallId → Call} {call : Call} {c' : CallId} (hc : c' ≠ c)
    (hkeep : (calls c').Keeps r) : (Function.update calls c call c').Keeps r := by
  rwa [Function.update_of_ne hc]

/-- A call that keeps a request after another has moved to a point where nothing is kept has kept it before. -/
theorem keeps_of_keeps_update {calls : CallId → Call} {call : Call} {c' : CallId}
    (hnew : ∀ r, ¬ call.Keeps r) (hkeep : (Function.update calls c call c').Keeps r) :
    c' ≠ c ∧ (calls c').Keeps r := by
  by_cases hc : c' = c
  · subst hc
    rw [Function.update_self] at hkeep
    exact absurd hkeep (hnew r)
  · rw [Function.update_of_ne hc] at hkeep
    exact ⟨hc, hkeep⟩

/-- Every call stays `Keyed` when one call moves to a point where it is. -/
theorem keyed_update {calls : CallId → Call} {call : Call} (hold : ∀ c', (calls c').Keyed)
    (hnew : call.Keyed) (c' : CallId) : (Function.update calls c call c').Keyed := by
  by_cases hc : c' = c
  · subst hc
    rwa [Function.update_self]
  · rw [Function.update_of_ne hc]
    exact hold c'

/-- A call that has not begun holds no request. -/
theorem not_holds_of_idle (h : s.calls c = .idle) (r : IRequest) : ¬ (s.calls c).Holds r := by
  simp [h, Call.Holds, Call.Claims, Call.Keeps]

/-- Moving a call between two points where it holds nothing keeps the `ForwardInvariant`, when no message is forgotten
and none is stored but a request with a new connection. -/
theorem ForwardInvariant.of_update (hi : ForwardInvariant s) {call : Call}
    (hold : ∀ r, ¬ (s.calls c).Holds r) (hnew : ∀ r, ¬ call.Holds r) (hkeyed : call.Keyed)
    (hcalls : s'.calls = Function.update s.calls c call)
    (hkept : ∀ x r, s.handler.mqMessages.find x = some r → s'.handler.mqMessages.find x = some r)
    (hstored : ∀ x r, s'.handler.mqMessages.find x = some r →
      (x = r.msgId ∧ s.puts.length ≤ r.conn ∧ r.conn < s'.puts.length) ∨
        s.handler.mqMessages.find x = some r)
    (hputs : s.puts.length ≤ s'.puts.length) (hforwards : s'.forwards = s.forwards) :
    ForwardInvariant s' := by
  -- The moved call holds nothing before and after its move, so nobody holds anything new.
  have hholds : ∀ c' r, (s'.calls c').Holds r → (s.calls c').Holds r := by
    intro c' r hh
    rw [hcalls, holds_update] at hh
    exact hh.elim (fun h => absurd h.2 (hnew r)) And.right
  refine ⟨fun x r hx => ?_, fun c' => hcalls ▸ keyed_update hi.keyed hkeyed c',
    fun c' r hh => hkept _ r (hi.held c' r (hholds c' r hh)),
    fun c₁ c₂ r h₁ h₂ => hi.unique c₁ c₂ r (hholds c₁ r h₁) (hholds c₂ r h₂), fun c' r hk => ?_,
    fun e he => ?_, fun e he => ?_, hforwards ▸ hi.nodup⟩
  · rcases hstored x r hx with ⟨hkey, -, hconn⟩ | hx
    · exact ⟨hkey, hconn⟩
    · exact (hi.stored x r hx).imp_right fun hconn => lt_of_lt_of_le hconn hputs
  · rw [hforwards]
    rw [hcalls] at hk
    exact hi.logged c' r (keeps_of_keeps_update (fun r hk => hnew r (Or.inr hk)) hk).2
  · rw [hforwards] at he
    refine (hi.past e he).imp (fun hkeep => ?_) fun hgone x hx => ?_
    · rw [hcalls]
      exact keeps_update_of_ne (fun heq => hold e.2 (Or.inr (heq ▸ hkeep))) hkeep
    · -- A request with a new connection is not one of those forwarded to.
      rcases hstored x e.2 hx with ⟨-, hconn, -⟩ | hx
      · exact absurd (hi.known e he) (not_lt.mpr hconn)
      · exact hgone x hx
  · exact lt_of_lt_of_le (hi.known e (hforwards ▸ he)) hputs

/-- `Put` keeps the `ForwardInvariant`: its request is a new object. -/
theorem ForwardInvariant.put {id : MsgId} (hi : ForwardInvariant s) (hidle : s.calls c = .idle) :
    ForwardInvariant (s.afterPut limitSize c id) := by
  have hlength : (s.afterPut limitSize c id).puts.length = s.puts.length + 1 := by
    simp [State.afterPut]
  refine hi.of_update (not_holds_of_idle hidle) (fun r => ?_) ?_ rfl
    (fun x r hx => SyncQueueHandler.find_putSection_of_find hx) (fun x r hx => ?_) (by omega) rfl
  · split <;> simp [Call.Holds, Call.Claims, Call.Keeps]
  · split <;> trivial
  · refine (SyncQueueHandler.find_of_find_putSection hx).imp_left ?_
    -- The connection of the new request is the number of the `Put`: no stored request has it.
    rintro ⟨rfl, rfl⟩
    exact ⟨rfl, le_refl _, by rw [hlength]; exact Nat.lt_succ_self _⟩

/-- The section of `Get` keeps the `ForwardInvariant`. -/
theorem ForwardInvariant.get (hi : ForwardInvariant s) (hidle : s.calls c = .idle) :
    ForwardInvariant (s.afterGet c) := by
  have hmessages : (s.afterGet c).handler.mqMessages = s.handler.mqMessages := by
    simp [State.afterGet]
  refine hi.of_update (not_holds_of_idle hidle) (fun r => ?_) ?_ rfl (fun x r hx => ?_)
    (fun x r hx => Or.inr ?_) le_rfl rfl
  · cases s.handler.getSection.2 <;> simp [Call.Holds, Call.Claims, Call.Keeps]
  · cases s.handler.getSection.2 <;> trivial
  · rwa [hmessages]
  · rwa [← hmessages]

/-- The reply of `Get` keeps the `ForwardInvariant`. -/
theorem ForwardInvariant.getReply {result : ReplyResult} {muid : MsgId} {xrequest : IRequest}
    (hi : ForwardInvariant s) (hcall : s.calls c = .delivering muid xrequest) :
    ForwardInvariant (s.afterGetReply c result) := by
  refine hi.of_update (fun r => ?_) (fun r => ?_) ?_ rfl (fun x r hx => hx)
    (fun x r hx => Or.inr hx) le_rfl rfl
  · simp [hcall, Call.Holds, Call.Claims, Call.Keeps]
  · split <;> simp [Call.Holds, Call.Claims, Call.Keeps]
  · split <;> trivial

/-- The first section of `Post` keeps the `ForwardInvariant` when no other call holds the request that it finds. -/
theorem ForwardInvariant.postLookup {xid : MsgId} (hi : ForwardInvariant s)
    (hidle : s.calls c = .idle) (hfree : FindsUnheld s (.postLookup c xid)) :
    ForwardInvariant (s.afterPostLookup c xid) := by
  cases hfind : s.handler.postLookupSection xid with
  | none =>
      -- Not found: the call answers 300 and holds nothing.
      have hcalls : (s.afterPostLookup c xid).calls = Function.update s.calls c (.answering 300) := by
        simp [State.afterPostLookup, hfind]
      refine hi.of_update (not_holds_of_idle hidle) (fun r => ?_) ?_ hcalls (fun x r hx => hx)
        (fun x r hx => Or.inr hx) le_rfl rfl
      · simp [Call.Holds, Call.Claims, Call.Keeps]
      · trivial
  | some r =>
      have hcalls : (s.afterPostLookup c xid).calls = Function.update s.calls c (.forwarding xid r) := by
        simp [State.afterPostLookup, hfind]
      have hxid : xid = r.msgId := (hi.stored xid r hfind).1
      have hkeyed : (Call.forwarding xid r).Keyed := hxid
      -- The condition on the run: nobody else holds the request that was found.
      have hunheld : ∀ c', ¬ (s.calls c').Holds r := hfree r hfind
      have hholds : ∀ c' r', ((s.afterPostLookup c xid).calls c').Holds r' →
          (c' = c ∧ r' = r) ∨ (s.calls c').Holds r' := by
        intro c' r' hh
        rw [hcalls, holds_update] at hh
        refine hh.imp (And.imp_right fun hclaim => ?_) And.right
        rcases hclaim with hclaim | hkeep
        · exact Eq.symm hclaim
        · exact absurd hkeep id
      refine ⟨hi.stored, fun c' => hcalls ▸ keyed_update hi.keyed hkeyed c', fun c' r' hh => ?_,
        fun c₁ c₂ r' h₁ h₂ => ?_, fun c' r' hk => ?_, fun e he => ?_, hi.known, hi.nodup⟩
      · rcases hholds c' r' hh with ⟨-, rfl⟩ | hold
        · exact hxid ▸ hfind
        · exact hi.held c' r' hold
      · rcases hholds c₁ r' h₁ with ⟨rfl, rfl⟩ | h₁ <;> rcases hholds c₂ r' h₂ with ⟨hc₂, hr⟩ | h₂
        · exact hc₂.symm
        · exact absurd h₂ (hunheld c₂)
        · exact absurd (hr ▸ h₁) (hunheld c₁)
        · exact hi.unique c₁ c₂ r' h₁ h₂
      · rw [hcalls] at hk
        exact hi.logged c' r' (keeps_of_keeps_update (fun _ => id) hk).2
      · refine (hi.past e he).imp_left fun hkeep => ?_
        rw [hcalls]
        exact keeps_update_of_ne (fun heq => not_holds_of_idle hidle e.2 (Or.inr (heq ▸ hkeep))) hkeep

/-- The forwarded reply of `Post` takes the call to a point where it keeps the request and no longer claims one. -/
theorem exists_calls_afterPostForward {xid : MsgId} (result : ReplyResult) (hxid : xid = r.msgId) :
    ∃ moved, (s.afterPostForward c xid r result).calls = Function.update s.calls c moved ∧
      moved.Keyed ∧ (∀ r', moved.Keeps r' ↔ r = r') ∧ ∀ r', ¬ moved.Claims r' := by
  cases result with
  | delivered => exact ⟨.forwarded xid r, rfl, hxid, fun _ => Iff.rfl, fun _ => id⟩
  | notARequest => exact ⟨.unsent r (some 499), rfl, trivial, fun _ => Iff.rfl, fun _ => id⟩
  | runtimeException => exact ⟨.unsent r none, rfl, trivial, fun _ => Iff.rfl, fun _ => id⟩

/-- The forwarded reply of `Post` keeps the `ForwardInvariant`: nobody has forwarded to a request that is only
claimed. -/
theorem ForwardInvariant.postForward {xid : MsgId} {result : ReplyResult}
    (hi : ForwardInvariant s) (hcall : s.calls c = .forwarding xid r) :
    ForwardInvariant (s.afterPostForward c xid r result) := by
  have hxid : xid = r.msgId := by simpa [hcall, Call.Keyed] using hi.keyed c
  have hclaim : (s.calls c).Holds r := by simp [hcall, Call.Holds, Call.Claims]
  have hnotkept : ∀ r', ¬ (s.calls c).Keeps r' := by simp [hcall, Call.Keeps]
  have hstored := hi.held c r hclaim
  obtain ⟨moved, hcalls, hkeyed, hkeeps, hclaims⟩ :=
    exists_calls_afterPostForward (s := s) (c := c) result hxid
  have hholds : ∀ c' r', (Function.update s.calls c moved c').Holds r' → (s.calls c').Holds r' := by
    intro c' r' hh
    rcases holds_update.mp hh with ⟨rfl, hm⟩ | ⟨-, hold⟩
    · have hr : r = r' := by
        rcases hm with hm | hm
        · exact absurd hm (hclaims r')
        · exact (hkeeps r').mp hm
      exact hr ▸ hclaim
    · exact hold
  -- An earlier entry for `r` would be kept by another holder of `r`, or `r` would be gone.
  have hfresh : r ∉ s.forwards.map Prod.snd := by
    intro hmem
    obtain ⟨e, he, rfl⟩ := List.mem_map.mp hmem
    rcases hi.past e he with hkeep | hgone
    · have hsame : e.1 = c := hi.unique e.1 c e.2 (Or.inr hkeep) hclaim
      exact hnotkept e.2 (hsame ▸ hkeep)
    · exact hgone _ hstored
  refine ⟨hi.stored, fun c' => hcalls ▸ keyed_update hi.keyed hkeyed c',
    fun c' r' hh => hi.held c' r' (hholds c' r' (hcalls ▸ hh)),
    fun c₁ c₂ r' h₁ h₂ => hi.unique c₁ c₂ r' (hholds c₁ r' (hcalls ▸ h₁)) (hholds c₂ r' (hcalls ▸ h₂)),
    fun c' r' hk => ?_, fun e he => ?_, fun e he => ?_, ?_⟩
  · refine List.mem_append.mpr ?_
    -- The moved call keeps `r`, for which the new entry stands; the others keep what they kept.
    rw [hcalls] at hk
    by_cases hc : c' = c
    · subst hc
      rw [Function.update_self] at hk
      exact Or.inr (by simp [(hkeeps r').mp hk])
    · rw [Function.update_of_ne hc] at hk
      exact Or.inl (hi.logged c' r' hk)
  · rw [hcalls]
    rcases List.mem_append.mp he with he | he
    · refine (hi.past e he).imp_left fun hkeep => keeps_update_of_ne (fun heq => ?_) hkeep
      exact hnotkept e.2 (heq ▸ hkeep)
    · obtain rfl := List.mem_singleton.mp he
      exact Or.inl (by rw [Function.update_self]; exact (hkeeps r).mpr rfl)
  · rcases List.mem_append.mp he with he | he
    · exact hi.known e he
    · obtain rfl := List.mem_singleton.mp he
      exact (hi.stored _ r hstored).2
  · simp only [State.afterPostForward, List.map_append, List.map_cons, List.map_nil]
    rw [← List.concat_eq_append]
    exact hi.nodup.concat hfresh

/-- The second section of `Post` keeps the `ForwardInvariant`: the request is gone under every id. -/
theorem ForwardInvariant.postErase {xid : MsgId} (hi : ForwardInvariant s)
    (hcall : s.calls c = .forwarded xid r) : ForwardInvariant (s.afterPostErase c xid) := by
  have hxid : xid = r.msgId := by simpa [hcall, Call.Keyed] using hi.keyed c
  have hkeep : (s.calls c).Keeps r := by simp [hcall, Call.Keeps]
  have hstored := hi.held c r (Or.inr hkeep)
  have hfind : ∀ x r', (s.afterPostErase c xid).handler.mqMessages.find x = some r' ↔
      x ≠ xid ∧ s.handler.mqMessages.find x = some r' := fun x r' =>
    UnorderedMap.find_erase_eq_some
  have hholds : ∀ c' r', ((s.afterPostErase c xid).calls c').Holds r' →
      c' ≠ c ∧ (s.calls c').Holds r' := by
    intro c' r' hh
    rcases holds_update.mp hh with ⟨-, hm⟩ | hold
    · simp [Call.Holds, Call.Claims, Call.Keeps] at hm
    · exact hold
  refine ⟨fun x r' hx => hi.stored x r' ((hfind x r').mp hx).2,
    keyed_update hi.keyed trivial, fun c' r' hh => ?_,
    fun c₁ c₂ r' h₁ h₂ => hi.unique c₁ c₂ r' (hholds c₁ r' h₁).2 (hholds c₂ r' h₂).2,
    fun c' r' hk => hi.logged c' r' (keeps_of_keeps_update (fun _ => id) hk).2,
    fun e he => ?_, hi.known, hi.nodup⟩
  -- Another holder of a request under `xid` would hold `r` itself.
  · obtain ⟨hne, hold⟩ := hholds c' r' hh
    have hr' := hi.held c' r' hold
    refine (hfind _ r').mpr ⟨fun heq => hne ?_, hr'⟩
    have hsame : r' = r := by
      rw [heq, hxid, hstored] at hr'
      exact (Option.some.inj hr').symm
    exact hi.unique c' c r (hsame ▸ hold) (Or.inr hkeep)
  · by_cases hc : e.1 = c
    · -- The call's own request is stored under `xid` only, and that entry is erased.
      refine Or.inr fun x hx => ?_
      obtain ⟨hne, hx⟩ := (hfind x e.2).mp hx
      rcases hi.past e he with hk | hgone
      · have hr : r = e.2 := by simpa [hc, hcall, Call.Keeps] using hk
        exact hne ((hi.stored x e.2 hx).1.trans (hr ▸ hxid.symm))
      · exact hgone x hx
    · exact (hi.past e he).imp (keeps_update_of_ne hc) fun hgone x hx => hgone x ((hfind x e.2).mp hx).2

/-- Every step in which no `Post` finds a held request keeps the `ForwardInvariant`. -/
theorem ForwardInvariant.preserved (hi : ForwardInvariant s) (ha : FindsUnheld s a)
    (hs : step limitSize s a = some s') : ForwardInvariant s' := by
  cases a with
  | put c id =>
      obtain ⟨hidle, rfl⟩ := step_put_eq_some.mp hs
      exact hi.put hidle
  | get c =>
      obtain ⟨hidle, rfl⟩ := step_get_eq_some.mp hs
      exact hi.get hidle
  | getReply c result =>
      obtain ⟨⟨muid, xrequest, hcall⟩, rfl⟩ := step_getReply_eq_some.mp hs
      exact hi.getReply hcall
  | postLookup c xid =>
      obtain ⟨hidle, rfl⟩ := step_postLookup_eq_some.mp hs
      exact hi.postLookup hidle ha
  | postForward c result =>
      obtain ⟨xid, xrequest, hcall, rfl⟩ := step_postForward_eq_some.mp hs
      exact hi.postForward hcall
  | postErase c =>
      obtain ⟨xid, xrequest, hcall, rfl⟩ := step_postErase_eq_some.mp hs
      exact hi.postErase hcall

/-- Runs in which no `Post` finds a held request keep the `ForwardInvariant`. -/
theorem forwardInvariant_of_reachable (h : (machine limitSize).ReachableUnder FindsUnheld s) :
    ForwardInvariant s :=
  h.invariant ForwardInvariant.init fun _ _ _ hi ha hs => hi.preserved ha hs

/-- A `Post` that has found a request to which somebody has forwarded can forward to it again. -/
theorem exists_forward_again (limitSize : ℕ) {xid : MsgId} (hcall : s.calls c = .forwarding xid r)
    (hmem : r ∈ s.forwards.map Prod.snd) :
    ∃ s', step limitSize s (.postForward c .delivered) = some s' ∧
      ¬ (s'.forwards.map Prod.snd).Nodup := by
  refine ⟨_, step_postForward_eq_some.mpr ⟨xid, r, hcall, rfl⟩, fun hnodup => ?_⟩
  simp only [State.afterPostForward, List.map_append, List.map_cons, List.map_nil] at hnodup
  exact (List.nodup_append.mp hnodup).2.2 r hmem r (List.mem_singleton_self r) rfl

/-- A `Post` that finds a held request leads to a second reply on that request's connection. -/
theorem ForwardInvariant.exists_second_forward (hi : ForwardInvariant s)
    (hs : step limitSize s a = some s') (ha : ¬ FindsUnheld s a) :
    ∃ as s'', (machine limitSize).exec s' as = some s'' ∧ ¬ (s''.forwards.map Prod.snd).Nodup := by
  cases a with
  | postLookup c xid =>
      obtain ⟨hidle, rfl⟩ := step_postLookup_eq_some.mp hs
      simp only [FindsUnheld, not_forall, not_not] at ha
      obtain ⟨r, hfind, c', hholds⟩ := ha
      have hcalls : (s.afterPostLookup c xid).calls
          = Function.update s.calls c (.forwarding xid r) := by
        simp [State.afterPostLookup, hfind]
      have hcc : c' ≠ c := fun heq => not_holds_of_idle hidle r (heq ▸ hholds)
      have hcall : (s.afterPostLookup c xid).calls c = .forwarding xid r := by
        rw [hcalls, Function.update_self]
      rcases hholds with hclaim | hkeep
      · -- The other call has not forwarded yet: let it, and then this one.
        obtain ⟨xid', hcall'⟩ : ∃ xid', s.calls c' = .forwarding xid' r := by
          cases hc' : s.calls c' <;> simp_all [Call.Claims]
        have hother : (s.afterPostLookup c xid).calls c' = .forwarding xid' r := by
          rw [hcalls, Function.update_of_ne hcc, hcall']
        set s₁ := (s.afterPostLookup c xid).afterPostForward c' xid' r .delivered with hs₁
        have hfirst : step limitSize (s.afterPostLookup c xid) (.postForward c' .delivered) = some s₁ :=
          step_postForward_eq_some.mpr ⟨xid', r, hother, rfl⟩
        have hcall₁ : s₁.calls c = .forwarding xid r := by
          rw [hs₁, State.afterPostForward, ← hcall]
          exact Function.update_of_ne hcc.symm _ _
        obtain ⟨s₂, hs₂, hdup⟩ := exists_forward_again limitSize hcall₁
          (by simp [hs₁, State.afterPostForward])
        exact ⟨[.postForward c' .delivered, .postForward c .delivered], s₂,
          by simp [Machine.exec, machine, hfirst, hs₂], hdup⟩
      -- The other call has forwarded already: the reply of this one is the second.
      · have hlog : r ∈ (s.afterPostLookup c xid).forwards.map Prod.snd :=
          List.mem_map.mpr ⟨(c', r), hi.logged c' r hkeep, rfl⟩
        obtain ⟨s₂, hs₂, hdup⟩ := exists_forward_again limitSize hcall hlog
        exact ⟨[.postForward c .delivered], s₂, by simp [Machine.exec, machine, hs₂], hdup⟩
  | put _ _ | get _ | getReply _ _ | postForward _ _ | postErase _ => exact absurd trivial ha

/-- In runs in which no `Post` finds a request that another call has found and not erased, every
request is forwarded to at most once, and a `Post` that finds nothing answers 300. The condition is
exact: a `Post` that finds such a request leads to a second reply on its connection. -/
theorem forwards_nodup_of_reachable (h : (machine limitSize).ReachableUnder FindsUnheld s) :
    (s.forwards.map Prod.snd).Nodup ∧
      (∀ c xid s', step limitSize s (.postLookup c xid) = some s' →
        (∀ r, s'.calls c ≠ .forwarding xid r) → s'.calls c = .answering 300) ∧
      ∀ a s', step limitSize s a = some s' → ¬ FindsUnheld s a →
        ∃ as s'', (machine limitSize).exec s' as = some s'' ∧
          ¬ (s''.forwards.map Prod.snd).Nodup := by
  have hi := forwardInvariant_of_reachable h
  refine ⟨hi.nodup, fun c xid s' hs hnot => ?_, fun a s' hs ha => hi.exists_second_forward hs ha⟩
  obtain ⟨-, rfl⟩ := step_postLookup_eq_some.mp hs
  cases hfind : s.handler.postLookupSection xid with
  | none => simp [State.afterPostLookup, hfind]
  | some r => exact absurd (by simp [State.afterPostLookup, hfind]) (hnot r)

/-- Of two `Post` calls with one id, one after the other, the second finds nothing and answers 300. -/
theorem forwards_nodup_of_reachable_twice :
    ∃ s, (machine 0).exec State.init [.put 0 7, .postLookup 1 7, .postForward 1 .delivered,
        .postErase 1, .postLookup 2 7] = some s ∧
      (s.forwards.map Prod.snd).Nodup := by
  have hmeets : (machine 0).Meets FindsUnheld (machine 0).init
      [.put 0 7, .postLookup 1 7, .postForward 1 .delivered, .postErase 1, .postLookup 2 7] := by
    refine ⟨trivial, fun s₁ h₁ => ?_⟩
    obtain rfl := Option.some.inj h₁
    refine ⟨fun r hr c hh => ?_, fun s₂ h₂ => ⟨trivial, fun s₃ h₃ => ⟨trivial, fun s₄ h₄ => ?_⟩⟩⟩
    · rcases holds_update.mp hh with ⟨-, hstored⟩ | ⟨-, hidle⟩
      · exact hstored.elim id id
      · exact hidle.elim id id
    · obtain rfl := Option.some.inj h₂
      obtain rfl := Option.some.inj h₃
      obtain rfl := Option.some.inj h₄
      exact ⟨fun r hr => absurd (show none = some r from hr) (by simp), fun _ _ => trivial⟩
  exact ⟨_, rfl, (forwards_nodup_of_reachable (Machine.ReachableUnder.init.exec _ hmeets rfl)).1⟩

/-- When two `Post` calls with one id both look the message up before either erases it, the client behind the message
is sent two replies. -/
theorem not_forwards_nodup_of_overlap :
    ¬ ∀ s, (machine 0).Reachable s → (s.forwards.map Prod.snd).Nodup := by
  intro hclaim
  have hr := (Machine.ReachableUnder.init (M := machine 0) (G := fun _ _ => True)).exec
    [.put 0 7, .postLookup 1 7, .postLookup 2 7, .postForward 1 .delivered,
      .postForward 2 .delivered] (by decide) rfl
  exact absurd (hclaim _ hr) (by decide)

end SyncQueue

end NavekFiber
