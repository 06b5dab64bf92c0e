import NavekFiber.Mq.SyncQueuePost

/-! # The id in `X-MSG-FORWARD-UID`

`Get` sends the id of a message out with `std::to_string`, `Post` reads it with `std::stoul`, which takes
more texts than that: it looks at the beginning of a text only, takes a sign, and takes a negative number
modulo `2 ^ 64`. A text that is no id completes a message when it begins with the number of one
(`completesExactly_iff`). -/

namespace NavekFiber

open Utils Proto

namespace SyncQueueHandler

variable {ctx : PostContext} {world : World} {worker xrequest : IRequest} {xid : MsgId} {conn : ℕ}

/-! ### What a `Post` says to whom -/

/-- An answer of `Post` to its worker does nothing to the requests of others. -/
theorem requests_answer_of_ne (code : ℕ) (message : List UInt8) (hconn : conn ≠ worker.conn) :
    (answer ctx world worker code message).2.requests conn = world.requests conn := by
  rw [answer, World.replyWithCode]
  generalize replyWithCode (ctx.env worker.conn) ctx.answer (world.requests worker.conn)
    (answerCall ctx code message) = out
  obtain ⟨result, self⟩ := out
  cases result <;> exact Function.update_of_ne hconn _ _

/-- The forwarded reply goes to the client of the message, with the code 200. -/
theorem replyCodes_forward (conn : ℕ) :
    replyCodes ((forward ctx (asked world worker) worker xrequest).2.requests conn) =
      replyCodes (world.requests conn) ++
        if conn = xrequest.conn ∧ ctx.forward.isRequest = true then [200] else [] := by
  have hforwarding : replyCodes ((forwarding ctx (asked world worker) xrequest).requests conn) =
      replyCodes (world.requests conn) := replyCodes_forwarding conn
  rw [← hforwarding, forward, World.replyWithCode, replyWithCode]
  by_cases hconn : conn = xrequest.conn
  · subst hconn
    cases hrequest : ctx.forward.isRequest with
    | false => simp [World.setRequest]
    | true =>
        simp only [if_true, World.setRequest, Function.update_self, and_self]
        exact replyCodes_reply _ _ _
  · cases hrequest : ctx.forward.isRequest <;> simp [World.setRequest, hconn]

/-- Forwarding throws a `RuntimeException` if anything, which is not for the `catch`. -/
theorem postCatch_answerForwarded :
    postCatch ctx worker
        (answerForwarded ctx worker xid (forward ctx (asked world worker) worker xrequest)) =
      answerForwarded ctx worker xid (forward ctx (asked world worker) worker xrequest) := by
  cases hrequest : ctx.forward.isRequest with
  | false => rw [forward_of_notRequest hrequest, answerForwarded, postCatch_answer]
  | true =>
      have hfst : (forward ctx (asked world worker) worker xrequest).1 = .ok true ∨ _ :=
        fst_forward_of_isRequest hrequest
      generalize forward ctx (asked world worker) worker xrequest = forwarded at hfst ⊢
      obtain ⟨result, left⟩ := forwarded
      rcases hfst with rfl | ⟨what, rfl⟩
      · rw [answerForwarded, postCatch_answer]
      · rfl

/-- Who gets which replies when a message is completed: nobody but its client and the worker, and no code
but 200 and 499. -/
theorem replyCodes_answerForwarded (ctx : PostContext) (worker : IRequest) (xid : MsgId) (conn : ℕ)
    (forwarded : Except Exn Bool × World) :
    ∃ codes, replyCodes ((answerForwarded ctx worker xid forwarded).2.requests conn) =
        replyCodes (forwarded.2.requests conn) ++ codes ∧
      (∀ code ∈ codes, code = 200 ∨ code = 499) ∧ (conn ≠ worker.conn → codes = []) := by
  obtain ⟨result, left⟩ := forwarded
  have hanswer : ∀ (left : World) (code : ℕ) (message : List UInt8), code = 200 ∨ code = 499 →
      ∃ codes, replyCodes ((answer ctx left worker code message).2.requests conn) =
          replyCodes (left.requests conn) ++ codes ∧
        (∀ code ∈ codes, code = 200 ∨ code = 499) ∧ (conn ≠ worker.conn → codes = []) := by
    intro left code message hcode
    by_cases hconn : conn = worker.conn
    · subst hconn
      refine ⟨_, replyCodes_answer code message, fun code' hmem => ?_, fun h => absurd rfl h⟩
      split at hmem
      · rwa [List.mem_singleton.mp hmem]
      · cases hmem
    · exact ⟨[], by rw [requests_answer_of_ne code message hconn, List.append_nil], by simp, fun _ => rfl⟩
  rcases result with exn | sent
  · exact ⟨[], (List.append_nil _).symm, by simp, fun _ => rfl⟩
  · cases sent with
    | true => exact hanswer { left with handler := left.handler.postEraseSection xid } 200 _ (Or.inl rfl)
    | false => exact hanswer left 499 _ (Or.inr rfl)

/-! ### Which texts complete which message -/

/-- A text, without the white space around it, is what `Get` has sent out for the message. -/
def Renders (text : List UInt8) (xid : MsgId) : Prop := trim text = numberText xid.toNat

instance (text : List UInt8) (xid : MsgId) : Decidable (Renders text xid) :=
  inferInstanceAs (Decidable (_ = _))

/-- `Post` answers the worker with this code, and does nothing else. -/
structure Refuses (ctx : PostContext) (world : World) (worker : IRequest) (code : ℕ) : Prop where
  /-- The worker gets one answer. -/
  answered : replyCodes ((post ctx world worker).2.requests worker.conn) =
    replyCodes (world.requests worker.conn) ++ [code]
  /-- Nobody else does. -/
  others : ∀ conn ≠ worker.conn,
    replyCodes ((post ctx world worker).2.requests conn) = replyCodes (world.requests conn)
  /-- Nothing changes. -/
  unchanged : (post ctx world worker).2.handler = world.handler

/-- `Post` completes a message for the text that has been sent out for it only. -/
structure CompletesExactly (ctx : PostContext) (world : World) (worker : IRequest) : Prop where
  /-- A client gets a reply when the text is that of its message. -/
  replies : ∀ conn ≠ worker.conn,
    replyCodes ((post ctx world worker).2.requests conn) ≠ replyCodes (world.requests conn) →
      ∃ xid xrequest, world.handler.mqMessages.find xid = some xrequest ∧ xrequest.conn = conn ∧
        Renders (forwardUid world worker).1 xid
  /-- A message is removed when the text is its own, unless other calls have removed it. -/
  removes : ∀ xid, (world.handler.mqMessages.find xid).isSome →
    ((ctx.others world.handler).mqMessages.find xid).isSome →
      (post ctx world worker).2.handler.mqMessages.find xid = none →
        Renders (forwardUid world worker).1 xid
  /-- Every other text is refused. -/
  refuses : (∀ xid, (world.handler.mqMessages.find xid).isSome → ¬ Renders (forwardUid world worker).1 xid) →
    Refuses ctx world worker 400 ∨ Refuses ctx world worker 300

/-- When its request names no stored message, `Post` answers its worker 400 or 300 and does nothing else. -/
theorem post_of_not_names (ctx : PostContext) (hnames : ∀ xid xrequest, ¬ Names world worker xid xrequest) :
    ∃ code message, (code = 400 ∨ code = 300) ∧
      post ctx world worker = answer ctx (asked world worker) worker code message := by
  by_cases hnil : (forwardUid world worker).1 = []
  · refine ⟨400, bytes "Bad Request. Header `X-MSG-FORWARD-UID` not found", Or.inl rfl, ?_⟩
    rw [post]
    exact if_neg (not_not.mpr hnil)
  · rw [post]
    simp only [if_pos hnil]
    rw [postTry]
    cases hstoul : stoul (forwardUid world worker).1 with
    | error exn =>
        -- What `stoul` throws is for the `catch`.
        obtain ⟨what, rfl⟩ := exists_eq_of_stoul_eq_error hstoul
        exact ⟨400, _, Or.inl rfl, rfl⟩
    | ok xid =>
        have hlookup : (asked world worker).handler.postLookupSection xid = none := by
          cases hfind : world.handler.mqMessages.find xid with
          | none => exact hfind
          | some xrequest => exact absurd ⟨hstoul, hfind⟩ (hnames xid xrequest)
        refine ⟨300, bytes "Multiple Replays. Reply Ignored.", Or.inr rfl, ?_⟩
        simp only [hlookup]
        exact postCatch_answer 300 _

/-- When its request names no stored message, `Post` refuses the worker with 400 or 300. -/
theorem refuses_of_not_names (hrequest : ctx.answer.isRequest = true)
    (hnames : ∀ xid xrequest, ¬ Names world worker xid xrequest) :
    Refuses ctx world worker 400 ∨ Refuses ctx world worker 300 := by
  obtain ⟨code, message, hcode, hpost⟩ := post_of_not_names ctx hnames
  have hrefuses : Refuses ctx world worker code := by
    refine ⟨?_, fun conn hconn => ?_, ?_⟩
    · rw [hpost, replyCodes_answer, if_pos hrequest, replyCodes_asked]
    · rw [hpost, requests_answer_of_ne code message hconn, replyCodes_asked]
    · rw [hpost, handler_answer]
      rfl
  rcases hcode with rfl | rfl
  · exact Or.inl hrefuses
  · exact Or.inr hrefuses

/-- When its request names a stored message, `Post` refuses the worker neither with 400 nor with 300: the worker gets
other codes. -/
theorem not_refuses_of_names {code : ℕ} (hnames : Names world worker xid xrequest)
    (hcode : code = 400 ∨ code = 300) : ¬ Refuses ctx world worker code := by
  intro h
  have hanswered := h.answered
  rw [post_of_names hnames, postCatch_answerForwarded] at hanswered
  obtain ⟨codes, heq, hcodes, -⟩ := replyCodes_answerForwarded ctx worker xid worker.conn
    (forward ctx (asked world worker) worker xrequest)
  rw [heq, replyCodes_forward, List.append_assoc] at hanswered
  have hmem : code ∈ (if worker.conn = xrequest.conn ∧ ctx.forward.isRequest = true then [200] else []) ++
      codes := by
    rw [List.append_cancel_left hanswered]
    exact List.mem_singleton_self code
  rcases List.mem_append.mp hmem with hmem | hmem
  · split at hmem
    · rw [List.mem_singleton] at hmem
      omega
    · cases hmem
  · have := hcodes code hmem
    omega

/-- A text that is read as an id, and is not the one sent out for it, `Renders` no other message either. -/
theorem not_renders_of_stoul (hstoul : stoul (forwardUid world worker).1 = .ok xid)
    (hother : ¬ Renders (forwardUid world worker).1 xid) (xid' : MsgId) :
    ¬ Renders (forwardUid world worker).1 xid' := by
  intro hrenders
  have heq : xid' = xid := Except.ok.inj ((stoul_of_trim hrenders).symm.trans hstoul)
  exact hother (heq ▸ hrenders)

/-- `Post` with the text that has been sent out for a stored message `CompletesExactly`. -/
theorem completesExactly_of_names (hnames : Names world worker xid xrequest)
    (hrenders : Renders (forwardUid world worker).1 xid) : CompletesExactly ctx world worker := by
  have hpost : post ctx world worker = _ := post_of_names hnames
  rw [postCatch_answerForwarded] at hpost
  refine ⟨fun conn hconn hreplied => ?_, fun xid' _ hkept hremoved => ?_, fun hnone => ?_⟩
  · -- Only the client of the message gets a reply.
    refine ⟨xid, xrequest, hnames.2, ?_, hrenders⟩
    by_contra hne
    obtain ⟨codes, heq, -, hcodes⟩ := replyCodes_answerForwarded ctx worker xid conn
      (forward ctx (asked world worker) worker xrequest)
    rw [hpost, heq, hcodes hconn, replyCodes_forward, if_neg fun hand => hne hand.1.symm] at hreplied
    simp at hreplied
  · -- No other message is removed.
    by_contra hother
    have hne : xid' ≠ xid := fun heq => hother (heq ▸ hrenders)
    rw [hpost, handler_answerForwarded] at hremoved
    split at hremoved
    · obtain ⟨kept, hkept⟩ := Option.isSome_iff_exists.mp hkept
      have hfound : (((ctx.others world.handler).postEraseSection xid).mqMessages).find xid' = some kept :=
        UnorderedMap.find_erase_eq_some.mpr ⟨hne, hkept⟩
      exact absurd (hfound.symm.trans hremoved) (by simp)
    · have hsame : (ctx.others world.handler).mqMessages.find xid' = none := hremoved
      rw [hsame] at hkept
      cases hkept
  · exact absurd hrenders (hnone xid (Option.isSome_iff_exists.mpr ⟨xrequest, hnames.2⟩))

/-- `Post` with a text that is not read as the id of a stored message `CompletesExactly`: it refuses. -/
theorem completesExactly_of_not_names (hrequest : ctx.answer.isRequest = true)
    (hnames : ∀ xid xrequest, ¬ Names world worker xid xrequest) : CompletesExactly ctx world worker := by
  have hrefuses := refuses_of_not_names hrequest hnames
  obtain ⟨code, hcode⟩ : ∃ code, Refuses ctx world worker code :=
    hrefuses.elim (⟨400, ·⟩) (⟨300, ·⟩)
  refine ⟨fun conn hconn hreplied => absurd (hcode.others conn hconn) hreplied,
    fun xid hstored _ hremoved => ?_, fun _ => hrefuses⟩
  rw [hcode.unchanged] at hremoved
  rw [hremoved] at hstored
  cases hstored

/-- `Post`, which has found that the worker's object is a request, completes messages for the texts sent out
for them exactly when no other text is read as the id of a stored message. -/
theorem completesExactly_iff (hrequest : ctx.answer.isRequest = true) :
    CompletesExactly ctx world worker ↔ ∀ xid, stoul (forwardUid world worker).1 = .ok xid →
      (world.handler.mqMessages.find xid).isSome → Renders (forwardUid world worker).1 xid := by
  constructor
  · intro h xid hstoul hstored
    obtain ⟨xrequest, hfind⟩ := Option.isSome_iff_exists.mp hstored
    have hnames : Names world worker xid xrequest := ⟨hstoul, hfind⟩
    by_contra hother
    rcases h.refuses fun xid' _ => not_renders_of_stoul hstoul hother xid' with hrefuses | hrefuses
    · exact not_refuses_of_names hnames (Or.inl rfl) hrefuses
    · exact not_refuses_of_names hnames (Or.inr rfl) hrefuses
  · intro hexact
    by_cases hnames : ∃ xid xrequest, Names world worker xid xrequest
    · obtain ⟨xid, xrequest, hnames⟩ := hnames
      exact completesExactly_of_names hnames
        (hexact xid hnames.1 (Option.isSome_iff_exists.mpr ⟨xrequest, hnames.2⟩))
    · exact completesExactly_of_not_names hrequest fun xid xrequest h => hnames ⟨xid, xrequest, h⟩

/-- The worker of `waitingWorld` names the message with its own id, and `Post` completes it. -/
theorem completesExactly_iff_posted : CompletesExactly (sending 315 true) waitingWorld ⟨1, 8⟩ := by
  refine (completesExactly_iff rfl).mpr fun xid hstoul _ => ?_
  have hseven : stoul (forwardUid waitingWorld ⟨1, 8⟩).1 = .ok 7 := by decide +kernel
  obtain rfl : 7 = xid := Except.ok.inj (hseven.symm.trans hstoul)
  decide +kernel

/-- A worker that names no message: its text goes on behind the number 7. -/
def strangerWorld : World := ⟨waiting, fun conn => if conn = 0 then parsed typed else parsed (received
  (bytes "POST /q HTTP/1.1\r\nX-MSG-FORWARD-UID: 7x\r\nB: c\r\n\r\n"))⟩

/-- For the worker of `strangerWorld`, who names no message, `Post` completes the message 7. -/
theorem not_completesExactly_of_stranger :
    ¬ ∀ (limitSize : ℕ) (s : SyncQueue.State), (SyncQueue.machine limitSize).Reachable s →
      ∀ (ctx : PostContext) (world : World) (worker : IRequest), world.handler = s.handler →
        ctx.answer.isRequest = true → CompletesExactly ctx world worker := by
  intro h
  have hreachable : (SyncQueue.machine 0).Reachable (SyncQueue.State.init.afterPut 0 0 7) :=
    Machine.ReachableUnder.init.step (a := .put 0 7) trivial rfl
  have hexact := h 0 _ hreachable (sending 315 true) strangerWorld ⟨1, 8⟩ rfl rfl
  have hnames : Names strangerWorld ⟨1, 8⟩ 7 ⟨0, 7⟩ := ⟨by decide +kernel, by decide +kernel⟩
  have hother : ¬ Renders (forwardUid strangerWorld ⟨1, 8⟩).1 7 := by decide +kernel
  rcases hexact.refuses fun xid _ => not_renders_of_stoul hnames.1 hother xid with hrefuses | hrefuses
  · exact not_refuses_of_names hnames (Or.inl rfl) hrefuses
  · exact not_refuses_of_names hnames (Or.inr rfl) hrefuses

end SyncQueueHandler

end NavekFiber
