import Mathlib.Data.Nat.Bitwise
import NavekFiber.Mq.SyncQueue
import NavekFiber.Net.Server

/-! # Message ids

`getMsgId` has the seconds in the high half of an id and a counter of 64 bits in the low one, with nothing
to keep the counter out of the high half. The low half alone tells the ids of `2 ^ 32` calls apart, whatever
the clock does; while the counter stays in the low half and the clock goes forward, the ids go up
(`msgIds_sound`). A call of `Listen` gives out its ids that way (`listen_issues`). -/

namespace NavekFiber

open Proto

/-- The ids of calls of `getMsgId` at these times, and the counter afterwards. -/
def msgIds : List UInt64 → UInt64 → List MsgId × UInt64
  | [], counter => ([], counter)
  | time :: times, counter =>
      let (id, counter) := getMsgId time counter
      let (ids, counter) := msgIds times counter
      (id :: ids, counter)

namespace SyncQueueHandler

/-- `Head` in its section: the id at the front of the queue, or zero. -/
def headSection (h : SyncQueueHandler) : MsgId := h.mqQueue.headD 0

/-- The code that `Head` replies with. -/
def headCode (h : SyncQueueHandler) : ℕ := if h.headSection ≠ 0 then 200 else 204

/-- When no message has the id zero, `Head` replies 204 exactly when the queue is empty. -/
theorem headCode_eq_iff {h : SyncQueueHandler} (hzero : ∀ id ∈ h.mqQueue, id ≠ 0) :
    h.headCode = 204 ↔ h.mqQueue = [] := by
  unfold headCode headSection
  cases hqueue : h.mqQueue with
  | nil => simp
  | cons front rest =>
      have hfront : front ≠ 0 := hzero front (hqueue ▸ List.mem_cons_self)
      simp [hfront]

end SyncQueueHandler

variable {times times' : List UInt64} {time counter : UInt64} {i j : ℕ}

/-! ### The ids of a run -/

@[simp] theorem msgIds_nil (counter : UInt64) : msgIds [] counter = ([], counter) := rfl

@[simp] theorem msgIds_cons (time : UInt64) (times : List UInt64) (counter : UInt64) :
    msgIds (time :: times) counter =
      ((time <<< 32 ||| counter) :: (msgIds times (counter + 1)).1, (msgIds times (counter + 1)).2) := rfl

/-- The ids of two runs of calls are those of the first and, from the counter it has left, those of the second. -/
theorem msgIds_append (times times' : List UInt64) (counter : UInt64) :
    msgIds (times ++ times') counter =
      ((msgIds times counter).1 ++ (msgIds times' (msgIds times counter).2).1,
        (msgIds times' (msgIds times counter).2).2) := by
  induction times generalizing counter with
  | nil => rfl
  | cons time times ih => simp [ih]

/-- Each id of a run of calls has the time of its call and the counter of its call. -/
theorem msgIds_eq_mapIdx (times : List UInt64) (counter : UInt64) :
    (msgIds times counter).1 =
      times.mapIdx fun i (time : UInt64) => time <<< 32 ||| (counter + UInt64.ofNat i) := by
  induction times generalizing counter with
  | nil => rfl
  | cons time times ih =>
      have hnext : ∀ i : ℕ, counter + 1 + UInt64.ofNat i = counter + UInt64.ofNat (i + 1) := by
        intro i
        rw [UInt64.ofNat_add, add_assoc, add_comm (UInt64.ofNat i)]
        rfl
      rw [msgIds_cons, List.mapIdx_cons, ih, show UInt64.ofNat 0 = 0 from rfl, add_zero]
      simp only [hnext]

/-- The low half of an id is that of the counter. -/
theorem toNat_id_mod (time counter : UInt64) :
    (time <<< 32 ||| counter).toNat % 2 ^ 32 = counter.toNat % 2 ^ 32 := by
  have hshift : (time <<< 32).toNat % 2 ^ 32 = 0 := by
    rw [UInt64.toNat_shiftLeft, show (32 : UInt64).toNat % 64 = 32 from rfl, Nat.shiftLeft_eq]
    omega
  rw [UInt64.toNat_or, Nat.or_mod_two_pow, hshift, Nat.zero_or]

/-- When time and counter fit into their halves, an id is the time and behind it the counter. -/
theorem toNat_id (htime : time.toNat < 2 ^ 32) (hcounter : counter.toNat < 2 ^ 32) :
    (time <<< 32 ||| counter).toNat = time.toNat * 2 ^ 32 + counter.toNat := by
  have hshift : (time <<< 32).toNat = time.toNat <<< 32 := by
    rw [UInt64.toNat_shiftLeft, show (32 : UInt64).toNat % 64 = 32 from rfl, Nat.mod_eq_of_lt]
    rw [Nat.shiftLeft_eq]
    omega
  rw [UInt64.toNat_or, hshift, ← Nat.shiftLeft_add_eq_or_of_lt hcounter, Nat.shiftLeft_eq]

/-- The ids of two calls are different when fewer than `2 ^ 32` calls are between them. -/
theorem id_ne (time time' counter : UInt64) (hlt : i < j) (hnear : j - i < 2 ^ 32) :
    time <<< 32 ||| (counter + UInt64.ofNat i) ≠ time' <<< 32 ||| (counter + UInt64.ofNat j) := by
  intro heq
  have hmod := congrArg (fun id : UInt64 => id.toNat % 2 ^ 32) heq
  simp only [toNat_id_mod, UInt64.toNat_add, UInt64.toNat_ofNat'] at hmod
  omega

/-- The ids of `2 ^ 32` calls in a row are different. -/
theorem nodup_msgIds (times : List UInt64) (counter : UInt64) (k : ℕ) :
    (((msgIds times counter).1.drop k).take (2 ^ 32)).Nodup := by
  rw [List.Nodup, List.pairwise_iff_getElem]
  intro i j hi hj hlt
  have hnear : j < 2 ^ 32 := hj.trans_le (List.length_take_le _ _)
  simp only [msgIds_eq_mapIdx, List.getElem_take, List.getElem_drop, List.getElem_mapIdx]
  apply id_ne <;> omega

/-- While the counter stays in its half, an id is the time of its call and behind it the number of the call. -/
theorem toNat_id_of_few (hbelow : ∀ time ∈ times, time.toNat < 2 ^ 32) (hfew : times.length ≤ 2 ^ 32)
    (hi : i < times.length) :
    (times[i] <<< 32 ||| (0 + UInt64.ofNat i)).toNat = times[i].toNat * 2 ^ 32 + i := by
  have hcounter : (0 + UInt64.ofNat i).toNat = i := by
    rw [zero_add, UInt64.toNat_ofNat_of_lt' (hi.trans_le (hfew.trans (by decide)))]
  rw [toNat_id (hbelow _ (List.getElem_mem hi)) (by omega), hcounter]

/-- While the counter stays in its half and the clock goes forward, the ids go up. -/
theorem increasing_msgIds (hbelow : ∀ time ∈ times, time.toNat < 2 ^ 32) (hforward : times.Pairwise (· ≤ ·))
    (hfew : times.length ≤ 2 ^ 32) : (msgIds times 0).1.Pairwise (· < ·) := by
  rw [msgIds_eq_mapIdx, List.pairwise_iff_getElem]
  intro i j hi hj hlt
  rw [List.length_mapIdx] at hi hj
  have hle := UInt64.le_iff_toNat_le.mp (List.pairwise_iff_getElem.mp hforward i j hi hj hlt)
  rw [List.getElem_mapIdx, List.getElem_mapIdx, UInt64.lt_iff_toNat_lt, toNat_id_of_few hbelow hfew hi,
    toNat_id_of_few hbelow hfew hj]
  calc times[i].toNat * 2 ^ 32 + i ≤ times[j].toNat * 2 ^ 32 + i := by gcongr
    _ < times[j].toNat * 2 ^ 32 + j := by gcongr

/-- While the counter stays in its half, no id is zero from the first second on. -/
theorem ne_zero_of_mem_msgIds (hbelow : ∀ time ∈ times, time.toNat < 2 ^ 32)
    (hpos : ∀ time ∈ times, 1 ≤ time) (hfew : times.length ≤ 2 ^ 32) {id : MsgId}
    (hid : id ∈ (msgIds times 0).1) : id ≠ 0 := by
  rw [msgIds_eq_mapIdx, List.mem_mapIdx] at hid
  obtain ⟨i, hi, rfl⟩ := hid
  intro hzero
  have htime := UInt64.le_iff_toNat_le.mp (hpos _ (List.getElem_mem hi))
  have hid := toNat_id_of_few hbelow hfew hi
  rw [hzero, UInt64.toNat_zero] at hid
  rw [UInt64.toNat_one] at htime
  omega

/-! ### A call of `Listen` -/

/-- From one state of a call of `Listen` to a later one, the handlers have got the ids of calls of
`getMsgId` at times that the system has given. -/
def Issues (net : Network) (l l' : Listening) : Prop :=
  ∃ calls : List ℕ,
    l'.handled.map HttpImpl.msgId =
        l.handled.map HttpImpl.msgId ++ (msgIds (calls.map net.time) l.server.msgIndex).1 ∧
      l'.server.msgIndex = (msgIds (calls.map net.time) l.server.msgIndex).2

namespace Issues

variable {net : Network} {l l' l'' : Listening}

theorem of_eq (hhandled : l'.handled = l.handled) (hindex : l'.server.msgIndex = l.server.msgIndex) :
    Issues net l l' := ⟨[], by simp [hhandled], by simp [hindex]⟩

theorem trans (h : Issues net l l') (h' : Issues net l' l'') : Issues net l l'' := by
  obtain ⟨calls, hids, hindex⟩ := h
  obtain ⟨calls', hids', hindex'⟩ := h'
  refine ⟨calls ++ calls', ?_, ?_⟩
  · rw [hids', hids, hindex, List.map_append, msgIds_append, List.append_assoc]
  · rw [hindex', hindex, List.map_append, msgIds_append]

end Issues

namespace Server

variable {net : Network} {fuel s : ℕ} {listener : Listener} {listeners : List Listener}
  {l l' : Listening} {server : Server} {result : ℤ} {eintr returned : Bool}

/-- One callback of `Listen` gives out one id. -/
theorem handle_issues (net : Network) (s : ℕ) (listener : Listener) (l : Listening) (so_client : ℤ) :
    Issues net l ((l.accepted s).handle net listener so_client) := by
  refine ⟨[(l.accepted s).accepts.length - 1], ?_, rfl⟩
  simp [Listening.handle, Listening.accepted, HttpImpl.new, getMsgId]

/-- The inner loop of `Listen` gives out the ids of calls of `getMsgId`, one a turn. -/
theorem acceptLoop_issues (h : acceptLoop net s listener fuel l = some l') : Issues net l l' := by
  induction fuel generalizing l with
  | zero => exact absurd h (by simp [acceptLoop])
  | succ fuel ih =>
      unfold acceptLoop at h
      simp only at h
      split at h
      · obtain rfl := Option.some.inj h
        exact Issues.of_eq rfl rfl
      · split at h
        · exact (handle_issues net s listener l _).trans (ih h)
        · obtain rfl := Option.some.inj h
          exact Issues.of_eq rfl rfl

/-- The outer loop of `Listen` gives out the ids of calls of `getMsgId`. -/
theorem listenLoop_issues (h : listenLoop net fuel s listeners l = some l') : Issues net l l' := by
  induction listeners generalizing s l with
  | nil =>
      obtain rfl := Option.some.inj h
      exact Issues.of_eq rfl rfl
  | cons listener rest ih =>
      unfold listenLoop at h
      split at h
      · obtain rfl := Option.some.inj h
        exact Issues.of_eq rfl rfl
      · split at h
        · obtain ⟨l₁, hl₁, hrest⟩ := Option.bind_eq_some_iff.mp h
          have hclear : Issues net l { l with server := l.server.clearRevents s } := Issues.of_eq rfl rfl
          exact (hclear.trans (acceptLoop_issues hl₁)).trans (ih hrest)
        · exact ih h

/-- A call of `Listen` gives its handlers the ids of a run of `getMsgId`, and leaves the counter of the run
to the next call. -/
theorem listen_issues (h : server.listen result eintr net fuel = some (returned, l')) :
    ∃ calls : List ℕ,
      l'.handled.map HttpImpl.msgId = (msgIds (calls.map net.time) server.msgIndex).1 ∧
        l'.server.msgIndex = (msgIds (calls.map net.time) server.msgIndex).2 := by
  unfold listen at h
  split at h
  · obtain ⟨-, rfl⟩ := Prod.mk.inj (Option.some.inj h)
    exact ⟨[], rfl, rfl⟩
  · split at h
    · obtain ⟨-, rfl⟩ := Prod.mk.inj (Option.some.inj h)
      exact ⟨[], rfl, rfl⟩
    · obtain ⟨l₁, hloop, hl⟩ := Option.map_eq_some_iff.mp h
      obtain ⟨-, rfl⟩ := Prod.mk.inj hl
      exact listenLoop_issues hloop

end Server

/-! ### All ids -/

/-- The ids of `2 ^ 32` calls in a row are different, whatever the clock does. With a clock that goes forward
from its first second on, and fewer than `2 ^ 32` calls since the start, the ids go up and none of them is
zero, so that `Head` tells an empty queue from one with messages. -/
theorem msgIds_sound (times : List UInt64) (hbelow : ∀ time ∈ times, time.toNat < 2 ^ 32) :
    (∀ counter k, (((msgIds times counter).1.drop k).take (2 ^ 32)).Nodup) ∧
      (times.Pairwise (· ≤ ·) → (∀ time ∈ times, 1 ≤ time) → times.length < 2 ^ 32 →
        (msgIds times 0).1.Pairwise (· < ·) ∧ (∀ id ∈ (msgIds times 0).1, id ≠ 0) ∧
          ∀ h : SyncQueueHandler, (∀ id ∈ h.mqQueue, id ∈ (msgIds times 0).1) →
            (h.headCode = 204 ↔ h.mqQueue = [])) := by
  refine ⟨nodup_msgIds times, fun hforward hpos hfew => ?_⟩
  have hzero : ∀ id ∈ (msgIds times 0).1, id ≠ 0 :=
    fun id hid => ne_zero_of_mem_msgIds hbelow hpos hfew.le hid
  refine ⟨increasing_msgIds hbelow hforward hfew.le, hzero, fun h hqueue => ?_⟩
  exact SyncQueueHandler.headCode_eq_iff fun id hid => hzero id (hqueue id hid)

/-- The ids of two connections in one second and one in the next go up. -/
theorem msgIds_sound_three : (msgIds [1, 1, 2] 0).1.Pairwise (· < ·) :=
  ((msgIds_sound [1, 1, 2] (by simp)).2 (by decide) (by simp) (by decide)).1

end NavekFiber
