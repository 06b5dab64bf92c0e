import NavekFiber.Net.Server

/-! # When every ready listener is served

The inner loop goes on after a successful `accept` for as long as the shared counter is not zero, on the
same, blocking listener. So a call of `Listen` serves every ready listener once exactly when each
`accept` but the last one fails (`serves_iff`); with a single ready listener that is no condition. -/

namespace NavekFiber

namespace Server

variable {net : Network} {fuel s : ℕ} {listener : Listener} {listeners : List Listener}
  {l l' : Listening} {server : Server} {result : ℤ} {eintr : Bool}

/-- The inner loop of `Listen` only adds to what has been accepted. -/
theorem acceptLoop_extends (h : acceptLoop net s listener fuel l = some l') :
    l.accepts <+: l'.accepts := by
  induction fuel generalizing l with
  | zero => exact absurd h (by simp [acceptLoop])
  | succ fuel ih =>
      unfold acceptLoop at h
      simp only at h
      -- Left because the counter was zero, or after one more `accept`.
      split at h
      · obtain rfl := Option.some.inj h
        exact List.prefix_rfl
      · split at h
        · exact (List.prefix_append _ _).trans (ih h)
        · obtain rfl := Option.some.inj h
          exact List.prefix_append _ _

/-- The outer loop of `Listen` only adds to what has been accepted. -/
theorem listenLoop_extends (h : listenLoop net fuel s listeners l = some l') :
    l.accepts <+: l'.accepts := by
  induction listeners generalizing s l with
  | nil =>
      obtain rfl := Option.some.inj h
      exact List.prefix_rfl
  | cons listener rest ih =>
      unfold listenLoop at h
      split at h
      · obtain rfl := Option.some.inj h
        exact List.prefix_rfl
      · split at h
        · obtain ⟨l₁, hl₁, hrest⟩ := Option.bind_eq_some_iff.mp h
          exact (acceptLoop_extends hl₁).trans (ih hrest)
        · exact ih h

/-- When `accept` fails, the inner loop is left. -/
theorem acceptLoop_of_fails (hresult : l.result ≠ 0) (hfails : l.soClient net ≤ 0) :
    acceptLoop net s listener (fuel + 1) l = some (l.accepted s) := by
  unfold acceptLoop
  simp only
  rw [if_neg hresult, if_neg (not_lt.mpr hfails)]

/-- When `accept` succeeds, the inner loop goes on with the same listener. -/
theorem acceptLoop_of_succeeds (hresult : l.result ≠ 0) (hsucceeds : 0 < l.soClient net) :
    acceptLoop net s listener (fuel + 1) l
      = acceptLoop net s listener fuel ((l.accepted s).handle net listener (l.soClient net)) := by
  conv_lhs => unfold acceptLoop
  simp only
  rw [if_neg hresult, if_pos hsucceeds]

/-- With the counter at one, the inner loop makes one `accept`, whatever it returns. -/
theorem acceptLoop_of_one (net : Network) (fuel s : ℕ) (listener : Listener) (hresult : l.result = 1) :
    ∃ l', acceptLoop net s listener (fuel + 2) l = some l' ∧ l'.accepts = l.accepts ++ [s] := by
  have hne : l.result ≠ 0 := by omega
  rcases le_or_gt (l.soClient net) 0 with hfails | hsucceeds
  · exact ⟨_, acceptLoop_of_fails hne hfails, rfl⟩
  · -- The loop finds the counter at zero, and leaves it at `-1`.
    rw [acceptLoop_of_succeeds hne hsucceeds]
    unfold acceptLoop
    rw [if_pos (by simp [hresult])]
    exact ⟨_, rfl, rfl⟩

/-- With the counter not at zero, the inner loop calls `accept`. -/
theorem acceptLoop_accepts (hresult : l.result ≠ 0) (h : acceptLoop net s listener fuel l = some l') :
    l.accepts ++ [s] <+: l'.accepts := by
  cases fuel with
  | zero => exact absurd h (by simp [acceptLoop])
  | succ fuel =>
      rcases le_or_gt (l.soClient net) 0 with hfails | hsucceeds
      · rw [acceptLoop_of_fails hresult hfails] at h
        obtain rfl := Option.some.inj h
        exact List.prefix_rfl
      · rw [acceptLoop_of_succeeds hresult hsucceeds] at h
        exact acceptLoop_extends h

/-- With the counter above one, the inner loop follows a successful `accept` by another one on the same listener. -/
theorem acceptLoop_twice (hresult : 1 < l.result) (hsucceeds : 0 < l.soClient net)
    (h : acceptLoop net s listener fuel l = some l') : l.accepts ++ [s, s] <+: l'.accepts := by
  cases fuel with
  | zero => exact absurd h (by simp [acceptLoop])
  | succ fuel =>
      rw [acceptLoop_of_succeeds (by omega) hsucceeds] at h
      -- The counter was above one, so it is not zero yet.
      have hne : ((l.accepted s).handle net listener (l.soClient net)).result ≠ 0 := by
        rw [Listening.handle_result, Listening.accepted_result]
        omega
      have hlog := acceptLoop_accepts hne h
      rwa [Listening.handle_accepts, Listening.accepted_accepts, List.append_assoc] at hlog

/-- The outer loop passes over listeners that are not ready. -/
theorem listenLoop_of_not_ready (hready : ∀ listener ∈ listeners, listener.ready = false) :
    listenLoop net fuel s listeners l = some l := by
  induction listeners generalizing s with
  | nil => rfl
  | cons listener rest ih =>
      have hfirst : ¬ listener.ready = true := by simp [hready listener List.mem_cons_self]
      unfold listenLoop
      rw [if_neg hfirst]
      split
      · rfl
      · exact ih fun other hmem => hready other (List.mem_cons_of_mem _ hmem)

/-- When each `accept` but the last one fails, the loops call it once on each ready listener. -/
theorem listenLoop_of_fails (fuel s : ℕ) (hresult : l.result = listeners.countP Listener.ready)
    (hfails : ∀ i, l.accepts.length ≤ i →
      i + 1 < l.accepts.length + listeners.countP Listener.ready → net.accept i ≤ 0) :
    ∃ l', listenLoop net (fuel + 2) s listeners l = some l' ∧
      l'.accepts = l.accepts ++ listeners.findIdxs Listener.ready s := by
  induction listeners generalizing s l with
  | nil => exact ⟨l, rfl, by simp⟩
  | cons listener rest ih =>
      unfold listenLoop
      by_cases hready : listener.ready = true
      · rw [List.countP_cons_of_pos hready] at hresult hfails
        rw [if_neg (by omega), if_pos hready, List.findIdxs_cons, if_pos hready]
        set l₀ : Listening := { l with server := l.server.clearRevents s } with hl₀
        have hresult₀ : l₀.result = rest.countP Listener.ready + 1 := by
          rw [hl₀, hresult]
          push_cast
          rfl
        have hlog : l₀.accepts = l.accepts := rfl
        by_cases hlast : rest.countP Listener.ready = 0
        · -- This listener is the last one that is ready.
          obtain ⟨l₁, hl₁, haccepts⟩ := acceptLoop_of_one net fuel s listener
            (show l₀.result = 1 by omega)
          have hnone : ∀ other ∈ rest, other.ready = false := fun other hmem => by
            simpa using List.countP_eq_zero.mp hlast other hmem
          rw [hl₁, Option.bind_some, listenLoop_of_not_ready hnone,
            List.findIdxs_eq_nil_iff.mpr hnone]
          exact ⟨l₁, rfl, haccepts⟩
        -- Another listener is ready behind this one, so this is not the last `accept`.
        · have hfirst : l₀.soClient net ≤ 0 := hfails l.accepts.length le_rfl (by omega)
          rw [acceptLoop_of_fails (by omega) hfirst, Option.bind_some]
          have hlength : (l₀.accepted s).accepts.length = l.accepts.length + 1 := by simp [hlog]
          obtain ⟨l', hl', haccepts⟩ := ih (s + 1) (l := l₀.accepted s)
            (by rw [Listening.accepted_result, hresult₀]; omega)
            (fun i hle hlt => hfails i (by omega) (by omega))
          exact ⟨l', hl', by simpa [hlog] using haccepts⟩
      · rw [List.countP_cons_of_neg hready] at hresult hfails
        rw [List.findIdxs_cons, if_neg hready, if_neg hready]
        split
        · -- The counter is zero, so no listener is ready any more.
          rename_i hzero
          have hnone : rest.countP Listener.ready = 0 := by omega
          have hnil : rest.findIdxs Listener.ready (s + 1) = [] :=
            List.findIdxs_eq_nil_iff.mpr fun other hmem => by
              simpa using List.countP_eq_zero.mp hnone other hmem
          exact ⟨l, rfl, by rw [hnil, List.append_nil]⟩
        · exact ih (s + 1) hresult hfails

/-- When the loops end and call `accept` at most once on each listener, each `accept` but the last one has failed. -/
theorem fails_of_listenLoop (hresult : l.result = listeners.countP Listener.ready)
    (h : listenLoop net fuel s listeners l = some l') (hnodup : l'.accepts.Nodup) :
    ∀ i, l.accepts.length ≤ i → i + 1 < l.accepts.length + listeners.countP Listener.ready →
      net.accept i ≤ 0 := by
  induction listeners generalizing s l with
  | nil =>
      intro i hle hlt
      simp at hlt
      omega
  | cons listener rest ih =>
      unfold listenLoop at h
      by_cases hready : listener.ready = true
      · rw [List.countP_cons_of_pos hready] at hresult ⊢
        rw [if_neg (by omega), if_pos hready] at h
        obtain ⟨l₁, hl₁, hrest⟩ := Option.bind_eq_some_iff.mp h
        intro i hle hlt
        set l₀ : Listening := { l with server := l.server.clearRevents s } with hl₀
        have hresult₀ : l₀.result = rest.countP Listener.ready + 1 := by
          rw [hl₀, hresult]
          push_cast
          rfl
        have hlog : l₀.accepts = l.accepts := rfl
        have hlength : (l₀.accepted s).accepts.length = l.accepts.length + 1 := by simp [hlog]
        by_cases hlast : rest.countP Listener.ready = 0
        · omega
        · have hfirst : l₀.soClient net ≤ 0 := by
            by_contra hsucceeds
            -- The listener would be in the log twice.
            have htwice : l₀.accepts ++ [s, s] <+: l'.accepts :=
              (acceptLoop_twice (by omega) (not_le.mp hsucceeds) hl₁).trans (listenLoop_extends hrest)
            have hpair := (List.nodup_append.mp (hnodup.sublist htwice.sublist)).2.1
            simp at hpair
          -- The first `accept` from here on, or one that the rest of the loop makes.
          rcases hle.eq_or_lt with rfl | hlt'
          · exact hfirst
          · cases fuel with
            | zero => exact absurd hl₁ (by simp [acceptLoop])
            | succ fuel =>
                rw [acceptLoop_of_fails (by omega) hfirst] at hl₁
                obtain rfl := Option.some.inj hl₁
                exact ih (by rw [Listening.accepted_result, hresult₀]; omega) hrest i (by omega) (by omega)
      · rw [List.countP_cons_of_neg hready] at hresult ⊢
        rw [if_neg hready] at h
        split at h
        · intro i hle hlt
          omega
        · exact ih hresult h

/-- The positions of the listeners that have a connection pending. -/
def readyListeners (server : Server) : List ℕ := server.conFd.findIdxs Listener.ready

/-- A call of `Listen` ends, it has called `accept` on the ready listeners, each of them and no other, and at most as
often as `poll` has promised. -/
def Serves (server : Server) (result : ℤ) (eintr : Bool) (net : Network) : Prop :=
  ∃ fuel returned l, server.listen result eintr net fuel = some (returned, l) ∧
    (∀ s, s ∈ l.accepts ↔ s ∈ server.readyListeners) ∧ (l.accepts.length : ℤ) ≤ result

/-- No listener can be served twice when every ready one is served within the promised number. -/
theorem nodup_of_served (hresult : result = server.readyListeners.length) {accepts : List ℕ}
    (hserved : ∀ s, s ∈ accepts ↔ s ∈ server.readyListeners) (hlength : (accepts.length : ℤ) ≤ result) :
    accepts.Nodup := by
  have hready : server.readyListeners.Nodup := List.nodup_findIdxs
  -- Each ready listener is in the log, which is not longer than their list.
  have hsub : server.readyListeners.Subperm accepts :=
    List.subperm_of_subset hready fun s hs => (hserved s).mpr hs
  exact (hsub.perm_of_length_le (by omega)).nodup_iff.mp hready

/-- With a ready listener, `Listen` runs its loops. -/
theorem listen_of_pos (hresult : 0 < result) :
    server.listen result eintr net fuel
      = (listenLoop net fuel 0 server.conFd ⟨server, result, [], []⟩).map fun l => (true, l) := by
  unfold listen
  rw [if_neg (by omega), if_neg (by omega)]

/-- When `poll` has found exactly `result` listeners ready, a call of `Listen` serves them as it should
if and only if each `accept` but the one for the last of them fails. -/
theorem serves_iff (hresult : result = server.readyListeners.length) :
    server.Serves result eintr net ↔
      ∀ i, i + 1 < server.readyListeners.length → net.accept i ≤ 0 := by
  have hcount : server.readyListeners.length = server.conFd.countP Listener.ready :=
    List.length_findIdxs
  rcases Nat.eq_zero_or_pos server.readyListeners.length with hzero | hpos
  · -- `poll` has found nothing, and `Listen` returns at once.
    have hnil : server.readyListeners = [] := List.length_eq_zero_iff.mp hzero
    refine ⟨fun _ i hlt => by omega, fun _ => ⟨0, true, ⟨server, result, [], []⟩, ?_, ?_, ?_⟩⟩
    · unfold listen
      rw [if_neg (by omega), if_pos (by omega)]
    · simp [hnil]
    · simp only [List.length_nil]
      omega
  · constructor
    · rintro ⟨fuel, returned, l, hlisten, hserved, hlength⟩ i hlt
      -- Served at most `result` times in all, no listener is in the log twice.
      rw [listen_of_pos (by omega)] at hlisten
      obtain ⟨l', hloop, heq⟩ := Option.map_eq_some_iff.mp hlisten
      obtain ⟨-, rfl⟩ := Prod.mk.inj heq
      exact fails_of_listenLoop (by simp only; omega) hloop (nodup_of_served hresult hserved hlength) i
        (Nat.zero_le _) (by simp only [List.length_nil]; omega)
    · intro hfails
      have hcounter : (⟨server, result, [], []⟩ : Listening).result
          = server.conFd.countP Listener.ready := by
        rw [← hcount]
        exact hresult
      obtain ⟨l, hloop, haccepts⟩ := listenLoop_of_fails 0 0 hcounter
        fun i _ hlt => hfails i (by simp only [List.length_nil] at hlt; omega)
      rw [List.nil_append] at haccepts
      refine ⟨2, true, l, ?_, fun s => by rw [haccepts]; rfl, ?_⟩
      · rw [listen_of_pos (by omega), hloop]
        rfl
      · rw [haccepts, List.length_findIdxs]
        omega

/-- Two listeners with connections pending on both. -/
def twoListeners : Server := ⟨0, [⟨3, pollin, 1048576, 8192⟩, ⟨4, pollin, 1048576, 8192⟩]⟩

/-- A network in which only the answers of `accept` matter. -/
def answering (accept : ℕ → ℤ) : Network where
  accept := accept
  address _ := ⟨[], 0⟩
  time _ := 0
  connection _ := ⟨fun _ => 0, fun _ => 0, fun _ => []⟩

/-- When the first of two connections is gone as it is accepted, `Listen` serves `twoListeners` as it should. -/
theorem serves_iff_two :
    twoListeners.Serves 2 false (answering fun i => if i = 0 then -1 else 5) := by
  refine (serves_iff (by decide)).mpr fun i hlt => ?_
  have hlength : twoListeners.readyListeners.length = 2 := by decide
  obtain rfl : i = 0 := by omega
  decide

/-- When both connections are there, the second of `twoListeners` is not served, or not once. -/
theorem not_serves_of_two :
    ¬ ∀ (server : Server) (result : ℤ) (eintr : Bool) (net : Network),
      result = server.readyListeners.length → server.Serves result eintr net := by
  intro hclaim
  have hcount : (2 : ℤ) = twoListeners.readyListeners.length := by decide
  obtain ⟨fuel, returned, l, hlisten, hserved, hlength⟩ :=
    hclaim twoListeners 2 false (answering fun _ => 5) hcount
  rw [listen_of_pos (by decide)] at hlisten
  obtain ⟨l', hloop, heq⟩ := Option.map_eq_some_iff.mp hlisten
  obtain ⟨-, rfl⟩ := Prod.mk.inj heq
  -- The first `accept` would have to fail.
  have hfails := fails_of_listenLoop (by decide) hloop (nodup_of_served hcount hserved hlength) 0
    le_rfl (by decide)
  exact absurd hfails (by decide)

end Server

end NavekFiber
