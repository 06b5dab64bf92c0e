import NavekFiber.Main.Startup

/-! # Opening the listening sockets: `initServer`

Each listener section should come to a listener, or to an error that is logged. `initServer` uses both pieces
of its `listen` option without asking whether there are two, and a port that is no number ends the process
(`handlesAll_iff`). -/

namespace NavekFiber

open Utils

variable {options : ConfigImpl} {strerror : ℤ → Text} {calls : ℕ → SocketCalls} {s s' : ServerInit}
  {proto listen : Text} {so : SocketCalls}

/-- What stands in front of the colon of a `listen` option. -/
def ifaceOf (listen : Text) : Text := listen.takeWhile (· != 58)

/-- What stands behind the colon of a `listen` option. -/
def portOf (listen : Text) : Text := (listen.dropWhile (· != 58)).tail

/-- A section can be used: there is a colon in its `listen` option and, where the protocol begins with `http`, the
port is a number if the system gets as far as that, `socket` does not return zero without an error, and the sizes can
be read if the socket is opened. -/
def SectionUsable (options : ConfigImpl) (proto : Text) (so : SocketCalls) : Prop :=
  58 ∈ listenerOption options proto (bytes "listen") ∧
    Usable so proto (ifaceOf (listenerOption options proto (bytes "listen")))
      (portOf (listenerOption options proto (bytes "listen")))
      (listenerOption options proto (bytes "query-limit")) (listenerOption options proto (bytes "header-limit"))

/-- The log line for what a section comes to. -/
def yieldLine (options : ConfigImpl) (strerror : ℤ → Text) (proto : Text) (y : Yield) : LogLine :=
  listenerLine strerror proto (ifaceOf (listenerOption options proto (bytes "listen")))
    (portOf (listenerOption options proto (bytes "listen"))) y.result

/-- `initServer` returns, and has handled each section: it has come to a listener, or to an error code, and a
line of the log says so. -/
def HandlesAll (options : ConfigImpl) (strerror : ℤ → Text) (calls : ℕ → SocketCalls) : Prop :=
  ∃ s yields, initServer options strerror calls = .ok s ∧ yields.length = options.getSections.length ∧
    (∀ y ∈ yields, Yield.Good y) ∧ s.fiberServer.conFd = yields.filterMap Yield.listener? ∧
    s.numListeners = (yields.filterMap Yield.listener?).length ∧
    s.log = List.zipWith (yieldLine options strerror) options.getSections yields

/-! ### One section -/

/-- `explode` takes a `listen` option with a colon apart into the two pieces around the first colon. -/
theorem explode_colon (h : 58 ∈ listen) : explode .colon listen 2 = [ifaceOf listen, portOf listen] := by
  obtain ⟨u, v, rfl, hu⟩ := List.eq_append_cons_of_mem h
  have hwhile : ∀ b ∈ u, (b != 58) = true := fun b hb => bne_iff_ne.mpr fun heq => hu (heq ▸ hb)
  rw [ifaceOf, portOf, List.takeWhile_append_of_pos hwhile, List.dropWhile_append_of_pos hwhile,
    List.takeWhile_cons_of_neg (by decide), List.dropWhile_cons_of_neg (by decide), List.append_nil, explode,
    if_pos (by simp), explodeFrom_append_cons rfl hu (by decide)]
  exact congrArg (u :: ·) (explodeFrom_one v)

/-- `explode` of a `listen` option without a colon has no second piece. -/
theorem getElem?_explode_colon (h : 58 ∉ listen) : (explode .colon listen 2)[1]? = none := by
  rw [explode]
  split
  · rw [explodeFrom_of_notMem rfl h]
    rfl
  · rfl

/-- A call of `AddListener` with the options of a section. -/
def addSection (options : ConfigImpl) (server : Server) (proto : Text) (so : SocketCalls) :
    Except Stop (ℤ × Server) :=
  server.addListener so proto (listenerOption options proto (bytes "listen"))
    (listenerOption options proto (bytes "query-limit")) (listenerOption options proto (bytes "header-limit"))

/-- A section that is handled without an exception has a colon in its `listen` option. -/
theorem mem_of_initListener (h : initListener options strerror s proto so = .ok s') :
    58 ∈ listenerOption options proto (bytes "listen") := by
  by_contra hnot
  obtain ⟨⟨err, fiberServer⟩, -, h⟩ := bind_eq_ok_iff.mp h
  simp only [getElem?_explode_colon hnot] at h
  split at h
  · rename_i hport
    cases hport
  · cases h

/-- For a section with a colon in its `listen` option, `initListener` counts the listener when `AddListener` returns
zero, and logs a line about what it returns. -/
theorem initListener_eq (hmem : 58 ∈ listenerOption options proto (bytes "listen")) :
    initListener options strerror s proto so =
      (addSection options s.fiberServer proto so).map fun added =>
        ⟨if added.1 = 0 then s.numListeners + 1 else s.numListeners, added.2,
          s.log ++ [listenerLine strerror proto (ifaceOf (listenerOption options proto (bytes "listen")))
            (portOf (listenerOption options proto (bytes "listen"))) added.1]⟩ := by
  rw [initListener, explode_colon hmem, addSection]
  cases s.fiberServer.addListener so proto (listenerOption options proto (bytes "listen"))
    (listenerOption options proto (bytes "query-limit"))
    (listenerOption options proto (bytes "header-limit")) <;> rfl

/-- The state of `initServer` behind a section that has come to a listener or an error. -/
def ServerInit.add (s : ServerInit) (options : ConfigImpl) (strerror : ℤ → Text) (proto : Text) (y : Yield) :
    ServerInit :=
  ⟨s.numListeners + y.listener?.toList.length, y.addTo s.fiberServer, s.log ++ [yieldLine options strerror proto y]⟩

/-- For a section that can be used, `initListener` returns and has come to a listener or an error. -/
theorem exists_initListener (strerror : ℤ → Text) (husable : SectionUsable options proto so) :
    ∃ y : Yield, y.Good ∧
      ∀ s, initListener options strerror s proto so = .ok (s.add options strerror proto y) := by
  obtain ⟨hmem, husable⟩ := husable
  obtain ⟨y, hgood, hadd⟩ := exists_addListener (explode_colon hmem) husable
  refine ⟨y, hgood, fun s => ?_⟩
  rw [initListener_eq hmem, addSection, hadd]
  cases y with
  | listener l => rfl
  | code err =>
      have herr : ¬ err = 0 := hgood
      show Except.ok (ServerInit.mk (if err = 0 then _ else _) _ _) = _
      rw [if_neg herr]
      rfl

/-- When `initListener` returns for a section, the call of `AddListener` has returned. -/
theorem exists_added (h : initListener options strerror s proto so = .ok s') :
    ∃ err, addSection options s.fiberServer proto so = .ok (err, s'.fiberServer) := by
  rw [initListener_eq (mem_of_initListener h)] at h
  cases hadd : addSection options s.fiberServer proto so with
  | error stop =>
      rw [hadd] at h
      cases h
  | ok added =>
      rw [hadd] at h
      obtain rfl := Except.ok.inj h
      exact ⟨added.1, rfl⟩

/-- When `initListener` returns for a section that cannot be used, there is a listener with the socket zero. -/
theorem exists_fd_of_initListener (husable : ¬ SectionUsable options proto so)
    (h : initListener options strerror s proto so = .ok s') : ∃ l ∈ s'.fiberServer.conFd, l.fd = 0 := by
  have hmem := mem_of_initListener h
  obtain ⟨err, hadd⟩ := exists_added h
  exact exists_fd_eq_zero (explode_colon hmem) (fun hok => husable ⟨hmem, hok⟩) hadd

/-- `initListener` keeps the listeners that are there. -/
theorem conFd_prefix_of_initListener (h : initListener options strerror s proto so = .ok s') :
    s.fiberServer.conFd <+: s'.fiberServer.conFd := by
  obtain ⟨err, hadd⟩ := exists_added h
  exact conFd_prefix_of_addListener (explode_colon (mem_of_initListener h)) hadd

/-! ### All sections -/

/-- The loop of `initServer` over sections that can be used returns, and each of them has come to a listener or an
error and to a line of the log. -/
theorem exists_foldlM_initListener (strerror : ℤ → Text) (entries : List (Text × ℕ))
    (husable : ∀ entry ∈ entries, SectionUsable options entry.1 (calls entry.2)) (s : ServerInit) :
    ∃ s' yields, entries.foldlM (fun s entry => initListener options strerror s entry.1 (calls entry.2)) s = .ok s' ∧
      yields.length = entries.length ∧ (∀ y ∈ yields, Yield.Good y) ∧
      s'.fiberServer.conFd = s.fiberServer.conFd ++ yields.filterMap Yield.listener? ∧
      s'.numListeners = s.numListeners + (yields.filterMap Yield.listener?).length ∧
      s'.log = s.log ++ List.zipWith (yieldLine options strerror) (entries.map Prod.fst) yields := by
  induction entries generalizing s with
  | nil => exact ⟨s, [], rfl, rfl, by simp, by simp, by simp, by simp⟩
  | cons entry entries ih =>
      obtain ⟨y, hgood, hstep⟩ := exists_initListener strerror (husable entry List.mem_cons_self)
      obtain ⟨s', yields, hrun, hlength, hyields, hconFd, hnum, hlog⟩ :=
        ih (fun entry' hmem => husable entry' (List.mem_cons_of_mem _ hmem)) (s.add options strerror entry.1 y)
      refine ⟨s', y :: yields, ?_, ?_, ?_, ?_, ?_, ?_⟩
      · rw [List.foldlM_cons, hstep]
        exact hrun
      · rw [List.length_cons, List.length_cons, hlength]
      · exact List.forall_mem_cons.mpr ⟨hgood, hyields⟩
      · rw [hconFd, ServerInit.add, Yield.addTo]
        cases hy : y.listener? <;> simp [hy]
      · rw [hnum, ServerInit.add]
        cases hy : y.listener? <;> simp [hy]
        omega
      · rw [hlog, ServerInit.add]
        simp

/-- When the loop of `initServer` returns although some section cannot be used, it leaves a listener with the socket
zero. -/
theorem exists_fd_of_foldlM (entries : List (Text × ℕ))
    (hrun : entries.foldlM (fun s entry => initListener options strerror s entry.1 (calls entry.2)) s = .ok s') :
    s.fiberServer.conFd <+: s'.fiberServer.conFd ∧
      ((∀ entry ∈ entries, SectionUsable options entry.1 (calls entry.2)) ∨
        ∃ l ∈ s'.fiberServer.conFd, l.fd = 0) := by
  induction entries generalizing s with
  | nil =>
      obtain rfl := Except.ok.inj hrun
      exact ⟨List.prefix_rfl, Or.inl (by simp)⟩
  | cons entry entries ih =>
      rw [List.foldlM_cons] at hrun
      obtain ⟨s₁, hstep, hrun⟩ := bind_eq_ok_iff.mp hrun
      obtain ⟨hfirst, hrest⟩ := ih hrun
      refine ⟨(conFd_prefix_of_initListener hstep).trans hfirst, ?_⟩
      by_cases husable : SectionUsable options entry.1 (calls entry.2)
      · exact hrest.imp_left fun hall => List.forall_mem_cons.mpr ⟨husable, hall⟩
      · obtain ⟨l, hl, hzero⟩ := exists_fd_of_initListener husable hstep
        exact Or.inr ⟨l, hfirst.subset hl, hzero⟩

/-- `initServer` handles each section exactly when all of them can be used. -/
theorem handlesAll_iff (options : ConfigImpl) (strerror : ℤ → Text) (calls : ℕ → SocketCalls) :
    HandlesAll options strerror calls ↔
      ∀ entry ∈ options.getSections.zipIdx, SectionUsable options entry.1 (calls entry.2) := by
  constructor
  · rintro ⟨s, yields, hrun, -, hgood, hconFd, -⟩
    obtain ⟨-, hall | ⟨l, hl, hzero⟩⟩ := exists_fd_of_foldlM _ hrun
    · exact hall
    · rw [hconFd] at hl
      obtain ⟨y, hy, hlistener⟩ := List.mem_filterMap.mp hl
      have hpos := hgood y hy
      cases y with
      | listener l' =>
          obtain rfl := Option.some.inj hlistener
          exact absurd hzero (ne_of_gt hpos)
      | code err => cases hlistener
  · intro husable
    obtain ⟨s, yields, hrun, hlength, hgood, hconFd, hnum, hlog⟩ :=
      exists_foldlM_initListener strerror _ husable ⟨0, ⟨0, []⟩, []⟩
    refine ⟨s, yields, hrun, ?_, hgood, ?_, ?_, ?_⟩
    · rw [hlength, List.length_zipIdx]
    · rw [hconFd, List.nil_append]
    · rw [hnum, Nat.zero_add]
    · rw [hlog, List.zipIdx_map_fst, List.nil_append]

/-- A configuration with a section `http` that has no `listen` option. -/
def withoutListen : ConfigImpl := ⟨((∅ : UnorderedMap Text ConfigValue).emplace [] ⟨[bytes "http"], ∅⟩).1, []⟩

/-- The calls for a socket that can be opened. -/
def openSocket : SocketCalls := ⟨3, 0, by decide, none, fun _ => none, fun _ => none, fun _ => none⟩

/-- For the configuration `withoutListen` not every section is handled: the `listen` option has no piece at all. -/
theorem not_handlesAll_of_withoutListen :
    ¬ ∀ options strerror calls, HandlesAll options strerror calls := by
  intro h
  obtain ⟨s, -, hrun, -⟩ := h withoutListen (fun _ => []) fun _ => openSocket
  have hnone : (initServer withoutListen (fun _ => []) fun _ => openSocket).toOption.isSome = false := by
    decide +kernel
  rw [hrun] at hnone
  cases hnone

end NavekFiber
