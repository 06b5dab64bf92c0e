import Mathlib.Data.Int.Basic
import Mathlib.Logic.Function.Basic

/-! # Signals

`Kernel::Run` installs its handlers with `handleSignals`, which walks through a list of signals that ends
with a zero. It passes the position in the list to `sigaction`, and not the signal that stands there: the
signals that get the handler are those whose number is a position (`installs_iff`). So `SIGTERM` keeps its
default action, and the main loop never sees it (`mainLoop_sigterm`). -/

namespace NavekFiber

namespace Kernel

/-- What happens on a signal. -/
inductive Disposition
  /-- `SIG_DFL`. -/
  | default
  /-- `SIG_IGN`. -/
  | ignore
  /-- A handler. -/
  | handler (address : ℕ)
  deriving DecidableEq, Repr

/-- The dispositions of the process. -/
abbrev Dispositions := ℤ → Disposition

variable (accepts : ℤ → Bool) (act : Disposition)

/-- `sigaction`, which fails for a number that is no signal and for a signal that cannot be caught. -/
def sigaction (sig : ℤ) (d : Dispositions) : Dispositions :=
  if accepts sig then Function.update d sig act else d

/-- The loop of `handleSignals`, from the position `n` in the list on. -/
def handleLoop : ℕ → List ℤ → Dispositions → Dispositions
  | _, [], d => d
  | n, signal :: rest, d => if signal ≠ 0 then handleLoop (n + 1) rest (sigaction accepts act n d) else d

/-- `handleSignals`. -/
def handleSignals (signals : List ℤ) (d : Dispositions) : Dispositions :=
  handleLoop accepts act 0 (signals ++ [0]) d

/-- The signals of the list that can be caught get the handler, and no others do. -/
def Installs (signals : List ℤ) (d : Dispositions) : Prop :=
  ∀ sig, handleSignals accepts act signals d sig =
    if sig ∈ signals ∧ accepts sig = true then act else d sig

variable {accepts : ℤ → Bool} {act : Disposition} {signals : List ℤ} {d : Dispositions}

/-- `sigaction` changes the disposition of its signal when the system accepts it, and no other. -/
theorem sigaction_apply (n : ℤ) (d : Dispositions) (sig : ℤ) :
    sigaction accepts act n d sig = if sig = n ∧ accepts sig = true then act else d sig := by
  unfold sigaction
  by_cases heq : sig = n
  · subst heq
    cases accepts sig <;> simp
  · have hnot : ¬ (sig = n ∧ accepts sig = true) := fun h => heq h.1
    rw [if_neg hnot]
    split
    · exact Function.update_of_ne heq act d
    · rfl

/-- `handleLoop` gives the handler to the signals whose numbers are the positions that it passes. -/
theorem handleLoop_apply (hzero : ∀ sig ∈ signals, sig ≠ 0) (n : ℕ) (d : Dispositions) (sig : ℤ) :
    handleLoop accepts act n (signals ++ [0]) d sig =
      if (n ≤ sig ∧ sig < n + signals.length) ∧ accepts sig = true then act else d sig := by
  induction signals generalizing n d with
  | nil =>
      rw [List.length_nil, if_neg (fun h => by omega)]
      rfl
  | cons signal rest ih =>
      rw [List.cons_append, handleLoop, if_pos (hzero signal List.mem_cons_self),
        ih (fun sig hsig => hzero sig (List.mem_cons_of_mem _ hsig)), sigaction_apply, List.length_cons]
      -- The position `n` gets it in this turn, and those behind it in the rest.
      cases accepts sig with
      | false => simp
      | true =>
          simp only [and_true]
          split_ifs <;> first | rfl | omega

/-- `handleSignals` gives the handler to the signals whose numbers are positions in the list. -/
theorem handleSignals_apply (hzero : ∀ sig ∈ signals, sig ≠ 0) (d : Dispositions) (sig : ℤ) :
    handleSignals accepts act signals d sig =
      if (0 ≤ sig ∧ sig < signals.length) ∧ accepts sig = true then act else d sig := by
  unfold handleSignals
  rw [handleLoop_apply hzero, Int.natCast_zero, Int.zero_add]

/-- The signals of the list get the handler, and no others do, exactly when the signals that can be caught and
do not have it yet are in the list where they are below its length, and nowhere else. -/
theorem installs_iff (accepts : ℤ → Bool) (act : Disposition) (signals : List ℤ) (d : Dispositions)
    (hzero : ∀ sig ∈ signals, sig ≠ 0) :
    Installs accepts act signals d ↔
      ∀ sig, accepts sig = true → d sig ≠ act → (sig ∈ signals ↔ 0 ≤ sig ∧ sig < signals.length) := by
  refine forall_congr' fun sig => ?_
  rw [handleSignals_apply hzero]
  cases accepts sig with
  | false => simp
  | true =>
      simp only [and_true, true_imp_iff]
      constructor
      · intro heq hne
        split_ifs at heq with hposition hmem
        · exact iff_of_true hmem hposition
        · exact absurd heq.symm hne
        · exact absurd heq hne
        · exact iff_of_false (by assumption) hposition
      · intro hiff
        by_cases heq : d sig = act
        · simp [heq]
        · rw [if_congr (hiff heq) rfl rfl]

/-- The signals of Linux that can be caught: `SIGKILL` and `SIGSTOP` cannot, and the library keeps two. -/
def catchable (sig : ℤ) : Bool :=
  decide (1 ≤ sig ∧ sig ≤ 64) && sig != 9 && sig != 19 && sig != 32 && sig != 33

/-- For a list of the first two signals and `SIGKILL`, each one that can be caught gets the handler. -/
theorem installs_hangup_interrupt_kill :
    Installs catchable (.handler 0) [1, 2, 9] fun _ => .default := by
  refine (installs_iff catchable (.handler 0) [1, 2, 9] (fun _ => .default) (by decide)).mpr ?_
  intro sig haccepts _
  simp only [catchable, Bool.and_eq_true, decide_eq_true_eq, bne_iff_ne] at haccepts
  simp only [List.mem_cons, List.not_mem_nil, or_false, List.length_cons, List.length_nil]
  omega

/-- The list of `Kernel::Run`: `SIGTERM` is in it and does not get the handler. -/
theorem not_installs_terminate :
    ¬ Installs catchable (.handler 0) [2, 3, 15, 9, 19] fun _ => .default :=
  fun h => absurd (h 15) (by decide)

/-! ### The main loop -/

/-- The dispositions when `Kernel::Run` comes to its main loop, with the handler that remembers the signal and
the one that exits. -/
def install (accepts : ℤ → Bool) (d : Dispositions) : Dispositions :=
  handleSignals accepts (.handler 1) [11] (handleSignals accepts (.handler 0) [2, 3, 15, 9, 19] d)

/-- A turn of the main loop: the signal that arrives during `Listen`, and what `Listen` returns. -/
structure LoopTurn where
  /-- The signal. -/
  signal : Option ℤ
  /-- What `Listen` returns. -/
  listens : Bool

/-- How the main loop stands: still running, ended with its shutdown, or with the process gone. -/
inductive LoopEnd
  /-- The loop goes on. -/
  | running
  /-- The loop has been left, and the server, the workers and the router are taken down. -/
  | shutdown
  /-- The process has ended in the middle of the loop. -/
  | gone
  deriving DecidableEq, Repr

/-- A signal arrives: `procSignal` afterwards, or none when the process ends. By default it does on the signals
that are fatal. -/
def deliver (fatal : ℤ → Bool) (d : Dispositions) (procSignal sig : ℤ) : Option ℤ :=
  match d sig with
  | .handler 0 => some sig
  | .handler _ => none
  | .ignore => some procSignal
  | .default => if fatal sig then none else some procSignal

/-- The main loop of `Kernel::Run`, over the turns that it makes. -/
def mainLoop (fatal : ℤ → Bool) (d : Dispositions) : List LoopTurn → ℤ → LoopEnd
  | [], _ => .running
  | turn :: rest, procSignal =>
      match turn.signal.elim (some procSignal) (deliver fatal d procSignal) with
      | none => .gone
      | some procSignal =>
          if turn.listens = false then .shutdown
          else if procSignal = 2 ∨ procSignal = 3 ∨ procSignal = 15 then .shutdown
          else mainLoop fatal d rest procSignal

/-- `mainLoop` goes on through turns without a signal. -/
theorem mainLoop_quiet (fatal : ℤ → Bool) (d : Dispositions) (k : ℕ) (rest : List LoopTurn) :
    mainLoop fatal d (List.replicate k ⟨none, true⟩ ++ rest) 0 = mainLoop fatal d rest 0 := by
  induction k with
  | zero => rfl
  | succ k ih =>
      rw [List.replicate_succ, List.cons_append, mainLoop]
      simpa using ih

/-- `install` leaves the disposition of `SIGTERM` as it was. -/
theorem install_terminate (accepts : ℤ → Bool) (d : Dispositions) : install accepts d 15 = d 15 := by
  rw [install, handleSignals_apply (by decide), if_neg (by simp), handleSignals_apply (by decide), if_neg (by simp)]

/-- If `SIGTERM` had the handler, its arrival during any turn would end `mainLoop` with the shutdown. -/
theorem mainLoop_shutdown (fatal : ℤ → Bool) (hinstalled : d 15 = .handler 0) (k : ℕ) (listens : Bool)
    (rest : List LoopTurn) :
    mainLoop fatal d (List.replicate k ⟨none, true⟩ ++ ⟨some 15, listens⟩ :: rest) 0 = .shutdown := by
  rw [mainLoop_quiet, mainLoop]
  simp [deliver, hinstalled]

/-- With the dispositions of `install`, a `SIGTERM` during any turn ends the process in the middle of `mainLoop`, and
nothing is taken down. -/
theorem mainLoop_sigterm (accepts fatal : ℤ → Bool) (hdefault : d 15 = .default) (hfatal : fatal 15 = true)
    (k : ℕ) (listens : Bool) (rest : List LoopTurn) :
    mainLoop fatal (install accepts d) (List.replicate k ⟨none, true⟩ ++ ⟨some 15, listens⟩ :: rest) 0 =
      .gone := by
  rw [mainLoop_quiet, mainLoop]
  simp [deliver, install_terminate, hdefault, hfatal]

end Kernel

end NavekFiber
