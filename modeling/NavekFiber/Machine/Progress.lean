import Mathlib.Algebra.BigOperators.Group.Finset.Basic
import Mathlib.Data.List.Count
import NavekFiber.Machine.Run

/-! # Potentials: how much a run can do

A potential is a number that goes with the state of a machine. When each step of some kind is paid for out
of the potential, or out of what the other steps earn, a run takes no more of them than the potential at
its start and what is earned on the way. And a potential that can always be lowered while it is not zero
can be lowered to zero.

* `Machine.countP_le`: the bound for a run, in any order of steps.
* `Machine.exists_exec_goal`: a run that reaches the goal.
* `sum_update`: what a potential that sums over a family of threads becomes after one of them has moved
  on. -/

universe u v

namespace Machine

variable {σ : Type u} {α : Type v} {M : Machine σ α} {I : σ → Prop} {s s' : σ}

/-- When each step of a kind is paid for out of the potential and what is earned, the number of such steps in a run is
within what was there and what the run has earned. -/
theorem countP_le (potential earned : σ → ℕ) {p : α → Bool}
    (hstep : ∀ s a s', I s → M.step s a = some s' →
      I s' ∧ (p a).toNat + potential s' + earned s ≤ potential s + earned s')
    (as : List α) (hs : I s) (hexec : M.exec s as = some s') :
    as.countP p + potential s' + earned s ≤ potential s + earned s' := by
  induction as generalizing s with
  | nil =>
      obtain rfl : s = s' := Option.some.inj hexec
      rw [List.countP_nil, Nat.zero_add]
  | cons a as ih =>
      obtain ⟨s₁, hs₁, hrest⟩ := Option.bind_eq_some_iff.mp hexec
      obtain ⟨hinv, hpaid⟩ := hstep s a s₁ hs hs₁
      have hcount := ih hinv hrest
      have hone : (if p a = true then 1 else 0) = (p a).toNat := by
        cases p a <;> rfl
      rw [List.countP_cons, hone]
      omega

/-- When the potential can be lowered as long as a goal is not reached, some run of such steps, no longer
than the potential is high, reaches it. -/
theorem exists_exec_goal (potential : σ → ℕ) (goal : σ → Prop) {P : α → Prop}
    (hstep : ∀ s, I s → ¬ goal s → ∃ a s', P a ∧ M.step s a = some s' ∧ I s' ∧ potential s' < potential s)
    (hs : I s) :
    ∃ as s', (∀ a ∈ as, P a) ∧ as.length ≤ potential s ∧ M.exec s as = some s' ∧ I s' ∧ goal s' := by
  induction hn : potential s using Nat.strong_induction_on generalizing s with
  | _ n ih =>
      by_cases hgoal : goal s
      · exact ⟨[], s, by simp, Nat.zero_le _, rfl, hs, hgoal⟩
      · obtain ⟨a, s₁, ha, hs₁, hinv, hlower⟩ := hstep s hs hgoal
        obtain ⟨as, s', has, hlength, hexec, hinv', hgoal'⟩ := ih _ (hn ▸ hlower) hinv rfl
        refine ⟨a :: as, s', ?_, ?_, ?_, hinv', hgoal'⟩
        · intro b hb
          rcases List.mem_cons.mp hb with rfl | hb
          · exact ha
          · exact has b hb
        · rw [List.length_cons]
          omega
        · rw [exec, hs₁]
          exact hexec

end Machine

/-- After one member of a family has moved on, a sum over the family has changed by its part. -/
theorem sum_update {ι : Type u} {β : Type v} [DecidableEq ι] {t : Finset ι} {f : ι → β} {i : ι} (w : β → ℕ)
    (x : β) (hi : i ∈ t) :
    ∑ j ∈ t, w (Function.update f i x j) + w (f i) = ∑ j ∈ t, w (f j) + w x := by
  have hothers : ∑ j ∈ t.erase i, w (Function.update f i x j) = ∑ j ∈ t.erase i, w (f j) := by
    refine Finset.sum_congr rfl fun j hj => ?_
    rw [Function.update_of_ne (Finset.ne_of_mem_erase hj)]
  rw [← Finset.add_sum_erase t _ hi, ← Finset.add_sum_erase t (fun j => w (f j)) hi, hothers,
    Function.update_self]
  omega
