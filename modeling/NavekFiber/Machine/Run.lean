import Mathlib.Data.Finset.Card
import Mathlib.Data.Finset.Filter
import Mathlib.Logic.Function.Basic
import Mathlib.Logic.Relation

/-! # Labelled machines and guarded runs

A concurrent component is modelled as a labelled machine: one start state and a partial step
function, where an action stands for one atomic step of one thread. A run is any sequence of
enabled actions, so a statement about reachable states covers every interleaving.

* `Machine.ReachableUnder G`: the states reached by runs all of whose steps meet the guard `G`,
  a condition on the state before the step and the action taken in it.
* `Machine.ReachableUnder.invariant`: the induction rule, an invariant that holds at the start and
  is kept by every step meeting the guard holds in every state such a run reaches.
* `Machine.exec`, `Machine.Meets`: concrete runs, to exhibit reachable states and to say what happens
  after a given one (`Machine.exec_invariant`) or what a run has done (`Machine.exec_history`).
* `update_eq_cases`, `card_filter_update`: what a family of threads looks like, and how many of its
  members stand at some point, after one of them has moved on. -/

universe u v

/-- A labelled machine: `step s a = none` says that action `a` is not enabled in state `s`. -/
structure Machine (σ : Type u) (α : Type v) where
  /-- The state every run starts in. -/
  init : σ
  /-- One atomic action, a partial function of the state. -/
  step : σ → α → Option σ

namespace Machine

variable {σ : Type u} {α : Type v} (M : Machine σ α)

/-- One step from `s` to `s'` by an action that meets the guard `G` in `s`. -/
def Moves (G : σ → α → Prop) (s s' : σ) : Prop := ∃ a, G s a ∧ M.step s a = some s'

/-- The states reached from the start by a run all of whose steps meet the guard `G`. -/
def ReachableUnder (G : σ → α → Prop) (s : σ) : Prop :=
  Relation.ReflTransGen (M.Moves G) M.init s

/-- The states reached from the start by any run. -/
abbrev Reachable (s : σ) : Prop := M.ReachableUnder (fun _ _ => True) s

/-- A guarded run may be extended by a concrete list of actions that meet the guard. -/
def exec : σ → List α → Option σ
  | s, [] => some s
  | s, a :: as => (M.step s a).bind fun s' => exec s' as

/-- Every action of the list meets the guard `G` in the state it is taken from. -/
def Meets (G : σ → α → Prop) : σ → List α → Prop
  | _, [] => True
  | s, a :: as => G s a ∧ ∀ s', M.step s a = some s' → Meets G s' as

variable {M} {G H : σ → α → Prop} {s s' : σ}

/-- The induction rule for concrete runs: what every step keeps holds after the run when it held before it. -/
theorem exec_invariant {I : σ → Prop} (hstep : ∀ s a s', I s → M.step s a = some s' → I s')
    (as : List α) (hs : I s) (hexec : M.exec s as = some s') : I s' := by
  induction as generalizing s with
  | nil =>
      obtain rfl : s = s' := Option.some.inj hexec
      exact hs
  | cons a as ih =>
      obtain ⟨s₁, hs₁, hrest⟩ := Option.bind_eq_some_iff.mp hexec
      exact ih (hstep s a s₁ hs hs₁) hrest

/-- Executing `as ++ bs` is executing `as` and then, from the state reached, `bs`. -/
theorem exec_append (as bs : List α) : M.exec s (as ++ bs) = (M.exec s as).bind (M.exec · bs) := by
  induction as generalizing s with
  | nil => rfl
  | cons a as ih =>
      rw [List.cons_append, exec, exec]
      cases M.step s a with
      | none => rfl
      | some s₁ => exact ih

/-- The induction rule for a concrete run and its history: what holds of the empty history, and every step
keeps when it is added to the history, holds at the end of the run. -/
theorem exec_history {I : List α → σ → Prop}
    (hstep : ∀ as s a s', I as s → M.step s a = some s' → I (as ++ [a]) s')
    {past : List α} (as : List α) (hs : I past s) (hexec : M.exec s as = some s') : I (past ++ as) s' := by
  induction as generalizing past s with
  | nil =>
      obtain rfl : s = s' := Option.some.inj hexec
      rwa [List.append_nil]
  | cons a as ih =>
      obtain ⟨s₁, hs₁, hrest⟩ := Option.bind_eq_some_iff.mp hexec
      rw [List.append_cons]
      exact ih (hstep past s a s₁ hs hs₁) hrest

namespace ReachableUnder

/-- The start state is reached by the empty run. -/
theorem init : M.ReachableUnder G M.init := Relation.ReflTransGen.refl

/-- A run may be extended by one step that meets the guard. -/
theorem step {a : α} (h : M.ReachableUnder G s) (ha : G s a) (hs : M.step s a = some s') :
    M.ReachableUnder G s' :=
  Relation.ReflTransGen.tail h ⟨a, ha, hs⟩

/-- The induction rule for guarded runs: what holds at the start and is kept by every step that
meets the guard holds in every state reached. -/
theorem invariant {I : σ → Prop} (h : M.ReachableUnder G s) (hinit : I M.init)
    (hstep : ∀ s a s', I s → G s a → M.step s a = some s' → I s') : I s := by
  induction h with
  | refl => exact hinit
  | tail _ hmove ih =>
      obtain ⟨a, ha, hs⟩ := hmove
      exact hstep _ a _ ih ha hs

/-- A guarded run continued by a concrete list of actions that meet the guard. -/
theorem exec (as : List α) (h : M.ReachableUnder G s) (hmeets : M.Meets G s as)
    (hexec : M.exec s as = some s') : M.ReachableUnder G s' := by
  induction as generalizing s with
  | nil =>
      obtain rfl : s = s' := Option.some.inj hexec
      exact h
  | cons a as ih =>
      obtain ⟨s₁, hs₁, hrest⟩ := Option.bind_eq_some_iff.mp hexec
      exact ih (h.step hmeets.1 hs₁) (hmeets.2 s₁ hs₁) hrest

end ReachableUnder

/-- The empty list of actions meets every guard. -/
@[simp] theorem meets_nil : M.Meets G s [] := trivial

/-- A list of actions meets the guard when its first action does and, after it, the rest does. -/
theorem meets_cons {a : α} {as : List α} :
    M.Meets G s (a :: as) ↔ G s a ∧ ∀ s', M.step s a = some s' → M.Meets G s' as := Iff.rfl

/-- Guards can be checked along a concrete list of actions. -/
instance decidableMeets [∀ s a, Decidable (G s a)] : ∀ s as, Decidable (M.Meets G s as)
  | _, [] => isTrue trivial
  | s, a :: as =>
      match hs : M.step s a with
      | none => decidable_of_iff (G s a) (by simp [meets_cons, hs])
      | some s' =>
          have := decidableMeets s' as
          decidable_of_iff (G s a ∧ M.Meets G s' as) (by simp [meets_cons, hs])

end Machine

/-- After one member of a family has moved on, each member is the one moved or as it was. -/
theorem update_eq_cases {ι : Type u} {β : Type v} [DecidableEq ι] {f : ι → β} {i j : ι} {v x : β}
    (h : Function.update f i v j = x) : (j = i ∧ v = x) ∨ (j ≠ i ∧ f j = x) := by
  by_cases hij : j = i
  · subst hij
    rw [Function.update_self] at h
    exact Or.inl ⟨rfl, h⟩
  · rw [Function.update_of_ne hij] at h
    exact Or.inr ⟨hij, h⟩

/-- After one member of a family has moved on, the members at some point are counted anew for it
only. -/
theorem card_filter_update {ι : Type u} {β : Type v} [DecidableEq ι] {t : Finset ι} {f : ι → β} {i : ι}
    (v : β) (p : β → Bool) (hi : i ∈ t) :
    (t.filter fun j => p (Function.update f i v j) = true).card + (p (f i)).toNat
      = (t.filter fun j => p (f j) = true).card + (p v).toNat := by
  have hothers : (t.erase i).filter (fun j => p (Function.update f i v j) = true)
      = (t.erase i).filter fun j => p (f j) = true := by
    refine Finset.filter_congr fun j hj => ?_
    rw [Function.update_of_ne (Finset.ne_of_mem_erase hj)]
  have hnot : i ∉ (t.erase i).filter fun j => p (f j) = true := by simp
  rw [← Finset.insert_erase hi, Finset.filter_insert, Finset.filter_insert, hothers,
    Function.update_self]
  cases hold : p (f i) <;> cases hnew : p v <;>
    simp [Finset.card_insert_of_notMem hnot]
