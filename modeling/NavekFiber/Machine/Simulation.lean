import NavekFiber.Machine.Run

/-! # Refinement between machines

A machine refines another one when each of its steps shows some steps of the other, none included, and
a relation between the states is kept on the way. What the other machine guarantees about its runs then
holds of what the first one shows.

* `Machine.shown`: what a run shows, step after step.
* `Machine.Refinement`: the relation, what a step shows, and that both fit together for steps that meet
  a guard.
* `Machine.Refinement.exec`: runs carry over.
* `Machine.exec_shown`, `Machine.log_eq_of_exec`: the induction rule for a run and what it shows; what a
  machine logs in its state is what its runs show. -/

universe u v w x

namespace Machine

variable {σ : Type u} {α : Type v} {τ : Type w} {β : Type x}
variable {M : Machine σ α} {A : Machine τ β} {G : σ → α → Prop} {s s' : σ} {t : τ}

/-- The list of what the steps of a run of `M` show, when the step by `a` from `s` shows `shows s a`. -/
def shown (M : Machine σ α) (shows : σ → α → List β) : σ → List α → List β
  | _, [] => []
  | s, a :: as => shows s a ++ (M.step s a).elim [] fun s' => shown M shows s' as

/-- The empty run shows nothing. -/
@[simp] theorem shown_nil (shows : σ → α → List β) : M.shown shows s [] = [] := rfl

/-- A run shows what its first step shows and then what the rest shows. -/
theorem shown_cons {shows : σ → α → List β} {a : α} (as : List α) (hs : M.step s a = some s') :
    M.shown shows s (a :: as) = shows s a ++ M.shown shows s' as := by
  rw [shown, hs]
  rfl

/-- The induction rule for a run and what it shows: what holds of the empty list, and every step keeps when
what it shows is added to the list, holds at the end of the run. -/
theorem exec_shown {shows : σ → α → List β} {I : List β → σ → Prop}
    (hstep : ∀ bs s a s', I bs s → M.step s a = some s' → I (bs ++ shows s a) s')
    (past : List β) (as : List α) (hs : I past s) (hexec : M.exec s as = some s') :
    I (past ++ M.shown shows s as) s' := by
  induction as generalizing past s with
  | nil =>
      obtain rfl : s = s' := Option.some.inj hexec
      rwa [shown_nil, List.append_nil]
  | cons a as ih =>
      obtain ⟨s₁, hs₁, hrest⟩ := Option.bind_eq_some_iff.mp hexec
      rw [shown_cons _ hs₁, ← List.append_assoc]
      exact ih _ (hstep past s a s₁ hs hs₁) hrest

/-- A log that grows by some of what each step shows has grown by some of what the run has shown. -/
theorem log_eq_of_exec {γ : Type*} {shows : σ → α → List β} {log : σ → List γ} {f : β → Option γ}
    (hstep : ∀ s a s', M.step s a = some s' → log s' = log s ++ (shows s a).filterMap f)
    (as : List α) (hexec : M.exec s as = some s') :
    log s' = log s ++ (M.shown shows s as).filterMap f := by
  have hinit : log s = log s ++ ([] : List β).filterMap f := by simp
  refine exec_shown (I := fun bs s' => log s' = log s ++ bs.filterMap f) ?_ [] as hinit hexec
  intro bs s₁ a s₂ hlog hs
  rw [hstep s₁ a s₂ hs, hlog, List.filterMap_append, List.append_assoc]

/-- `M` refines `A` in the runs whose steps meet the guard `G`. -/
structure Refinement (M : Machine σ α) (A : Machine τ β) (G : σ → α → Prop) where
  /-- Which states of `A` stand for a state of `M`. -/
  Rel : σ → τ → Prop
  /-- The steps of `A` that a step of `M` shows. -/
  shows : σ → α → List β
  /-- The start states are related. -/
  init : Rel M.init A.init
  /-- What a step of `M` shows are steps of `A`, and they lead to related states. -/
  step : ∀ {s t a s'}, Rel s t → G s a → M.step s a = some s' →
    ∃ t', A.exec t (shows s a) = some t' ∧ Rel s' t'

namespace Refinement

/-- For a refinement of `A` by `M`: a run of `M` that meets the guard shows a run of `A`, and the two runs end in
related states. -/
theorem exec (r : Refinement M A G) (as : List α) (hrel : r.Rel s t) (hmeets : M.Meets G s as)
    (hexec : M.exec s as = some s') :
    ∃ t', A.exec t (M.shown r.shows s as) = some t' ∧ r.Rel s' t' := by
  induction as generalizing s t with
  | nil =>
      obtain rfl : s = s' := Option.some.inj hexec
      exact ⟨t, rfl, hrel⟩
  | cons a as ih =>
      obtain ⟨s₁, hs₁, hrest⟩ := Option.bind_eq_some_iff.mp hexec
      obtain ⟨t₁, ht₁, hrel₁⟩ := r.step hrel hmeets.1 hs₁
      obtain ⟨t', ht', hrel'⟩ := ih hrel₁ (hmeets.2 s₁ hs₁) hrest
      refine ⟨t', ?_, hrel'⟩
      rw [shown_cons _ hs₁, exec_append, ht₁]
      exact ht'

end Refinement

/-- Every run meets the guard that is always met. -/
theorem meets_true (as : List α) : M.Meets (fun _ _ => True) s as := by
  induction as generalizing s with
  | nil => trivial
  | cons a as ih => exact ⟨trivial, fun s' _ => ih⟩

end Machine
