import Mathlib.Data.List.Nodup
import NavekFiber.Machine.Fifo
import NavekFiber.Machine.Run

/-! # Work queues

What a first-in first-out queue with several agents is for: an item that is accepted waits in line, an
agent with empty hands takes the first one in line, and finishes it before it takes another one. The
machine has no other steps, so whatever refines it loses no item, gives none to two agents and finishes
none twice.

* `WorkQueue.machine`: the items in line and what each agent has in its hands.
* `WorkQueue.orderly_of_exec`: after any run, the accepted items are the taken ones and then those in
  line, and the items an agent took are those it finished and then the one in its hands.
* `WorkQueue.fate_of_orderly`: when no item is accepted twice, each accepted item either is in line, or is
  in the hands of the one agent that took it, or has been finished once, by that agent. -/

universe u v

/-- The items that wait in line and those in the hands of the agents. -/
structure WorkQueue (ω : Type u) (ι : Type v) where
  /-- The line, the next item first. -/
  waiting : List ι
  /-- The item in the hands of each agent. -/
  hands : ω → Option ι

namespace WorkQueue

variable {ω : Type u} {ι : Type v}

/-- A step of a work queue. -/
inductive Event (ω : Type u) (ι : Type v)
  /-- An item joins the line. -/
  | accept (x : ι)
  /-- An agent takes the next item. -/
  | take (w : ω) (x : ι)
  /-- An agent finishes its item. -/
  | finish (w : ω) (x : ι)
  deriving DecidableEq, Repr

/-- The item that an event accepts. -/
@[simp] def Event.accepted : Event ω ι → Option ι
  | .accept x => some x
  | _ => none

/-- The item that an event takes out of the line. -/
@[simp] def Event.taken : Event ω ι → Option ι
  | .take _ x => some x
  | _ => none

section Histories

/-- The items accepted in a run, in order. -/
def accepts (es : List (Event ω ι)) : List ι := es.filterMap Event.accepted

/-- The items taken in a run, in order. -/
def takes (es : List (Event ω ι)) : List ι := es.filterMap Event.taken

/-- Adding an event to a history adds to a list made from the history what is made from the event. -/
theorem filterMap_concat {α β : Type*} (f : α → Option β) (as : List α) (a : α) :
    (as ++ [a]).filterMap f = as.filterMap f ++ (f a).toList := by
  rw [List.filterMap_append]
  cases h : f a <;> simp [h]

/-- The history of one event accepts the item that the event accepts, if there is one. -/
@[simp] theorem accepts_singleton (e : Event ω ι) : accepts [e] = e.accepted.toList :=
  filterMap_concat _ [] e

/-- The history of one event takes the item that the event takes, if there is one. -/
@[simp] theorem takes_singleton (e : Event ω ι) : takes [e] = e.taken.toList := filterMap_concat _ [] e

/-- Nothing is accepted before the first event. -/
@[simp] theorem accepts_nil : accepts ([] : List (Event ω ι)) = [] := rfl

/-- Nothing is taken before the first event. -/
@[simp] theorem takes_nil : takes ([] : List (Event ω ι)) = [] := rfl

/-- Adding an event to a history adds the item that it accepts, if there is one, to the accepted items. -/
@[simp] theorem accepts_concat (es : List (Event ω ι)) (e : Event ω ι) :
    accepts (es ++ [e]) = accepts es ++ e.accepted.toList := filterMap_concat _ es e

/-- Adding an event to a history adds the item that it takes, if there is one, to the taken items. -/
@[simp] theorem takes_concat (es : List (Event ω ι)) (e : Event ω ι) :
    takes (es ++ [e]) = takes es ++ e.taken.toList := filterMap_concat _ es e

variable [DecidableEq ω]

/-- The item that the agent takes with an event. -/
@[simp] def Event.takenBy (w : ω) : Event ω ι → Option ι
  | .take w' x => if w' = w then some x else none
  | _ => none

/-- The item that the agent finishes with an event. -/
@[simp] def Event.finishedBy (w : ω) : Event ω ι → Option ι
  | .finish w' x => if w' = w then some x else none
  | _ => none

/-- The items an agent takes in a run, in order. -/
def takesBy (w : ω) (es : List (Event ω ι)) : List ι := es.filterMap (Event.takenBy w)

/-- The items an agent finishes in a run, in order. -/
def finishesBy (w : ω) (es : List (Event ω ι)) : List ι := es.filterMap (Event.finishedBy w)

/-- Adding an event to a history adds the item that the agent takes with it, if there is one, to those it has
taken. -/
@[simp] theorem takesBy_concat (w : ω) (es : List (Event ω ι)) (e : Event ω ι) :
    takesBy w (es ++ [e]) = takesBy w es ++ (e.takenBy w).toList := filterMap_concat _ es e

/-- Adding an event to a history adds the item that the agent finishes with it, if there is one, to those it has
finished. -/
@[simp] theorem finishesBy_concat (w : ω) (es : List (Event ω ι)) (e : Event ω ι) :
    finishesBy w (es ++ [e]) = finishesBy w es ++ (e.finishedBy w).toList := filterMap_concat _ es e

/-- An agent takes only items that are taken. -/
theorem takesBy_sublist_takes (w : ω) (es : List (Event ω ι)) : (takesBy w es).Sublist (takes es) := by
  induction es with
  | nil => exact List.Sublist.refl _
  | cons e es ih =>
      cases e with
      | accept x => exact ih
      | finish w' x => exact ih
      | take w' x =>
          by_cases hw : w' = w
          · simpa [takesBy, takes, Event.takenBy, Event.taken, hw] using ih.cons_cons x
          · simpa [takesBy, takes, Event.takenBy, Event.taken, hw] using ih.cons x

/-- An item that is taken is taken by some agent. -/
theorem exists_mem_takesBy {x : ι} {es : List (Event ω ι)} (hx : x ∈ takes es) : ∃ w, x ∈ takesBy w es := by
  obtain ⟨e, he, htaken⟩ := List.mem_filterMap.mp hx
  cases e with
  | accept y => exact absurd htaken (by simp [Event.taken])
  | finish w y => exact absurd htaken (by simp [Event.taken])
  | take w y =>
      refine ⟨w, List.mem_filterMap.mpr ⟨.take w y, he, ?_⟩⟩
      simpa [Event.takenBy, Event.taken] using htaken

/-- An item that is taken once is taken by one agent. -/
theorem takesBy_unique {x : ι} {w w' : ω} {es : List (Event ω ι)} (hnodup : (takes es).Nodup)
    (hw : x ∈ takesBy w es) (hw' : x ∈ takesBy w' es) : w = w' := by
  induction es with
  | nil => exact absurd hw (by simp [takesBy])
  | cons e es ih =>
      cases e with
      | accept y => exact ih hnodup hw hw'
      | finish w₁ y => exact ih hnodup hw hw'
      | take w₁ y =>
          obtain ⟨hy, hrest⟩ := List.nodup_cons.mp (show (y :: takes es).Nodup from hnodup)
          -- Whoever takes `x` takes it now, or takes it later and then it is not the item taken now.
          have hhead (w₂ : ω) (h : x ∈ takesBy w₂ (.take w₁ y :: es)) :
              (w₁ = w₂ ∧ x = y) ∨ x ≠ y ∧ x ∈ takesBy w₂ es := by
            by_cases hw₂ : w₁ = w₂
            · have h : x ∈ y :: takesBy w₂ es := by
                simpa [takesBy, Event.takenBy, hw₂] using h
              rcases List.mem_cons.mp h with rfl | hlater
              · exact Or.inl ⟨hw₂, rfl⟩
              · refine Or.inr ⟨?_, hlater⟩
                rintro rfl
                exact hy ((takesBy_sublist_takes w₂ es).subset hlater)
            · have hlater : x ∈ takesBy w₂ es := by
                simpa [takesBy, Event.takenBy, hw₂] using h
              refine Or.inr ⟨?_, hlater⟩
              rintro rfl
              exact hy ((takesBy_sublist_takes w₂ es).subset hlater)
          rcases hhead w hw with ⟨rfl, rfl⟩ | ⟨hne, hlater⟩
          · rcases hhead w' hw' with ⟨rfl, -⟩ | ⟨hne, -⟩
            · rfl
            · exact absurd rfl hne
          · rcases hhead w' hw' with ⟨-, rfl⟩ | ⟨-, hlater'⟩
            · exact absurd rfl hne
            · exact ih hrest hlater hlater'

end Histories

variable [DecidableEq ω] [DecidableEq ι] {q q' : WorkQueue ω ι} {e : Event ω ι} {es : List (Event ω ι)}

/-- The steps: only the first item in line is taken, by an agent with empty hands, and an agent finishes
only what it has in its hands. -/
def step (q : WorkQueue ω ι) : Event ω ι → Option (WorkQueue ω ι)
  | .accept x => some { q with waiting := q.waiting ++ [x] }
  | .take w x =>
      if q.waiting.head? = some x ∧ q.hands w = none then
        some ⟨q.waiting.tail, Function.update q.hands w (some x)⟩
      else none
  | .finish w x =>
      if q.hands w = some x then some { q with hands := Function.update q.hands w none } else none

/-- The work queue, empty at the start and with no item in any hands. -/
def machine (ω : Type u) (ι : Type v) [DecidableEq ω] [DecidableEq ι] :
    Machine (WorkQueue ω ι) (Event ω ι) :=
  ⟨⟨[], fun _ => none⟩, step⟩

/-- After some events, the accepted items are the taken ones and then those in line, and the items each
agent took are those it finished and then the one in its hands. -/
def Orderly (es : List (Event ω ι)) (q : WorkQueue ω ι) : Prop :=
  InOrder (accepts es) (takes es) q.waiting ∧
    ∀ w, InOrder (takesBy w es) (finishesBy w es) (q.hands w).toList

/-- Each step of the work queue keeps its items in order. -/
theorem orderly_step (h : Orderly es q) (hs : step q e = some q') : Orderly (es ++ [e]) q' := by
  obtain ⟨hline, hagents⟩ := h
  cases e with
  | accept x =>
      obtain rfl := Option.some.inj hs
      refine ⟨?_, fun w => ?_⟩
      · simpa using hline.push x
      · simpa using hagents w
  | take w x =>
      simp only [step] at hs
      split at hs
      case isFalse => exact absurd hs (by simp)
      case isTrue hguard =>
          obtain ⟨hhead, hempty⟩ := hguard
          obtain rfl := Option.some.inj hs
          obtain ⟨rest, hwaiting⟩ : ∃ rest, q.waiting = x :: rest := by
            cases hq : q.waiting with
            | nil => exact absurd (hq ▸ hhead) (by simp)
            | cons y rest =>
                obtain rfl : y = x := by simpa [hq] using hhead
                exact ⟨rest, rfl⟩
          refine ⟨?_, fun w' => ?_⟩
          · have hpop := hline.pop
            simpa [hwaiting] using hpop
          · by_cases hw : w' = w
            · subst hw
              have hagent := hagents w'
              rw [hempty] at hagent
              simpa using hagent.push x
            · have hw' : ¬ w = w' := fun h => hw h.symm
              simpa [hw, hw'] using hagents w'
  | finish w x =>
      simp only [step] at hs
      split at hs
      case isFalse => exact absurd hs (by simp)
      case isTrue hholds =>
          obtain rfl := Option.some.inj hs
          refine ⟨?_, fun w' => ?_⟩
          · simpa using hline
          · by_cases hw : w' = w
            · subst hw
              have hpop := (hagents w').pop
              simpa [hholds] using hpop
            · have hw' : ¬ w = w' := fun h => hw h.symm
              simpa [hw, hw'] using hagents w'

/-- After any run of the work queue its items are in order. -/
theorem orderly_of_exec (hexec : (machine ω ι).exec (machine ω ι).init es = some q) : Orderly es q := by
  have hinit : Orderly ([] : List (Event ω ι)) (machine ω ι).init :=
    ⟨InOrder.nil, fun w => InOrder.nil⟩
  have h := Machine.exec_history (M := machine ω ι) (I := Orderly)
    (fun _ _ _ _ hi hs => orderly_step hi hs) es hinit hexec
  simpa using h

/-- The three things that can have become of an accepted item. -/
inductive Fate (es : List (Event ω ι)) (q : WorkQueue ω ι) (x : ι) : Prop
  /-- The item is in line and no agent has taken it. -/
  | waits (hline : x ∈ q.waiting) (huntaken : ∀ w, x ∉ takesBy w es)
  /-- The agent `w`, and no other, has taken it, and has it in its hands. -/
  | held (w : ω) (hline : x ∉ q.waiting) (htaker : ∀ w', x ∈ takesBy w' es ↔ w' = w)
      (hhands : q.hands w = some x) (hunfinished : ∀ w', x ∉ finishesBy w' es)
  /-- The agent `w`, and no other, has taken it, and has finished it, once. -/
  | finished (w : ω) (hline : x ∉ q.waiting) (htaker : ∀ w', x ∈ takesBy w' es ↔ w' = w)
      (hhands : ∀ w', q.hands w' ≠ some x) (honce : (finishesBy w es).count x = 1)

/-- When the items are in order and no item is accepted twice, each accepted item has one of the three fates. -/
theorem fate_of_orderly (h : Orderly es q) (hnodup : (accepts es).Nodup) {x : ι} (hx : x ∈ accepts es) :
    Fate es q x := by
  obtain ⟨hline, hagents⟩ := h
  have hboth := hline.nodup hnodup
  obtain ⟨htakes, -, hdisjoint⟩ := List.nodup_append'.mp hboth
  have hmem : x ∈ takes es ∨ x ∈ q.waiting := by
    unfold InOrder at hline
    rw [hline] at hx
    exact List.mem_append.mp hx
  rcases hmem with htaken | hwaiting
  · obtain ⟨w, hw⟩ := exists_mem_takesBy htaken
    have htaker : ∀ w', x ∈ takesBy w' es ↔ w' = w :=
      fun w' => ⟨fun hw' => takesBy_unique htakes hw' hw, fun h => h ▸ hw⟩
    have hnotin : x ∉ q.waiting := fun hwaiting => hdisjoint htaken hwaiting
    -- What an agent finished or holds, it took; so only `w` can have finished it or can hold it.
    have hfinished (w' : ω) (hx' : x ∈ finishesBy w' es) : w' = w := by
      refine (htaker w').mp ?_
      rw [hagents w']
      exact List.mem_append_left _ hx'
    have hholds (w' : ω) (hx' : q.hands w' = some x) : w' = w := by
      refine (htaker w').mp ?_
      rw [hagents w', hx']
      exact List.mem_append_right _ List.mem_cons_self
    have hagent := hagents w
    unfold InOrder at hagent
    have hown : (finishesBy w es ++ (q.hands w).toList).Nodup := by
      rw [← hagent]
      exact (takesBy_sublist_takes w es).nodup htakes
    obtain ⟨hfin, -, hapart⟩ := List.nodup_append'.mp hown
    rw [hagent] at hw
    rcases List.mem_append.mp hw with hdone | hhands
    · refine Fate.finished w hnotin htaker (fun w' hw' => ?_)
        (List.count_eq_one_of_mem hfin hdone)
      obtain rfl := hholds w' hw'
      exact hapart hdone (by simp [hw'])
    · have hsome : q.hands w = some x := by simpa using hhands
      refine Fate.held w hnotin htaker hsome (fun w' hw' => ?_)
      obtain rfl := hfinished w' hw'
      exact hapart hw' hhands
  · refine Fate.waits hwaiting fun w hw => ?_
    exact hdisjoint ((takesBy_sublist_takes w es).subset hw) hwaiting

end WorkQueue
