import Mathlib.Data.List.Basic

/-! # Queues with their history

A queue that is filled at its end and emptied at its front is described by three lists: what has been
accepted so far, what has been taken so far, both in order, and what waits. `InOrder` says that nothing
has overtaken anything and nothing was lost: the accepted elements are the taken ones and then the
waiting ones.

* `InOrder.push`, `InOrder.pop`: the two operations keep it.
* `InOrder.nodup`: each element is taken at most once when no element is accepted twice. -/

universe u

variable {α : Type u}

/-- The accepted elements are the taken ones followed by the waiting ones. -/
def InOrder (accepted taken waiting : List α) : Prop := accepted = taken ++ waiting

namespace InOrder

variable {accepted taken waiting : List α}

/-- A queue in which nothing has been accepted is in order. -/
theorem nil : InOrder ([] : List α) [] [] := rfl

/-- A new element goes to the end of the queue. -/
theorem push (h : InOrder accepted taken waiting) (x : α) :
    InOrder (accepted ++ [x]) taken (waiting ++ [x]) := by
  unfold InOrder at h ⊢
  rw [h, List.append_assoc]

/-- The element at the front, if there is one, is the next to be taken. -/
theorem pop (h : InOrder accepted taken waiting) :
    InOrder accepted (taken ++ waiting.take 1) waiting.tail := by
  unfold InOrder at h ⊢
  rw [h, List.append_assoc]
  cases waiting with
  | nil => rfl
  | cons x waiting => rfl

/-- When no element is accepted twice, none is taken twice, and none that waits has been taken. -/
theorem nodup (h : InOrder accepted taken waiting) (hnodup : accepted.Nodup) :
    (taken ++ waiting).Nodup := by
  unfold InOrder at h
  rwa [← h]

end InOrder
