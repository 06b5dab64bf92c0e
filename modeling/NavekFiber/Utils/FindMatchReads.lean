import NavekFiber.Utils.FindMatch

/-! # What the searches read

A search that does not fault has read only mapped bytes, so it goes the same way when more of the
memory is mapped. -/

namespace NavekFiber

namespace Utils

variable {cut : Bool} {text : List UInt8} {s s' : Slice} {needles : List (List UInt8)}

/-- Mapping more of the memory does not change how `compareNeedle` ends, unless it faulted. -/
theorem below_compareNeedle (h : s.Extends s') (needle : List UInt8) :
    Below (compareNeedle s.cut needle s.bytes) (compareNeedle s'.cut needle s'.bytes) := by
  rcases h with rfl | ⟨-, hcut, more, hbytes⟩
  · rfl
  · rw [hcut, hbytes]
    generalize s.bytes = text
    induction needle generalizing text with
    | nil => exact Below.refl _
    | cons c needle ih =>
        cases text with
        | nil => exact fun _ h => absurd h (by simp)
        | cons b text =>
            simp only [List.cons_append, compareNeedle_cons_cons]
            split
            · exact Below.refl _
            · exact ih text

/-- Mapping more of the memory does not change what `match_values` finds, unless it faulted. -/
theorem below_matchFrom (h : s.Extends s') (index : ℕ) (needles : List (List UInt8)) :
    Below (matchFrom s index needles) (matchFrom s' index needles) := by
  have hstart : s.start = s'.start := by
    rcases h with rfl | ⟨hstart, -⟩
    · rfl
    · exact hstart
  induction needles generalizing index with
  | nil => exact Below.refl _
  | cons needle needles ih =>
      intro found hfound
      simp only [matchFrom] at hfound ⊢
      cases hcomp : compareNeedle s.cut needle s.bytes with
      | none => simp [hcomp] at hfound
      | some compared =>
          rw [hcomp] at hfound
          rw [below_compareNeedle h needle compared hcomp, ← hstart]
          cases compared with
          | matched => exact hfound
          | mismatch => exact ih (index + 1) found hfound
          | exhausted => exact hfound

/-- Mapping more of the memory does not change what `find_values` finds, unless it faulted. -/
theorem below_findValues (h : s.Extends s') (needles : List (List UInt8)) :
    Below (findValues s needles) (findValues s' needles) := by
  rcases h with rfl | ⟨hstart, hcut, more, hbytes⟩
  · rfl
  · have hat : ∀ (text : List UInt8) (index : ℕ),
        Below (findAt true text index needles) (findAt s'.cut (text ++ more) index needles) := by
      intro text index
      induction needles generalizing index with
      | nil => exact Below.refl _
      | cons needle needles ih =>
          intro found hfound
          simp only [findAt_cons] at hfound ⊢
          have hextends : Slice.Extends ⟨0, text, true⟩ ⟨0, text ++ more, s'.cut⟩ :=
            Or.inr ⟨rfl, rfl, more, rfl⟩
          have hbelow := below_compareNeedle hextends needle
          cases hcomp : compareNeedle true needle text with
          | none => simp [hcomp] at hfound
          | some compared =>
              rw [hcomp] at hfound
              rw [hbelow compared hcomp]
              cases compared with
              | matched => exact hfound
              | mismatch => exact ih (index + 1) found hfound
              | exhausted => exact ih (index + 1) found hfound
    rw [findValues, findValues, hcut, hbytes, hstart]
    generalize s.bytes = text
    generalize s'.start = it
    induction text generalizing it with
    | nil => exact fun _ h => absurd h (by simp [findFrom])
    | cons b text ih =>
        intro found hfound
        simp only [findFrom, List.cons_append] at hfound ⊢
        cases hfirst : findAt true (b :: text) 0 needles with
        | none => simp [hfirst] at hfound
        | some first =>
            have hfirst' : findAt s'.cut (b :: (text ++ more)) 0 needles = some first :=
              hat (b :: text) 0 first hfirst
            rw [hfirst] at hfound
            rw [hfirst']
            cases first with
            | none => exact ih (it + 1) found hfound
            | some pair => exact hfound

/-- Mapping more of the memory does not change what `find_char` finds, unless it faulted. -/
theorem below_findChar (h : s.Extends s') (charlist : List UInt8) :
    Below (findChar s charlist) (findChar s' charlist) := by
  rcases h with rfl | ⟨hstart, hcut, more, hbytes⟩
  · rfl
  · rw [findChar, findChar, hcut, hbytes, hstart]
    generalize s.bytes = text
    generalize hit : s'.start = it
    have hloop : ∀ start, Below (findCharFrom true charlist start it text)
        (findCharFrom s'.cut charlist start it (text ++ more)) := by
      intro start
      clear hit
      induction text generalizing it with
      | nil => exact fun _ h => absurd h (by simp [findCharFrom])
      | cons b text ih =>
          simp only [findCharFrom, List.cons_append]
          split
          · exact Below.refl _
          · exact ih (it + 1)
    exact hloop it

end Utils

end NavekFiber
