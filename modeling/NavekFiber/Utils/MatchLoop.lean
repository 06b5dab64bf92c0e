import NavekFiber.Utils.FindLoop

/-! # The loop of `match_values`

`match_values` compares the haystack with one needle after the other. Only a byte that differs takes it to the
next needle: a haystack that ends within a needle ends the loop. And behind the last needle the loop reads the
pointer to another one before it sees that there are no more. So it finds the first needle that begins the
haystack, or none, without a read past the list, exactly when it comes to a needle that does not differ, and
this needle begins the haystack or no needle does (`matches_iff`). -/

namespace NavekFiber

namespace Utils

/-- The loop of `match_values`. It has the result, and the position of the last pointer that it has read from the
list; behind the list stands whatever pointer. It has no result when it reads behind the end of a needle. -/
def matchLoop (start : ℕ) (haystack : List UInt8) (behind : List UInt8) (needleValues : List (List UInt8))
    (needleIndex needleList : ℕ) (needleIt : List UInt8) (haystackIt : ℕ) : Option (MatchResult × ℕ) :=
  if needleIndex = 0 then some (.fail, needleList)
  else
    match needleIt with
    | [] => none
    | c :: rest =>
        if c = 0 then
          some (⟨1 + needleValues.length - needleIndex, start, start + haystackIt⟩, needleList)
        else if hit : haystackIt < haystack.length then
          if icaseAscii haystack[haystackIt] ≠ icaseAscii c then
            matchLoop start haystack behind needleValues (needleIndex - 1) (needleList + 1)
              (needleValues.getD (needleList + 1) behind) 0
          else matchLoop start haystack behind needleValues needleIndex needleList rest (haystackIt + 1)
        else some (.fail, needleList)
termination_by (needleIndex, haystack.length - haystackIt)
decreasing_by
  · exact Prod.Lex.left _ _ (by omega)
  · exact Prod.Lex.right _ (by omega)

/-- `match_values` on a range that begins at `start`. -/
def matchValuesLoop (start : ℕ) (haystack : List UInt8) (behind : List UInt8) (needleValues : List (List UInt8)) :
    Option (MatchResult × ℕ) :=
  matchLoop start haystack behind needleValues needleValues.length 0 (needleValues.getD 0 behind) 0

/-- A needle and the haystack do not differ as far as both go. -/
def Comparable (needle haystack : List UInt8) : Prop := FoldPrefix needle haystack ∨ FoldPrefix haystack needle

instance (needle haystack : List UInt8) : Decidable (Comparable needle haystack) :=
  inferInstanceAs (Decidable (_ ∨ _))

/-- `match_values` finds the first needle that begins the haystack, or none when there is none, and reads no
pointer past the list. -/
def Matches (start : ℕ) (haystack behind : List UInt8) (needles : List (List UInt8)) : Prop :=
  ∃ found needleList,
    matchValuesLoop start haystack behind (terminated needles) = some (found, needleList) ∧
      needleList < needles.length ∧
      (found = .fail ↔ ∀ needle ∈ needles, ¬ FoldPrefix needle haystack) ∧
      ∀ front needle, front ++ [needle] <+: needles → (∀ other ∈ front, ¬ FoldPrefix other haystack) →
        FoldPrefix needle haystack → found = ⟨1 + front.length, start, start + needle.length⟩

variable {needle haystack behind : List UInt8} {needles front rest : List (List UInt8)} {start index position : ℕ}

/-! ### One needle -/

/-- The turns of `matchLoop` for one needle, from any character of it on: it stands there, or the haystack ends, or it
is the turn of the next needle. -/
theorem matchLoop_needle (tail : List UInt8) (hzero : 0 ∉ tail) (it : ℕ) :
    matchLoop start haystack behind needles (index + 1) position (tail ++ [0]) it =
      if FoldPrefix tail (haystack.drop it) then
        some (⟨1 + needles.length - (index + 1), start, start + it + tail.length⟩, position)
      else if FoldPrefix (haystack.drop it) tail then some (.fail, position)
      else matchLoop start haystack behind needles index (position + 1)
        (needles.getD (position + 1) behind) 0 := by
  have hindex : index + 1 ≠ 0 := Nat.succ_ne_zero index
  induction tail generalizing it with
  | nil =>
      rw [List.nil_append, matchLoop, if_neg hindex, if_pos foldPrefix_nil]
      rfl
  | cons c tail ih =>
      have hc : c ≠ 0 := fun h => hzero (by simp [h])
      rw [List.cons_append, matchLoop, if_neg hindex]
      simp only [if_neg hc]
      by_cases hit : it < haystack.length
      · rw [dif_pos hit, List.drop_eq_getElem_cons hit]
        by_cases hsame : icaseAscii haystack[it] = icaseAscii c
        · rw [if_neg (not_not.mpr hsame), ih (fun h => hzero (List.mem_cons_of_mem c h)) (it + 1)]
          simp only [foldPrefix_cons_cons, hsame, true_and, List.length_cons]
          congr 4
          omega
        · have hsame' : ¬ icaseAscii c = icaseAscii haystack[it] := fun h => hsame h.symm
          rw [if_pos hsame, if_neg (fun h => hsame' (foldPrefix_cons_cons.mp h).1),
            if_neg (fun h => hsame (foldPrefix_cons_cons.mp h).1), Nat.add_sub_cancel]
      · rw [dif_neg hit, List.drop_of_length_le (not_lt.mp hit), if_neg not_foldPrefix_cons_nil,
          if_pos foldPrefix_nil]

/-! ### One needle after the other -/

/-- The pointer at the position of a needle in the list leads to the needle and its zero. -/
theorem getD_terminated (hsplit : needles = front ++ needle :: rest) :
    (terminated needles).getD front.length behind = needle ++ [0] := by
  rw [hsplit, terminated, List.map_append, List.getD_eq_getElem?_getD,
    List.getElem?_append_right (by rw [List.length_map]), List.length_map, Nat.sub_self]
  rfl

/-- `matchLoop` passes over needles that differ from the haystack. -/
theorem matchLoop_skip (start : ℕ) (behind : List UInt8) (front skipped rest : List (List UInt8))
    (hsplit : needles = front ++ (skipped ++ rest)) (hzero : ∀ needle ∈ needles, 0 ∉ needle)
    (hskip : ∀ other ∈ skipped, ¬ Comparable other haystack) :
    matchLoop start haystack behind (terminated needles) (skipped.length + rest.length) front.length
        ((terminated needles).getD front.length behind) 0 =
      matchLoop start haystack behind (terminated needles) rest.length (front.length + skipped.length)
        ((terminated needles).getD (front.length + skipped.length) behind) 0 := by
  induction skipped generalizing front with
  | nil => rw [List.length_nil, Nat.zero_add, Nat.add_zero]
  | cons needle skipped ih =>
      obtain ⟨hdiffers, hskip⟩ := List.forall_mem_cons.mp hskip
      obtain ⟨hpre, hstop⟩ := not_or.mp hdiffers
      have hsplit' : needles = (front ++ [needle]) ++ (skipped ++ rest) := by
        rw [hsplit, List.append_assoc, List.cons_append, List.singleton_append]
      have hrest := ih (front ++ [needle]) hsplit' hskip
      rw [List.length_append, List.length_singleton] at hrest
      have hindex : (needle :: skipped).length + rest.length = skipped.length + rest.length + 1 := by
        rw [List.length_cons]
        omega
      rw [getD_terminated hsplit, hindex, matchLoop_needle needle (hzero needle (by simp [hsplit])), List.drop_zero,
        if_neg hpre, if_neg hstop, hrest, List.length_cons, Nat.add_assoc, Nat.add_comm 1]

/-- The first needle that does not differ from the haystack decides what the loop of `match_values` returns. -/
theorem matchValuesLoop_of_first (start : ℕ) (behind : List UInt8) (hzero : ∀ needle ∈ needles, 0 ∉ needle)
    (hlist : front ++ [needle] <+: needles) (hfront : ∀ other ∈ front, ¬ Comparable other haystack)
    (hneedle : Comparable needle haystack) :
    matchValuesLoop start haystack behind (terminated needles) =
      some (if FoldPrefix needle haystack then ⟨1 + front.length, start, start + needle.length⟩ else .fail,
        front.length) := by
  obtain ⟨rest, hsplit⟩ := hlist
  rw [List.append_assoc, List.singleton_append] at hsplit
  have hskip := matchLoop_skip start behind [] front (needle :: rest) hsplit.symm hzero hfront
  have hlength : (terminated needles).length = front.length + (needle :: rest).length := by
    rw [terminated, List.length_map, ← hsplit, List.length_append]
  rw [List.length_nil, Nat.zero_add] at hskip
  rw [matchValuesLoop, hlength, hskip, getD_terminated hsplit.symm,
    List.length_cons, matchLoop_needle needle (hzero needle (by simp [← hsplit])), List.drop_zero, Nat.add_zero]
  by_cases hpre : FoldPrefix needle haystack
  · rw [if_pos hpre, if_pos hpre, hlength, List.length_cons]
    congr 4
    omega
  · rw [if_neg hpre, if_neg hpre, if_pos (hneedle.resolve_left hpre)]

/-- When all needles differ from the haystack, the loop of `match_values` reads a pointer behind the list. -/
theorem matchValuesLoop_of_none (start : ℕ) (behind : List UInt8) (hzero : ∀ needle ∈ needles, 0 ∉ needle)
    (hnone : ∀ needle ∈ needles, ¬ Comparable needle haystack) :
    matchValuesLoop start haystack behind (terminated needles) = some (.fail, needles.length) := by
  have hskip := matchLoop_skip start behind [] needles [] (by simp) hzero hnone
  rw [List.length_nil, Nat.zero_add, Nat.add_zero] at hskip
  rw [matchValuesLoop, terminated, List.length_map, ← terminated, hskip]
  unfold matchLoop
  rw [if_pos rfl]

/-- No needle has a property, or there is a first one that has it. -/
theorem first_cases (p : List UInt8 → Prop) (needles : List (List UInt8)) :
    (∀ needle ∈ needles, ¬ p needle) ∨
      ∃ front needle, front ++ [needle] <+: needles ∧ (∀ other ∈ front, ¬ p other) ∧ p needle := by
  induction needles with
  | nil => exact Or.inl (List.forall_mem_nil _)
  | cons first needles ih =>
      by_cases hfirst : p first
      · exact Or.inr ⟨[], first, by simp, List.forall_mem_nil _, hfirst⟩
      · rcases ih with hnone | ⟨front, needle, hlist, hfront, hneedle⟩
        · exact Or.inl (List.forall_mem_cons.mpr ⟨hfirst, hnone⟩)
        · exact Or.inr ⟨first :: front, needle, by simpa using hlist, List.forall_mem_cons.mpr ⟨hfirst, hfront⟩,
            hneedle⟩

/-- The first needle that does not differ from the haystack decides what `matchFrom` returns. -/
theorem matchFrom_of_first (start index : ℕ) (hlist : front ++ [needle] <+: needles)
    (hfront : ∀ other ∈ front, ¬ Comparable other haystack) (hneedle : Comparable needle haystack) :
    matchFrom ⟨start, haystack, false⟩ index needles =
      some (if FoldPrefix needle haystack then ⟨1 + (index + front.length), start, start + needle.length⟩
        else .fail) := by
  obtain ⟨rest, rfl⟩ := hlist
  rw [List.append_assoc, List.singleton_append]
  induction front generalizing index with
  | nil =>
      rw [List.nil_append, matchFrom, compareNeedle_eq]
      by_cases hpre : FoldPrefix needle haystack
      · rw [if_pos hpre, if_pos hpre, List.length_nil, Nat.add_zero, Nat.add_comm 1]
      · rw [if_neg hpre, if_neg hpre, if_pos (hneedle.resolve_left hpre)]
        rfl
  | cons first front ih =>
      obtain ⟨hdiffers, hfront⟩ := List.forall_mem_cons.mp hfront
      obtain ⟨hpre, hstop⟩ := not_or.mp hdiffers
      rw [List.cons_append, matchFrom, compareNeedle_eq, if_neg hpre, if_neg hstop]
      show matchFrom _ (index + 1) _ = _
      rw [ih (index + 1) hfront, List.length_cons, Nat.add_assoc, Nat.add_comm 1 front.length]

/-- On a mapped range, the loop of `match_values` has the result of `matchValues`. -/
theorem matchValuesLoop_eq (start : ℕ) (haystack behind : List UInt8) (hzero : ∀ needle ∈ needles, 0 ∉ needle) :
    (matchValuesLoop start haystack behind (terminated needles)).map Prod.fst =
      matchValues ⟨start, haystack, false⟩ needles := by
  rcases first_cases (Comparable · haystack) needles with hnone | ⟨front, needle, hlist, hfront, hneedle⟩
  · rw [matchValuesLoop_of_none start behind hzero hnone, Option.map_some, matchValues, matchFrom_of_not]
    · exact fun needle hmem h => hnone needle hmem (Or.inl h)
    · exact fun needle hmem h => hnone needle hmem (Or.inr h.1)
  · rw [matchValuesLoop_of_first start behind hzero hlist hfront hneedle, matchValues,
      matchFrom_of_first start 0 hlist hfront hneedle, Nat.zero_add, Option.map_some]

/-! ### What is found -/

/-- There is one first needle with a property. -/
theorem eq_of_first {p : List UInt8 → Prop} {front' : List (List UInt8)} {needle' : List UInt8}
    (hlist : front ++ [needle] <+: needles) (hlist' : front' ++ [needle'] <+: needles)
    (hfront : ∀ other ∈ front, ¬ p other) (hfront' : ∀ other ∈ front', ¬ p other) (hp : p needle)
    (hp' : p needle') : front = front' ∧ needle = needle' := by
  rcases List.prefix_or_prefix_of_prefix hlist hlist' with h | h
  · rcases List.prefix_concat_iff.mp h with heq | hlt
    · exact List.concat_inj.mp (by simpa using heq)
    · exact absurd hp (hfront' needle (hlt.subset (by simp)))
  · rcases List.prefix_concat_iff.mp h with heq | hlt
    · exact List.concat_inj.mp (by simpa using heq.symm)
    · exact absurd hp' (hfront needle' (hlt.subset (by simp)))

/-- `match_values` does what it should exactly when some needle does not differ from the haystack, and the first
of these begins the haystack, or no needle does. -/
theorem matches_iff (start : ℕ) (haystack behind : List UInt8) (needles : List (List UInt8))
    (hneedles : ∀ needle ∈ needles, IsNeedle needle) :
    Matches start haystack behind needles ↔
      ∃ front needle, front ++ [needle] <+: needles ∧ (∀ other ∈ front, ¬ Comparable other haystack) ∧
        Comparable needle haystack ∧
        (FoldPrefix needle haystack ∨ ∀ other ∈ needles, ¬ FoldPrefix other haystack) := by
  have hzero : ∀ needle ∈ needles, 0 ∉ needle := fun needle hmem => (hneedles needle hmem).notMem
  constructor
  · rintro ⟨found, needleList, hrun, hlt, hfail, -⟩
    rcases first_cases (Comparable · haystack) needles with hnone | ⟨front, needle, hlist, hfront, hneedle⟩
    · -- The pointer behind the list is read.
      rw [matchValuesLoop_of_none start behind hzero hnone] at hrun
      obtain ⟨-, rfl⟩ := Prod.mk.inj (Option.some.inj hrun)
      exact absurd hlt (lt_irrefl _)
    · refine ⟨front, needle, hlist, hfront, hneedle, ?_⟩
      rw [matchValuesLoop_of_first start behind hzero hlist hfront hneedle] at hrun
      by_cases hpre : FoldPrefix needle haystack
      · exact Or.inl hpre
      · rw [if_neg hpre] at hrun
        obtain ⟨rfl, -⟩ := Prod.mk.inj (Option.some.inj hrun)
        exact Or.inr (hfail.mp rfl)
  · rintro ⟨front, needle, hlist, hfront, hneedle, hfirst⟩
    have hmem : needle ∈ needles := hlist.subset (by simp)
    have hlength : front.length < needles.length := by
      have := hlist.length_le
      rwa [List.length_append, List.length_singleton] at this
    refine ⟨_, _, matchValuesLoop_of_first start behind hzero hlist hfront hneedle, hlength, ?_, ?_⟩
    · by_cases hpre : FoldPrefix needle haystack
      · rw [if_pos hpre]
        refine iff_of_false (fun h => ?_) fun h => h needle hmem hpre
        rw [MatchResult.fail, MatchResult.mk.injEq] at h
        omega
      · rw [if_neg hpre]
        exact iff_of_true rfl (hfirst.resolve_left hpre)
    · intro front' needle' hlist' hfront' hneedle'
      have hpre : FoldPrefix needle haystack :=
        hfirst.resolve_right fun h => h needle' (hlist'.subset (by simp)) hneedle'
      have hnot : ∀ other ∈ front, ¬ FoldPrefix other haystack := fun other hother h => hfront other hother (Or.inl h)
      obtain ⟨rfl, rfl⟩ := eq_of_first hlist hlist' hnot hfront' hpre hneedle'
      rw [if_pos hpre]

/-- `match_values` finds `GET` in front of a path. -/
theorem matches_get : Matches 0 (bytes "GET /") [] [bytes "POST", bytes "GET"] := by
  refine (matches_iff 0 (bytes "GET /") [] [bytes "POST", bytes "GET"] ?_).mpr ?_
  · intro needle hneedle
    rcases List.mem_pair.mp hneedle with rfl | rfl
    · exact ⟨by decide, by decide⟩
    · exact ⟨by decide, by decide⟩
  · exact ⟨[bytes "POST"], bytes "GET", by decide, by decide, Or.inl (by decide), Or.inl (by decide)⟩

/-- `match_values` does not do what it should for a listener with a protocol that is not known: the list of protocols
has one entry, and the second one is read. Nor does it for a haystack that ends within a needle, in front of a needle
that begins it. -/
theorem not_matches :
    ¬ Matches 0 (bytes "ws") [] [bytes "http"] ∧ ¬ Matches 0 (bytes "PUT") [] [bytes "PUTS", bytes "PUT"] := by
  constructor
  · rintro ⟨found, needleList, hrun, hlt, -⟩
    rw [matchValuesLoop_of_none 0 [] (by decide) (by decide)] at hrun
    obtain ⟨-, rfl⟩ := Prod.mk.inj (Option.some.inj hrun)
    exact absurd hlt (lt_irrefl _)
  · rintro ⟨found, needleList, hrun, -, hfail, -⟩
    have hlist : [] ++ [bytes "PUTS"] <+: [bytes "PUTS", bytes "PUT"] := by decide
    rw [matchValuesLoop_of_first 0 [] (by decide) hlist (by decide)
      (show Comparable (bytes "PUTS") (bytes "PUT") by decide)] at hrun
    obtain ⟨rfl, -⟩ := Prod.mk.inj (Option.some.inj hrun)
    exact hfail.mp (by decide) (bytes "PUT") (by decide) (by decide)

end Utils

end NavekFiber
