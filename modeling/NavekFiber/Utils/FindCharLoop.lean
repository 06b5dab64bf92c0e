import NavekFiber.Utils.FindLoop

/-! # The loop of `find_char`

`find_char` has one loop for two things, too: it compares a byte with one character of the list after the
other, and goes to the next byte at the zero that ends the list. So it goes through the bytes and the
characters as `findChar` does (`findCharLoop_eq`), and ends at the first byte that occurs in the list. Its
result is the difference of two pointers the wrong way round: it is the number of the character for the first
character of the list, and for no other one that fits into memory (`findsChar_iff`). -/

namespace NavekFiber

namespace Utils

/-- The loop of `find_char`, at the character `ch` of the list and the byte `it`. It has no result when it reads
behind the zero that ends the list. -/
def findCharLoop (start : ℕ) (haystack charlist : List UInt8) (ch it : ℕ) : Option MatchResult :=
  if hit : it < haystack.length then
    match charlist[ch]? with
    | none => none
    | some c =>
        if haystack[it] = c then some ⟨charResult ch, start, start + it + 1⟩
        else
          match hnext : charlist[ch + 1]? with
          | none => none
          | some next =>
              findCharLoop start haystack charlist (if next ≠ 0 then ch + 1 else 0)
                (if next = 0 then it + 1 else it)
  else some ⟨0, start, start + it⟩
termination_by (haystack.length - it, charlist.length - ch)
decreasing_by
  have hlt : ch + 1 < charlist.length := (List.getElem?_eq_some_iff.mp hnext).1
  by_cases hzero : next = 0
  · rw [dif_pos hzero]
    exact Prod.Lex.left _ _ (by omega)
  · rw [dif_neg hzero, dif_pos hzero]
    exact Prod.Lex.right _ (by omega)

/-- `find_char` gives the number in the list of the first byte that occurs there, and the end behind it, and
zero exactly when there is none. -/
def FindsChar (start : ℕ) (haystack charlist : List UInt8) : Prop :=
  ∃ found, findCharLoop start haystack (charlist ++ [0]) 0 0 = some found ∧
    (found.result = 0 ↔ ∀ b ∈ haystack, b ∉ charlist) ∧
    ∀ before c after, haystack = before ++ c :: after → (∀ b ∈ before, b ∉ charlist) → c ∈ charlist →
      found.stop = start + before.length + 1 ∧ found.result = charlist.idxOf c + 1

variable {haystack charlist front rest : List UInt8} {c next : UInt8} {start ch it : ℕ}

/-! ### The turns of the loop -/

/-- At a character of the list that is the byte, `findCharLoop` ends with its number. -/
theorem findCharLoop_of_eq (hit : it < haystack.length) (hc : charlist[ch]? = some c) (heq : haystack[it] = c) :
    findCharLoop start haystack charlist ch it = some ⟨charResult ch, start, start + it + 1⟩ := by
  rw [findCharLoop, dif_pos hit, hc]
  simp only [if_pos heq]

/-- At a character of the list that is not the byte, `findCharLoop` goes on with the next one, or with the next byte
behind the last one. -/
theorem findCharLoop_of_ne (hit : it < haystack.length) (hc : charlist[ch]? = some c) (hne : haystack[it] ≠ c)
    (hnext : charlist[ch + 1]? = some next) :
    findCharLoop start haystack charlist ch it =
      findCharLoop start haystack charlist (if next ≠ 0 then ch + 1 else 0) (if next = 0 then it + 1 else it) := by
  rw [findCharLoop, dif_pos hit, hc]
  simp only [if_neg hne]
  split
  · rename_i hnone
    rw [hnext] at hnone
    cases hnone
  · rename_i next' hsome
    obtain rfl := Option.some.inj (hsome.symm.trans hnext)
    rfl

/-- The turns of `findCharLoop` at one byte, from any character on, find the first character that is the byte, or else
go on to the next byte and the first character. -/
theorem findCharLoop_turns (start : ℕ) (front : List UInt8) (hsplit : charlist = front ++ c :: rest)
    (hzero : 0 ∉ charlist) (hit : it < haystack.length) :
    findCharLoop start haystack (charlist ++ [0]) front.length it =
      match (c :: rest).findIdx? fun ch => decide (haystack[it] = ch) with
      | some index => some ⟨charResult (front.length + index), start, start + it + 1⟩
      | none => findCharLoop start haystack (charlist ++ [0]) 0 (it + 1) := by
  have hc : (charlist ++ [0])[front.length]? = some c := by
    rw [hsplit, List.append_assoc, List.getElem?_append_right le_rfl, Nat.sub_self]
    rfl
  induction rest generalizing front c with
  | nil =>
      have hnext : (charlist ++ [0])[front.length + 1]? = some 0 := by
        rw [hsplit, List.append_assoc, List.getElem?_append_right (Nat.le_succ _)]
        simp
      rw [List.findIdx?_cons]
      by_cases heq : haystack[it] = c
      · rw [findCharLoop_of_eq hit hc heq, if_pos (decide_eq_true heq)]
        rfl
      · rw [findCharLoop_of_ne hit hc heq hnext, if_neg (not_not.mpr rfl), if_pos rfl,
          if_neg (decide_eq_true_iff.not.mpr heq)]
        rfl
  | cons d rest ih =>
      have hsplit' : charlist = (front ++ [c]) ++ d :: rest := by
        rw [hsplit, List.append_assoc, List.singleton_append]
      have hnext : (charlist ++ [0])[front.length + 1]? = some d := by
        rw [hsplit', List.append_assoc, List.getElem?_append_right (by simp)]
        simp
      rw [List.findIdx?_cons]
      by_cases heq : haystack[it] = c
      · rw [findCharLoop_of_eq hit hc heq, if_pos (decide_eq_true heq)]
        rfl
      · have hd : d ≠ 0 := fun h => hzero (by simp [hsplit, h])
        have hrest := ih (front ++ [c]) hsplit' (by rwa [List.length_append, List.length_singleton])
        rw [List.length_append, List.length_singleton] at hrest
        rw [findCharLoop_of_ne hit hc heq hnext, if_pos hd, if_neg hd, hrest,
          if_neg (decide_eq_true_iff.not.mpr heq)]
        cases (d :: rest).findIdx? fun ch => decide (haystack[it] = ch) with
        | none => rfl
        | some index =>
            simp only [Option.map_some]
            rw [Nat.add_assoc, Nat.add_comm 1]

/-- From the first character at any byte on, `findCharLoop` is the loop of `findChar`. -/
theorem findCharLoop_eq (start : ℕ) (haystack : List UInt8) (hlist : IsNeedle charlist) (it : ℕ) :
    findCharLoop start haystack (charlist ++ [0]) 0 it =
      findCharFrom false charlist start (start + it) (haystack.drop it) := by
  obtain ⟨first, rest, hfirst⟩ := List.exists_cons_of_ne_nil hlist.ne_nil
  induction hroom : haystack.length - it using Nat.strong_induction_on generalizing it with
  | _ room ih =>
      by_cases hit : it < haystack.length
      · have hturns := findCharLoop_turns start [] hfirst hlist.notMem hit
        rw [List.length_nil, ← hfirst, ih _ (by omega) (it + 1) rfl] at hturns
        rw [hturns, List.drop_eq_getElem_cons hit, findCharFrom]
        cases charlist.findIdx? fun ch => decide (haystack[it] = ch) with
        | none => rfl
        | some index =>
            simp only
            rw [Nat.zero_add]
      · rw [findCharLoop, dif_neg hit, List.drop_of_length_le (not_lt.mp hit), findCharFrom]
        rfl

/-- On a mapped range, the loop of `find_char` is `findChar`. -/
theorem findCharLoop_eq_findChar (start : ℕ) (haystack : List UInt8) (hlist : IsNeedle charlist) :
    findCharLoop start haystack (charlist ++ [0]) 0 0 = findChar ⟨start, haystack, false⟩ charlist :=
  findCharLoop_eq start haystack hlist 0

/-! ### What is found -/

/-- The difference of the pointers is the number of the character for the first one only, but for a list that does not
fit into memory. -/
theorem charResult_eq_iff (index : ℕ) : charResult index = index + 1 ↔ index = 0 ∨ index = 2 ^ 63 := by
  unfold charResult
  omega

/-- Where `find_char` does what it should, the first byte that occurs in the list is its first character, but for a
list that does not fit into memory. -/
theorem FindsChar.idxOf (h : FindsChar start haystack charlist) (hlist : IsNeedle charlist)
    {before after : List UInt8} (hsplit : haystack = before ++ c :: after) (hbefore : ∀ b ∈ before, b ∉ charlist)
    (hc : c ∈ charlist) : charlist.idxOf c = 0 ∨ charlist.idxOf c = 2 ^ 63 := by
  obtain ⟨found, hfound, -, hfirst⟩ := h
  obtain ⟨-, hresult⟩ := hfirst before c after hsplit hbefore hc
  rw [findCharLoop_eq_findChar start haystack hlist, findChar, hsplit,
    findCharFrom_append start start hbefore hc] at hfound
  obtain rfl := Option.some.inj hfound
  exact (charResult_eq_iff _).mp hresult

/-- `find_char` does what it should exactly when the first byte that occurs in the list, if there is one, is the
first character of the list (or character number `2 ^ 63` of a list that is longer than the memory). -/
theorem findsChar_iff (start : ℕ) (haystack charlist : List UInt8) (hlist : IsNeedle charlist) :
    FindsChar start haystack charlist ↔
      ∀ before c after, haystack = before ++ c :: after → (∀ b ∈ before, b ∉ charlist) → c ∈ charlist →
        charlist.idxOf c = 0 ∨ charlist.idxOf c = 2 ^ 63 := by
  have hloop := findCharLoop_eq_findChar start haystack hlist
  constructor
  · intro h before c after
    exact h.idxOf hlist
  · intro hfirst
    by_cases hex : ∃ b ∈ haystack, b ∈ charlist
    · obtain ⟨before, c, after, hsplit, hbefore, hc⟩ := exists_first charlist haystack hex
      have hfound : findChar ⟨start, haystack, false⟩ charlist =
          some ⟨charResult (charlist.idxOf c), start, start + before.length + 1⟩ := by
        rw [findChar, hsplit]
        exact findCharFrom_append start start hbefore hc
      have hresult := (charResult_eq_iff _).mpr (hfirst before c after hsplit hbefore hc)
      refine ⟨_, hloop.trans hfound, ?_, ?_⟩
      · obtain ⟨b, hb, hmem⟩ := hex
        refine iff_of_false ?_ fun hnone => hnone b hb hmem
        rw [hresult]
        exact Nat.succ_ne_zero _
      · intro before' c' after' hsplit' hbefore' hc'
        -- The search finds this byte, too, so it is the same one.
        rw [findChar, hsplit', findCharFrom_append start start hbefore' hc'] at hfound
        obtain ⟨hindex, -, hstop⟩ := MatchResult.mk.inj (Option.some.inj hfound)
        have hresult' := (charResult_eq_iff _).mpr (hfirst before' c' after' hsplit' hbefore' hc')
        exact ⟨hstop.symm, hindex.symm.trans hresult'⟩
    · have hnone : ∀ b ∈ haystack, b ∉ charlist := fun b hb hmem => hex ⟨b, hb, hmem⟩
      rcases findCharFrom_cases false charlist start start haystack with ⟨before, c, after, rfl, -, hc, -⟩ | hend
      · exact absurd hc (hnone c (by simp))
      · refine ⟨_, hloop.trans hend, iff_of_true rfl hnone, ?_⟩
        rintro before c after rfl - hc
        exact absurd hc (hnone c (by simp))

/-- Behind the name of a header `find_char` does what it should: the colon is the first character of the list. -/
theorem findsChar_colon : FindsChar 0 (bytes ": a\r\n") (bytes ": \n") := by
  refine (findsChar_iff 0 (bytes ": a\r\n") (bytes ": \n") ⟨by decide, by decide⟩).mpr ?_
  intro before c after hsplit hbefore hc
  cases before with
  | nil =>
      obtain ⟨rfl, -⟩ := List.cons.inj hsplit
      exact Or.inl (by decide)
  | cons b before =>
      obtain ⟨rfl, -⟩ := List.cons.inj hsplit
      exact absurd (show 58 ∈ bytes ": \n" by decide) (hbefore 58 List.mem_cons_self)

/-- Behind a path `find_char` does not do what it should: a tab is the second character of the list, and is taken for
none. -/
theorem not_findsChar_tab : ¬ FindsChar 0 (bytes "/a\tb") (bytes " \t\n\r") := by
  intro h
  have hindex := h.idxOf ⟨by decide, by decide⟩ (show bytes "/a\tb" = bytes "/a" ++ 9 :: bytes "b" by decide)
    (by decide) (by decide)
  revert hindex
  decide

end Utils

end NavekFiber
