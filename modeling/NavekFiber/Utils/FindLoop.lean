import NavekFiber.Utils.FindMatch

/-! # The loop of `find_values`

`find_values` has one loop for two things: it tries the needles one after the other at a position, and goes
to the next position when the number of the next needle is a multiple of the number of needles. The needles
end with a zero that the inner loop looks for one character ahead. With needles that are not empty and have
no zero in them, the loop ends, goes through positions and needles as `findValues` does (`findLoop_eq`), and
finds the leftmost position where any needle stands, and the first needle there (`findValuesLoop_spec`). A single
needle may be whatever a pointer leads to, as long as there is a zero somewhere behind
(`findValuesLoop_singleton`). The counter is no `size_t`: it would take `2 ^ 64` turns to see the difference. -/

namespace NavekFiber

namespace Utils

/-- The inner loop of `find_values`, from `n_it` and `h_it` on: `match`, and where it leaves `h_it`. It has no result
when it reads behind the end of a needle. -/
def findInner : List UInt8 → List UInt8 → ℕ → Option (Bool × ℕ)
  | _, [], hIt => some (false, hIt)
  | [], _ :: _, _ => none
  | c :: nIt, b :: rest, hIt =>
      if icaseAscii b = icaseAscii c then
        match nIt with
        | [] => none
        | d :: _ => if d = 0 then some (true, hIt) else findInner nIt rest (hIt + 1)
      else some (false, hIt)

/-- The number of the next needle is one more, or zero behind the last one. -/
theorem succ_mod_cases (n : ℕ) {size : ℕ} (hpos : 0 < size) :
    (n + 1) % size = 0 ∧ n % size + 1 = size ∨ (n + 1) % size = n % size + 1 ∧ n % size + 1 < size := by
  rw [← Nat.mod_add_mod]
  rcases Nat.lt_or_eq_of_le (Nat.succ_le_of_lt (Nat.mod_lt n hpos)) with hlt | heq
  · exact Or.inr ⟨Nat.mod_eq_of_lt hlt, hlt⟩
  · refine Or.inl ⟨?_, heq⟩
    rw [show n % size + 1 = size from heq, Nat.mod_self]

/-- The loop of `find_values`. The step takes the next needle first, and then goes on to the next position if that is
the first one again. -/
def findLoop (start : ℕ) (haystack : List UInt8) (needleValues : List (List UInt8)) (needleIt : List UInt8)
    (needleIndex haystackIt : ℕ) : Option MatchResult :=
  if haystackIt < haystack.length then
    match findInner needleIt (haystack.drop haystackIt) haystackIt with
    | none => none
    | some (true, hIt) =>
        some ⟨1 + needleIndex % needleValues.length, start + haystackIt, start + hIt + 1⟩
    | some (false, _) =>
        let next := (needleIndex + 1) % needleValues.length
        match hnext : needleValues[next]? with
        | none => none
        | some needle =>
            findLoop start haystack needleValues needle (needleIndex + 1)
              (if next = 0 then haystackIt + 1 else haystackIt)
  else some .fail
termination_by (haystack.length - haystackIt, needleValues.length - needleIndex % needleValues.length)
decreasing_by
  have hpos : 0 < needleValues.length := Nat.zero_lt_of_lt (List.getElem?_eq_some_iff.mp hnext).1
  rcases succ_mod_cases needleIndex hpos with ⟨hzero, -⟩ | ⟨hsucc, hlast⟩
  · rw [dif_pos hzero]
    exact Prod.Lex.left _ _ (by omega)
  · rw [dif_neg (by omega), hsucc]
    exact Prod.Lex.right _ (by omega)

/-- `find_values` on a range that begins at `start`. -/
def findValuesLoop (start : ℕ) (haystack : List UInt8) : List (List UInt8) → Option MatchResult
  | [] => none
  | first :: rest => findLoop start haystack (first :: rest) first 0 0

/-- What `find_values` looks for when a pointer leads to these characters: its end is the first zero behind the first
character, which itself may be a zero. -/
def needleOf : List UInt8 → List UInt8
  | [] => []
  | c :: rest => c :: rest.takeWhile (· ≠ 0)

/-- A needle as it is passed: not empty, and without a zero. -/
structure IsNeedle (needle : List UInt8) : Prop where
  /-- A needle is not empty. -/
  ne_nil : needle ≠ []
  /-- A needle has no zero in it. -/
  notMem : 0 ∉ needle

/-- Needles with the zeros that end them. -/
def terminated (needles : List (List UInt8)) : List (List UInt8) := needles.map (· ++ [0])

variable {needle haystack : List UInt8} {needles : List (List UInt8)} {start index it : ℕ}

/-! ### One needle at one position -/

/-- The inner loop finds out whether the needle that a pointer leads to stands at the position. -/
theorem findInner_needleOf {raw : List UInt8} (hzero : 0 ∈ raw.tail) (text : List UInt8) (hIt : ℕ) :
    ∃ stop, findInner raw text hIt = some (decide (FoldPrefix (needleOf raw) text), stop) ∧
      (FoldPrefix (needleOf raw) text → stop + 1 = hIt + (needleOf raw).length) := by
  induction raw generalizing text hIt with
  | nil => cases hzero
  | cons c raw ih =>
      cases text with
      | nil => exact ⟨hIt, by simp [findInner, needleOf], fun h => absurd h not_foldPrefix_cons_nil⟩
      | cons b text =>
          by_cases hc : icaseAscii b = icaseAscii c
          · cases raw with
            | nil => cases hzero
            | cons d raw =>
                by_cases hd : d = 0
                · -- The zero comes next.
                  have hneedle : needleOf (c :: d :: raw) = [c] := by simp [needleOf, hd]
                  refine ⟨hIt, ?_, fun _ => by rw [hneedle]; rfl⟩
                  rw [hneedle]
                  simp [findInner, hc, hd]
                · have hrest : 0 ∈ (d :: raw).tail := by simpa [Ne.symm hd] using hzero
                  have hneedle : needleOf (c :: d :: raw) = c :: needleOf (d :: raw) := by
                    simp [needleOf, hd]
                  obtain ⟨stop, hinner, hstop⟩ := ih hrest text (hIt + 1)
                  rw [hneedle]
                  refine ⟨stop, ?_, fun h => ?_⟩
                  · rw [findInner, if_pos hc]
                    simp only [if_neg hd]
                    rw [hinner]
                    simp [hc]
                  · rw [hstop (foldPrefix_cons_cons.mp h).2]
                    simp only [List.length_cons]
                    omega
          · have hnot : ¬ icaseAscii c = icaseAscii b := fun h => hc h.symm
            exact ⟨hIt, by simp [findInner, needleOf, hc, hnot],
              fun h => absurd (foldPrefix_cons_cons.mp h).1 hnot⟩

/-- The `needleOf` a needle with the zero that ends it is the needle. -/
theorem needleOf_append_zero (hneedle : IsNeedle needle) : needleOf (needle ++ [0]) = needle := by
  cases needle with
  | nil => exact absurd rfl hneedle.ne_nil
  | cons c needle =>
      have htail : ∀ d ∈ needle, decide (d ≠ 0) = true := by
        intro d hd
        simp only [decide_eq_true_eq]
        rintro rfl
        exact hneedle.notMem (List.mem_cons_of_mem c hd)
      rw [List.cons_append, needleOf, List.takeWhile_append_of_pos htail]
      simp

/-- A needle with the zero that ends it has a zero behind its first character. -/
theorem zero_mem_tail (hne : needle ≠ []) : 0 ∈ (needle ++ [0]).tail := by
  rw [List.tail_append_of_ne_nil hne]
  exact List.mem_append_right _ (List.mem_singleton_self 0)

/-- For a needle as it is passed, the inner loop finds out whether it stands at the position. -/
theorem findInner_eq (hneedle : IsNeedle needle) (text : List UInt8) (hIt : ℕ) :
    ∃ stop, findInner (needle ++ [0]) text hIt = some (decide (FoldPrefix needle text), stop) ∧
      (FoldPrefix needle text → stop + 1 = hIt + needle.length) := by
  have h := findInner_needleOf (zero_mem_tail hneedle.ne_nil) text hIt
  rwa [needleOf_append_zero hneedle] at h

/-! ### The turns of the loop -/

/-- At a position where the needle stands, `findLoop` ends with it. -/
theorem findLoop_of_foldPrefix (hneedle : IsNeedle needle) (hit : it < haystack.length)
    (h : FoldPrefix needle (haystack.drop it)) :
    findLoop start haystack (terminated needles) (needle ++ [0]) index it =
      some ⟨1 + index % needles.length, start + it, start + it + needle.length⟩ := by
  obtain ⟨stop, hinner, hstop⟩ := findInner_eq hneedle (haystack.drop it) it
  rw [findLoop, if_pos hit, hinner, decide_eq_true h]
  simp only
  rw [terminated, List.length_map, Nat.add_assoc start stop 1, hstop h, Nat.add_assoc]

/-- At a position where the needle does not stand, `findLoop` goes on with the next needle, and with the next position
when that is the first one. -/
theorem findLoop_of_not (next : List UInt8) (hneedle : IsNeedle needle) (hit : it < haystack.length)
    (h : ¬ FoldPrefix needle (haystack.drop it)) (hnext : needles[(index + 1) % needles.length]? = some next) :
    findLoop start haystack (terminated needles) (needle ++ [0]) index it =
      findLoop start haystack (terminated needles) (next ++ [0]) (index + 1)
        (if (index + 1) % needles.length = 0 then it + 1 else it) := by
  obtain ⟨stop, hinner, -⟩ := findInner_eq hneedle (haystack.drop it) it
  have hlength : (terminated needles).length = needles.length := List.length_map _
  have hvalue : (terminated needles)[(index + 1) % (terminated needles).length]? = some (next ++ [0]) := by
    rw [hlength, terminated, List.getElem?_map, hnext, Option.map_some]
  rw [findLoop, if_pos hit, hinner, decide_eq_false h]
  simp only
  split
  · rename_i hnone
    rw [hvalue] at hnone
    cases hnone
  · rename_i value hsome
    rw [hvalue] at hsome
    obtain rfl := Option.some.inj hsome
    rw [hlength]

/-- On a mapped range, `findAt` tries the needles one after the other. -/
theorem findAt_false_cons (text : List UInt8) (index : ℕ) (needle : List UInt8) (needles : List (List UInt8)) :
    findAt false text index (needle :: needles) =
      if FoldPrefix needle text then some (some (index + 1, needle.length))
      else findAt false text (index + 1) needles := by
  rw [findAt_cons, compareNeedle_eq]
  by_cases hpre : FoldPrefix needle text
  · rw [if_pos hpre, if_pos hpre]
  · rw [if_neg hpre, if_neg hpre]
    by_cases hstop : FoldPrefix text needle
    · rw [if_pos hstop]
      rfl
    · rw [if_neg hstop]

/-- On a mapped range, `findAt` has an answer at every position. -/
theorem isSome_findAt (text : List UInt8) (index : ℕ) (needles : List (List UInt8)) :
    ∃ found, findAt false text index needles = some found := by
  induction needles generalizing index with
  | nil => exact ⟨none, rfl⟩
  | cons needle needles ih =>
      rw [findAt_false_cons]
      split
      · exact ⟨_, rfl⟩
      · exact ih (index + 1)

/-- The turns of `findLoop` at one position, from any needle on, find the first needle that stands there, or else what
comes `after` them at the next position. -/
theorem findLoop_turns {first : List UInt8} {others : List (List UInt8)} {after : Option MatchResult}
    (hneedles : ∀ needle ∈ first :: others, IsNeedle needle) (hit : it < haystack.length)
    (hafter : ∀ index, index % (first :: others).length = 0 →
      findLoop start haystack (terminated (first :: others)) (first ++ [0]) index (it + 1) = after)
    (rest front : List (List UInt8)) (needle : List UInt8) (index : ℕ)
    (hsplit : first :: others = front ++ needle :: rest) (hindex : index % (first :: others).length = front.length) :
    findLoop start haystack (terminated (first :: others)) (needle ++ [0]) index it =
      match findAt false (haystack.drop it) front.length (needle :: rest) with
      | some (some (result, length)) => some ⟨result, start + it, start + it + length⟩
      | _ => after := by
  have hturn := succ_mod_cases index (show 0 < (first :: others).length from Nat.succ_pos _)
  have hlength : (first :: others).length = front.length + (needle :: rest).length := by
    rw [hsplit, List.length_append]
  have hneedle : IsNeedle needle := hneedles needle (by rw [hsplit]; simp)
  rw [findAt_false_cons]
  induction rest generalizing front needle index with
  | nil =>
      by_cases h : FoldPrefix needle (haystack.drop it)
      · rw [if_pos h, findLoop_of_foldPrefix hneedle hit h, hindex, Nat.add_comm 1]
      · -- This was the last needle, and the first one follows at the next position.
        rw [List.length_singleton] at hlength
        have hzero : (index + 1) % (first :: others).length = 0 := by omega
        rw [if_neg h, findLoop_of_not first hneedle hit h (by rw [hzero]; rfl), if_pos hzero]
        exact hafter (index + 1) hzero
  | cons next rest ih =>
      by_cases h : FoldPrefix needle (haystack.drop it)
      · rw [if_pos h, findLoop_of_foldPrefix hneedle hit h, hindex, Nat.add_comm 1]
      · have hsplit' : first :: others = (front ++ [needle]) ++ next :: rest := by
          rw [hsplit, List.append_assoc, List.singleton_append]
        have hmore : (needle :: next :: rest).length = rest.length + 2 := rfl
        have hsucc : (index + 1) % (first :: others).length = (front ++ [needle]).length := by
          rw [List.length_append, List.length_singleton]
          omega
        have hnext : (first :: others)[(index + 1) % (first :: others).length]? = some next := by
          rw [hsucc, hsplit', List.getElem?_append_right le_rfl, Nat.sub_self]
          rfl
        have hne : (index + 1) % (first :: others).length ≠ 0 := by
          rw [hsucc, List.length_append]
          exact Nat.succ_ne_zero _
        rw [if_neg h, findLoop_of_not next hneedle hit h hnext, if_neg hne, findAt_false_cons]
        have hrest := ih (front ++ [needle]) next (index + 1) hsplit' hsucc
          (succ_mod_cases (index + 1) (Nat.succ_pos _)) (by rw [hsplit', List.length_append])
          (hneedles next (by rw [hsplit']; simp))
        rw [hrest, List.length_append, List.length_singleton]

/-- From the first needle at any position on, `findLoop` is the loop of `findValues`. -/
theorem findLoop_eq {first : List UInt8} {others : List (List UInt8)}
    (hneedles : ∀ needle ∈ first :: others, IsNeedle needle) (it index : ℕ)
    (hindex : index % (first :: others).length = 0) :
    findLoop start haystack (terminated (first :: others)) (first ++ [0]) index it =
      findFrom false (first :: others) (start + it) (haystack.drop it) := by
  induction hroom : haystack.length - it using Nat.strong_induction_on generalizing it index with
  | _ room ih =>
      by_cases hit : it < haystack.length
      · have hafter : ∀ index, index % (first :: others).length = 0 →
            findLoop start haystack (terminated (first :: others)) (first ++ [0]) index (it + 1) =
              findFrom false (first :: others) (start + it + 1) (haystack.drop (it + 1)) :=
          fun index hindex => ih _ (by omega) (it + 1) index hindex rfl
        rw [findLoop_turns hneedles hit hafter others [] first index rfl hindex, List.drop_eq_getElem_cons hit,
          findFrom, List.length_nil]
        obtain ⟨found, hfound⟩ := isSome_findAt (haystack[it] :: haystack.drop (it + 1)) 0 (first :: others)
        rw [hfound]
        cases found <;> rfl
      · rw [findLoop, if_neg hit, List.drop_of_length_le (not_lt.mp hit), findFrom]
        rfl

/-- On a mapped range, the loop of `find_values` is `findValues`. -/
theorem findValuesLoop_eq (start : ℕ) (haystack : List UInt8) (hne : needles ≠ [])
    (hneedles : ∀ needle ∈ needles, IsNeedle needle) :
    findValuesLoop start haystack (terminated needles) = findValues ⟨start, haystack, false⟩ needles := by
  obtain ⟨first, others, rfl⟩ := List.exists_cons_of_ne_nil hne
  exact findLoop_eq hneedles 0 0 (Nat.zero_mod _)

/-! ### A single needle -/

section Single

variable {raw : List UInt8} {found : MatchResult}

/-- What `findLoop` finds begins in the range. -/
theorem findLoop_start_lt (h : findLoop start haystack needleValues needle index it = some found)
    (hfound : found.result ≠ 0) : start + it ≤ found.start ∧ found.start < start + haystack.length := by
  induction needle, index, it using findLoop.induct haystack needleValues with
  | case1 needle index it hit hinner =>
      rw [findLoop, if_pos hit, hinner] at h
      cases h
  | case2 needle index it hit stop hinner =>
      rw [findLoop, if_pos hit, hinner] at h
      obtain rfl := Option.some.inj h
      dsimp only
      omega
  | case3 needle index it hit stop hinner next hnext =>
      rw [findLoop, if_pos hit, hinner] at h
      simp only at h
      split at h
      · cases h
      · rename_i value hsome
        exact absurd (hnext.symm.trans hsome) (by simp)
  | case4 needle index it hit stop hinner next value hnext ih =>
      rw [findLoop, if_pos hit, hinner] at h
      simp only at h
      split at h
      · cases h
      · rename_i value' hsome
        obtain rfl := Option.some.inj (hnext.symm.trans hsome)
        obtain ⟨hle, hlt⟩ := ih h
        split at hle <;> omega
  | case5 needle index it hit =>
      rw [findLoop, if_neg hit] at h
      obtain rfl := Option.some.inj h
      exact absurd rfl hfound

/-- With a single needle, each turn of `findLoop` tries it at the next position. -/
theorem findLoop_singleton (hzero : 0 ∈ raw.tail) (start index it : ℕ) (haystack : List UInt8) :
    findLoop start haystack [raw] raw index it =
      if it < haystack.length then
        if FoldPrefix (needleOf raw) (haystack.drop it) then
          some ⟨1, start + it, start + it + (needleOf raw).length⟩
        else findLoop start haystack [raw] raw (index + 1) (it + 1)
      else some .fail := by
  obtain ⟨stop, hinner, hstop⟩ := findInner_needleOf hzero (haystack.drop it) it
  rw [findLoop, hinner]
  by_cases hstands : FoldPrefix (needleOf raw) (haystack.drop it)
  · rw [decide_eq_true hstands, if_pos hstands]
    simp only
    rw [List.length_singleton, Nat.mod_one, Nat.add_assoc start stop 1, hstop hstands, Nat.add_assoc]
  · rw [decide_eq_false hstands, if_neg hstands]
    have hindex : (index + 1) % [raw].length = 0 := Nat.mod_one (index + 1)
    have hnext : [raw][(index + 1) % [raw].length]? = some raw := by rw [hindex]; rfl
    simp only
    split
    · split
      · rename_i hnone
        rw [hnext] at hnone
        cases hnone
      · rename_i value hsome
        obtain rfl := Option.some.inj (hnext.symm.trans hsome)
        rfl
    · rfl

/-- A needle that a pointer leads to has a first character. -/
theorem needleOf_ne_nil (hzero : 0 ∈ raw.tail) : needleOf raw ≠ [] := by
  cases raw with
  | nil => cases hzero
  | cons c raw => exact List.cons_ne_nil _ _

/-- With a single needle that stands nowhere before a position, `findLoop` from there on finds the first place where
it stands, or nothing when there is none. -/
theorem findLoop_singleton_cases (hzero : 0 ∈ raw.tail) (start index it : ℕ) (haystack : List UInt8)
    (hbefore : ∀ q < it, ¬ FoldPrefix (needleOf raw) (haystack.drop q)) :
    (findLoop start haystack [raw] raw index it = some .fail ∧
        ∀ p, ¬ FoldPrefix (needleOf raw) (haystack.drop p)) ∨
      ∃ stop, IsLeast {p | FoldPrefix (needleOf raw) (haystack.drop p)} stop ∧
        findLoop start haystack [raw] raw index it =
          some ⟨1, start + stop, start + stop + (needleOf raw).length⟩ := by
  induction hroom : haystack.length - it generalizing index it with
  | zero =>
      have hend : haystack.length ≤ it := Nat.sub_eq_zero_iff_le.mp hroom
      rw [findLoop_singleton hzero, if_neg (not_lt.mpr hend)]
      refine Or.inl ⟨rfl, fun p hp => ?_⟩
      rcases lt_or_ge p it with hlt | hge
      · exact hbefore p hlt hp
      · rw [List.drop_of_length_le (hend.trans hge)] at hp
        exact needleOf_ne_nil hzero (List.length_eq_zero_iff.mp (Nat.le_zero.mp hp.length_le))
  | succ room ih =>
      rw [findLoop_singleton hzero, if_pos (by omega)]
      by_cases hstands : FoldPrefix (needleOf raw) (haystack.drop it)
      · rw [if_pos hstands]
        exact Or.inr ⟨it, ⟨hstands, fun q hq => not_lt.mp fun hlt => hbefore q hlt hq⟩, rfl⟩
      · rw [if_neg hstands]
        refine ih (index + 1) (it + 1) (fun q hq => ?_) (by omega)
        rcases Nat.lt_succ_iff_lt_or_eq.mp hq with hlt | rfl
        · exact hbefore q hlt
        · exact hstands

/-- `find` with one needle finds the first place where it stands. -/
theorem findValuesLoop_singleton (hzero : 0 ∈ raw.tail) (start : ℕ) (haystack : List UInt8) :
    (findValuesLoop start haystack [raw] = some .fail ∧ ∀ p, ¬ FoldPrefix (needleOf raw) (haystack.drop p)) ∨
      ∃ stop, IsLeast {p | FoldPrefix (needleOf raw) (haystack.drop p)} stop ∧
        findValuesLoop start haystack [raw] = some ⟨1, start + stop, start + stop + (needleOf raw).length⟩ :=
  findLoop_singleton_cases hzero start 0 0 haystack fun q hq => absurd hq (Nat.not_lt_zero q)

end Single

/-! ### What is found -/

/-- The needle behind `front` in the list is the first one that stands at the position `p`, and no needle
stands further to the left. -/
structure Leftmost (haystack : List UInt8) (needles front : List (List UInt8)) (needle : List UInt8) (p : ℕ) :
    Prop where
  /-- Where the needle is in the list. -/
  inList : front ++ [needle] <+: needles
  /-- The needle stands at the position. -/
  stands : FoldPrefix needle (haystack.drop p)
  /-- No earlier needle does. -/
  first : ∀ other ∈ front, ¬ FoldPrefix other (haystack.drop p)
  /-- No needle stands at an earlier position. -/
  leftmost : ∀ q < p, ∀ other ∈ needles, ¬ FoldPrefix other (haystack.drop q)

/-- `findAt` finds the first needle that stands at its position, or nothing when none does. -/
theorem findAt_cases (text : List UInt8) (index : ℕ) (needles : List (List UInt8)) :
    (findAt false text index needles = some none ∧ ∀ needle ∈ needles, ¬ FoldPrefix needle text) ∨
      ∃ front needle, front ++ [needle] <+: needles ∧ FoldPrefix needle text ∧
        (∀ other ∈ front, ¬ FoldPrefix other text) ∧
        findAt false text index needles = some (some (index + front.length + 1, needle.length)) := by
  induction needles generalizing index with
  | nil => exact Or.inl ⟨rfl, fun needle h => by cases h⟩
  | cons needle needles ih =>
      rw [findAt_false_cons]
      by_cases h : FoldPrefix needle text
      · rw [if_pos h]
        exact Or.inr ⟨[], needle, by simp, h, List.forall_mem_nil _, rfl⟩
      · rw [if_neg h]
        rcases ih (index + 1) with ⟨hnone, hnot⟩ | ⟨front, found, hlist, hstands, hfirst, heq⟩
        · exact Or.inl ⟨hnone, List.forall_mem_cons.mpr ⟨h, hnot⟩⟩
        · refine Or.inr ⟨needle :: front, found, by simpa using hlist, hstands,
            List.forall_mem_cons.mpr ⟨h, hfirst⟩, ?_⟩
          rw [heq, List.length_cons]
          congr 3
          omega

/-- `findFrom` finds the `Leftmost` needle from its position on, or nothing when none stands anywhere. -/
theorem findFrom_cases (hneedles : ∀ needle ∈ needles, IsNeedle needle) (it : ℕ) (text : List UInt8) :
    (findFrom false needles it text = some .fail ∧
        ∀ needle ∈ needles, ∀ p, ¬ FoldPrefix needle (text.drop p)) ∨
      ∃ front needle p, Leftmost text needles front needle p ∧
        findFrom false needles it text = some ⟨1 + front.length, it + p, it + p + needle.length⟩ := by
  induction text generalizing it with
  | nil =>
      refine Or.inl ⟨rfl, fun needle hneedle p h => ?_⟩
      rw [List.drop_nil] at h
      exact (hneedles needle hneedle).ne_nil (List.length_eq_zero_iff.mp (Nat.le_zero.mp h.length_le))
  | cons b text ih =>
      rw [findFrom]
      rcases findAt_cases (b :: text) 0 needles with ⟨hnone, hnot⟩ | ⟨front, needle, hlist, hstands, hfirst, heq⟩
      · rw [hnone]
        rcases ih (it + 1) with ⟨hfail, hnowhere⟩ | ⟨front, needle, p, hleftmost, heq⟩
        · refine Or.inl ⟨hfail, fun needle hneedle p => ?_⟩
          cases p with
          | zero => exact hnot needle hneedle
          | succ p => exact hnowhere needle hneedle p
        · refine Or.inr ⟨front, needle, p + 1, ⟨hleftmost.inList, hleftmost.stands, hleftmost.first, ?_⟩, ?_⟩
          · intro q hq other hother
            cases q with
            | zero => exact hnot other hother
            | succ q => exact hleftmost.leftmost q (Nat.lt_of_succ_lt_succ hq) other hother
          · show findFrom false needles (it + 1) text = _
            rw [heq, Nat.add_assoc it 1 p, Nat.add_comm 1 p]
      · rw [heq]
        refine Or.inr ⟨front, needle, 0, ⟨hlist, hstands, hfirst, fun q hq => absurd hq (Nat.not_lt_zero q)⟩, ?_⟩
        simp [Nat.add_comm]

/-- With needles as they are passed, `find_values` ends, and has the empty result exactly when no needle stands
anywhere. Otherwise it has found the leftmost position where a needle stands, the first needle there, and the
range that it takes up. -/
theorem findValuesLoop_spec (start : ℕ) (haystack : List UInt8) (needles : List (List UInt8))
    (hne : needles ≠ []) (hneedles : ∀ needle ∈ needles, IsNeedle needle) :
    ∃ found, findValuesLoop start haystack (terminated needles) = some found ∧
      (found = .fail ↔ ∀ needle ∈ needles, ∀ p, ¬ FoldPrefix needle (haystack.drop p)) ∧
      (found ≠ .fail → ∃ front needle p, Leftmost haystack needles front needle p ∧
        p + needle.length ≤ haystack.length ∧
        found = ⟨1 + front.length, start + p, start + p + needle.length⟩) := by
  rw [findValuesLoop_eq start haystack hne hneedles]
  rcases findFrom_cases hneedles start haystack with ⟨hfail, hnowhere⟩ | ⟨front, needle, p, hleftmost, heq⟩
  · exact ⟨.fail, hfail, iff_of_true rfl hnowhere, fun h => absurd rfl h⟩
  · have hmem : needle ∈ needles := hleftmost.inList.subset (by simp)
    have hlength := hleftmost.stands.length_le
    have hpos : 0 < needle.length := List.length_pos_of_ne_nil (hneedles needle hmem).ne_nil
    rw [List.length_drop] at hlength
    refine ⟨_, heq, iff_of_false ?_ fun h => h needle hmem p hleftmost.stands,
      fun _ => ⟨front, needle, p, hleftmost, by omega, rfl⟩⟩
    rw [MatchResult.fail, MatchResult.mk.injEq]
    omega

/-- In a text that has `"\r\n"`, the loop finds one of two line ends. -/
theorem findValuesLoop_spec_line :
    ∃ found, findValuesLoop 0 [97, 13, 10] (terminated [[10], [13, 10]]) = some found ∧ found ≠ .fail := by
  obtain ⟨found, hfound, hiff, -⟩ := findValuesLoop_spec 0 [97, 13, 10] [[10], [13, 10]] (by decide) (by
    intro needle hneedle
    rcases List.mem_pair.mp hneedle with rfl | rfl
    · exact ⟨by decide, by decide⟩
    · exact ⟨by decide, by decide⟩)
  exact ⟨found, hfound, fun h => hiff.mp h [10] (by decide) 2 (by decide)⟩

end Utils

end NavekFiber
