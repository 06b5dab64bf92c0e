import NavekFiber.Machine.Bytes
import NavekFiber.Machine.Memory

/-! # Searching in received bytes: `findmatch.h`

`match_values` asks which needle a range of memory begins with, `find_values` where a needle occurs
first, `find_char` where a character of a list occurs first. All results are a number, zero for
"none", and two pointers. Letters are compared through `icase_ascii_table`, except by `find_char`.
`none` stands for a read outside the mapped memory. -/

namespace NavekFiber

namespace Utils

/-- `icase_ascii_table`: the letters `a` to `z` become capitals, everything else stays. -/
def icaseAscii (b : UInt8) : UInt8 := if 0x61 ≤ b ∧ b ≤ 0x7a then b - 0x20 else b

/-- `match_result`; the pointers are offsets. -/
structure MatchResult where
  /-- The number of what was found, from 1; zero when nothing was. -/
  result : ℕ
  /-- `begin()`. -/
  start : ℕ
  /-- `end()`. -/
  stop : ℕ
  deriving DecidableEq, Repr

/-- `return {}`. -/
def MatchResult.fail : MatchResult := ⟨0, 0, 0⟩

/-- How the comparison of a needle with what stands in the haystack ends. -/
inductive Compared
  /-- The needle stands in the haystack. -/
  | matched
  /-- Some character differs. -/
  | mismatch
  /-- The haystack ends within the needle. -/
  | exhausted
  deriving DecidableEq, Repr

/-- The comparison of a needle with a haystack, character by character. -/
def compareNeedle (cut : Bool) : List UInt8 → List UInt8 → Option Compared
  | [], _ => some .matched
  | _ :: _, [] => if cut then none else some .exhausted
  | c :: needle, b :: haystack =>
      if icaseAscii b ≠ icaseAscii c then some .mismatch else compareNeedle cut needle haystack

/-- The loop of `match_values` over the needles from number `index` on. It ends, without a result, at
the first needle that the haystack is too short for. -/
def matchFrom (haystack : Slice) : ℕ → List (List UInt8) → Option MatchResult
  | _, [] => some .fail
  | index, needle :: needles =>
      match compareNeedle haystack.cut needle haystack.bytes with
      | none => none
      | some .matched => some ⟨index + 1, haystack.start, haystack.start + needle.length⟩
      | some .mismatch => matchFrom haystack (index + 1) needles
      | some .exhausted => some .fail

/-- `match_values`. -/
def matchValues (haystack : Slice) (needles : List (List UInt8)) : Option MatchResult :=
  matchFrom haystack 0 needles

/-- The turns of the loop of `find_values` at one position: the number and length of the first
needle, from number `index` on, that stands there. -/
def findAt (cut : Bool) (haystack : List UInt8) : ℕ → List (List UInt8) → Option (Option (ℕ × ℕ))
  | _, [] => some none
  | index, needle :: needles =>
      match compareNeedle cut needle haystack with
      | none => none
      | some .matched => some (some (index + 1, needle.length))
      | some _ => findAt cut haystack (index + 1) needles

/-- The loop of `find_values` from the position `it` on. -/
def findFrom (cut : Bool) (needles : List (List UInt8)) : ℕ → List UInt8 → Option MatchResult
  | _, [] => if cut then none else some .fail
  | it, b :: haystack =>
      match findAt cut (b :: haystack) 0 needles with
      | none => none
      | some (some (result, length)) => some ⟨result, it, it + length⟩
      | some none => findFrom cut needles (it + 1) haystack

/-- `find_values`. -/
def findValues (haystack : Slice) (needles : List (List UInt8)) : Option MatchResult :=
  findFrom haystack.cut needles haystack.start haystack.bytes

/-- `(size_t)(charlist - ch) + 1` for the character number `index` of the list, from 0. -/
def charResult (index : ℕ) : ℕ := (2 ^ 64 - index + 1) % 2 ^ 64

/-- The loop of `find_char` from the position `it` on; every result starts at `start`. -/
def findCharFrom (cut : Bool) (charlist : List UInt8) (start : ℕ) :
    ℕ → List UInt8 → Option MatchResult
  | it, [] => if cut then none else some ⟨0, start, it⟩
  | it, b :: haystack =>
      match charlist.findIdx? fun ch => decide (b = ch) with
      | some index => some ⟨charResult index, start, it + 1⟩
      | none => findCharFrom cut charlist start (it + 1) haystack

/-- `find_char`. -/
def findChar (haystack : Slice) (charlist : List UInt8) : Option MatchResult :=
  findCharFrom haystack.cut charlist haystack.start haystack.start haystack.bytes

section Turns

variable {cut : Bool} {needle haystack : List UInt8} {needles : List (List UInt8)} {c b : UInt8}
  {index it : ℕ}

@[simp] theorem compareNeedle_nil : compareNeedle cut [] haystack = some .matched := rfl

@[simp] theorem compareNeedle_cons_nil :
    compareNeedle cut (c :: needle) [] = if cut then none else some .exhausted := rfl

@[simp] theorem compareNeedle_cons_cons :
    compareNeedle cut (c :: needle) (b :: haystack) =
      if icaseAscii b ≠ icaseAscii c then some .mismatch else compareNeedle cut needle haystack := rfl

@[simp] theorem findAt_nil : findAt cut haystack index [] = some none := rfl

@[simp] theorem findAt_cons :
    findAt cut haystack index (needle :: needles) =
      match compareNeedle cut needle haystack with
      | none => none
      | some .matched => some (some (index + 1, needle.length))
      | some _ => findAt cut haystack (index + 1) needles := rfl

end Turns

/-! ### Comparing needles -/

/-- The first text begins the second one, up to the case of letters. -/
def FoldPrefix (needle text : List UInt8) : Prop :=
  needle.map icaseAscii <+: text.map icaseAscii

instance (needle text : List UInt8) : Decidable (FoldPrefix needle text) :=
  inferInstanceAs (Decidable (_ <+: _))

/-- The text ends within the needle, and agrees with it up to there. -/
def StopsWithin (text needle : List UInt8) : Prop :=
  FoldPrefix text needle ∧ text.length < needle.length

instance (text needle : List UInt8) : Decidable (StopsWithin text needle) :=
  inferInstanceAs (Decidable (_ ∧ _))

/-- No needle begins another one, up to the case of letters. -/
def PrefixFree (needles : List (List UInt8)) : Prop :=
  ∀ a ∈ needles, ∀ b ∈ needles, FoldPrefix a b → a = b

instance (needles : List (List UInt8)) : Decidable (PrefixFree needles) :=
  inferInstanceAs (Decidable (∀ a ∈ needles, ∀ b ∈ needles, FoldPrefix a b → a = b))

variable {cut : Bool} {needle text : List UInt8} {needles : List (List UInt8)}

@[simp] theorem foldPrefix_nil : FoldPrefix [] text := List.nil_prefix

@[simp] theorem foldPrefix_cons_cons {c b : UInt8} :
    FoldPrefix (c :: needle) (b :: text)
      ↔ icaseAscii c = icaseAscii b ∧ FoldPrefix needle text := by
  simp [FoldPrefix, List.cons_prefix_cons]

@[simp] theorem not_foldPrefix_cons_nil {c : UInt8} : ¬ FoldPrefix (c :: needle) [] := by
  simp [FoldPrefix]

/-- A text that begins with a needle is at least as long as the needle. -/
theorem FoldPrefix.length_le (h : FoldPrefix needle text) : needle.length ≤ text.length := by
  simpa using List.IsPrefix.length_le h

/-- `compareNeedle` finds the needle, or runs into the end of a text that ends within it, or finds a difference. -/
theorem compareNeedle_eq (cut : Bool) (needle text : List UInt8) :
    compareNeedle cut needle text =
      if FoldPrefix needle text then some .matched
      else if FoldPrefix text needle then (if cut then none else some .exhausted)
      else some .mismatch := by
  induction needle generalizing text with
  | nil => simp
  | cons c needle ih =>
      cases text with
      | nil => simp
      | cons b text =>
          by_cases h : icaseAscii b = icaseAscii c
          · simp [ih, h]
          · have h' : ¬ icaseAscii c = icaseAscii b := fun heq => h heq.symm
            simp [h, h']

/-- `compareNeedle` finds the needle when the text begins with it. -/
theorem compareNeedle_of_foldPrefix (h : FoldPrefix needle text) :
    compareNeedle cut needle text = some .matched := by
  rw [compareNeedle_eq, if_pos h]

/-- `compareNeedle` runs into the end of a text that ends within the needle. -/
theorem compareNeedle_of_stopsWithin (h : StopsWithin text needle) :
    compareNeedle cut needle text = if cut then none else some .exhausted := by
  have hnot : ¬ FoldPrefix needle text := fun hpre => by
    have := hpre.length_le
    have := h.2
    omega
  rw [compareNeedle_eq, if_neg hnot, if_pos h.1]

/-- `compareNeedle` finds a difference when the text neither begins with the needle nor ends within it. -/
theorem compareNeedle_of_not (hpre : ¬ FoldPrefix needle text) (hstop : ¬ StopsWithin text needle) :
    compareNeedle cut needle text = some .mismatch := by
  have hnot : ¬ FoldPrefix text needle := by
    intro h
    refine hstop ⟨h, ?_⟩
    by_contra hle
    have hmap : text.map icaseAscii = needle.map icaseAscii :=
      List.IsPrefix.eq_of_length_le h (by simpa using hle)
    exact hpre (by rw [FoldPrefix, hmap])
  rw [compareNeedle_eq, if_neg hpre, if_neg hnot]

/-- A text that begins with one of `PrefixFree` needles does not end within another one. -/
theorem PrefixFree.not_stopsWithin (hfree : PrefixFree needles) {a b : List UInt8} (ha : a ∈ needles)
    (hb : b ∈ needles) (hpre : FoldPrefix a text) : ¬ StopsWithin text b := by
  rintro ⟨hstop, hlt⟩
  have hab : a = b := hfree a ha b hb (List.IsPrefix.trans hpre hstop)
  have := hpre.length_le
  rw [hab] at this
  omega

/-- The rest of a list of `PrefixFree` needles is `PrefixFree`. -/
theorem PrefixFree.of_cons (hfree : PrefixFree (needle :: needles)) : PrefixFree needles :=
  fun a ha b hb => hfree a (List.mem_cons_of_mem _ ha) b (List.mem_cons_of_mem _ hb)

/-- `match_values` finds the needle that the haystack begins with. -/
theorem matchFrom_of_foldPrefix {haystack : Slice} (hfree : PrefixFree needles)
    (hmem : needle ∈ needles) (hpre : FoldPrefix needle haystack.bytes) (index : ℕ) :
    matchFrom haystack index needles =
      some ⟨index + needles.idxOf needle + 1, haystack.start, haystack.start + needle.length⟩ := by
  induction needles generalizing index with
  | nil => simp at hmem
  | cons first needles ih =>
      by_cases heq : first = needle
      · subst heq
        simp [matchFrom, compareNeedle_of_foldPrefix hpre]
      · have hrest : needle ∈ needles := (List.mem_cons.mp hmem).resolve_left fun h => heq h.symm
        have hnot : ¬ FoldPrefix first haystack.bytes := by
          intro hfirst
          rcases List.prefix_or_prefix_of_prefix hfirst hpre with h | h
          · exact heq (hfree first List.mem_cons_self needle hmem h)
          · exact heq (hfree needle hmem first List.mem_cons_self h).symm
        have hstop := hfree.not_stopsWithin hmem List.mem_cons_self hpre
        rw [matchFrom, compareNeedle_of_not hnot hstop]
        simp only
        rw [ih hfree.of_cons hrest, List.idxOf_cons_ne _ heq]
        congr 2
        omega

/-- `match_values` runs into the end of a haystack that ends within a needle. -/
theorem matchFrom_of_stopsWithin {haystack : Slice} (hfree : PrefixFree needles)
    (hmem : needle ∈ needles) (hstop : StopsWithin haystack.bytes needle) (index : ℕ) :
    matchFrom haystack index needles = if haystack.cut then none else some .fail := by
  induction needles generalizing index with
  | nil => simp at hmem
  | cons first needles ih =>
      have hnot : ¬ FoldPrefix first haystack.bytes := fun hfirst =>
        hfree.not_stopsWithin List.mem_cons_self hmem hfirst hstop
      by_cases hfirst : StopsWithin haystack.bytes first
      · rw [matchFrom, compareNeedle_of_stopsWithin hfirst]
        split <;> simp_all
      · have hrest : needle ∈ needles :=
          (List.mem_cons.mp hmem).resolve_left fun h => hfirst (h ▸ hstop)
        rw [matchFrom, compareNeedle_of_not hnot hfirst]
        exact ih hfree.of_cons hrest (index + 1)

/-- `match_values` finds nothing when the haystack neither begins with a needle nor ends within one. -/
theorem matchFrom_of_not {haystack : Slice} (hpre : ∀ needle ∈ needles, ¬ FoldPrefix needle haystack.bytes)
    (hstop : ∀ needle ∈ needles, ¬ StopsWithin haystack.bytes needle) (index : ℕ) :
    matchFrom haystack index needles = some .fail := by
  induction needles generalizing index with
  | nil => rfl
  | cons first needles ih =>
      rw [matchFrom, compareNeedle_of_not (hpre first List.mem_cons_self)
        (hstop first List.mem_cons_self)]
      exact ih (fun n hn => hpre n (List.mem_cons_of_mem _ hn))
        (fun n hn => hstop n (List.mem_cons_of_mem _ hn)) (index + 1)

/-- What `match_values` finds ends in the haystack. -/
theorem matchFrom_stop_le {haystack : Slice} {found : MatchResult} {index : ℕ}
    (h : matchFrom haystack index needles = some found) (hne : found.result ≠ 0) :
    found.stop ≤ haystack.start + haystack.bytes.length := by
  induction needles generalizing index with
  | nil =>
      obtain rfl := Option.some.inj h
      exact absurd rfl hne
  | cons first needles ih =>
      rw [matchFrom, compareNeedle_eq] at h
      by_cases hpre : FoldPrefix first haystack.bytes
      · rw [if_pos hpre] at h
        obtain rfl := Option.some.inj h
        exact Nat.add_le_add_left hpre.length_le _
      · rw [if_neg hpre] at h
        by_cases hstop : FoldPrefix haystack.bytes first
        · rw [if_pos hstop] at h
          cases hcut : haystack.cut with
          | true => simp [hcut] at h
          | false =>
              simp only [hcut, Bool.false_eq_true, if_false, Option.some.injEq] at h
              exact absurd (h ▸ rfl) hne
        · rw [if_neg hstop] at h
          exact ih h

/-! ### Finding a character -/

/-- The first character of the list that occurs in the text decides the result of `findCharFrom`. -/
theorem findCharFrom_append {charlist before after : List UInt8} {c : UInt8} (start it : ℕ)
    (hbefore : ∀ b ∈ before, b ∉ charlist) (hc : c ∈ charlist) :
    findCharFrom cut charlist start it (before ++ c :: after) =
      some ⟨charResult (charlist.idxOf c), start, it + before.length + 1⟩ := by
  induction before generalizing it with
  | nil =>
      have hidx : charlist.findIdx? (fun ch => decide (c = ch)) = some (charlist.idxOf c) := by
        rw [List.findIdx?_eq_some_iff_findIdx_eq]
        refine ⟨List.idxOf_lt_length_iff.mpr hc, ?_⟩
        rw [List.idxOf]
        congr 1
        funext ch
        rw [Bool.eq_iff_iff, decide_eq_true_eq, beq_iff_eq]
        exact eq_comm
      simp [findCharFrom, hidx]
  | cons b before ih =>
      have hnone : charlist.findIdx? (fun ch => decide (b = ch)) = none := by
        rw [List.findIdx?_eq_none_iff]
        intro ch hch
        have : b ≠ ch := fun h => hbefore b List.mem_cons_self (h ▸ hch)
        simpa using this
      rw [List.cons_append, findCharFrom, hnone]
      simp only
      rw [ih (it + 1) fun b hb => hbefore b (List.mem_cons_of_mem _ hb)]
      simp only [List.length_cons]
      congr 2
      omega

/-- A text that has a character of a list has a first one. -/
theorem exists_first (charlist text : List UInt8) (h : ∃ b ∈ text, b ∈ charlist) :
    ∃ before c after, text = before ++ c :: after ∧ (∀ b ∈ before, b ∉ charlist) ∧ c ∈ charlist := by
  induction text with
  | nil => simp at h
  | cons b text ih =>
      by_cases hb : b ∈ charlist
      · exact ⟨[], b, text, rfl, by simp, hb⟩
      · have hrest : ∃ b ∈ text, b ∈ charlist := by
          obtain ⟨c, hc, hmem⟩ := h
          rcases List.mem_cons.mp hc with rfl | hc
          · exact absurd hmem hb
          · exact ⟨c, hc, hmem⟩
        obtain ⟨before, c, after, rfl, hbefore, hc⟩ := ih hrest
        refine ⟨b :: before, c, after, rfl, ?_, hc⟩
        intro x hx
        rcases List.mem_cons.mp hx with rfl | hx
        · exact hb
        · exact hbefore x hx

/-- `findCharFrom` ends behind the first character of the list, or at the end of a text that has none. -/
theorem findCharFrom_cases (cut : Bool) (charlist : List UInt8) (start it : ℕ) (text : List UInt8) :
    (∃ before c after, text = before ++ c :: after ∧ (∀ b ∈ before, b ∉ charlist) ∧ c ∈ charlist ∧
        findCharFrom cut charlist start it text =
          some ⟨charResult (charlist.idxOf c), start, it + before.length + 1⟩) ∨
      findCharFrom cut charlist start it text =
        if cut then none else some ⟨0, start, it + text.length⟩ := by
  by_cases hex : ∃ b ∈ text, b ∈ charlist
  · obtain ⟨before, c, after, rfl, hbefore, hc⟩ := exists_first charlist text hex
    exact Or.inl ⟨before, c, after, rfl, hbefore, hc, findCharFrom_append start it hbefore hc⟩
  · refine Or.inr ?_
    induction text generalizing it with
    | nil => rfl
    | cons b text ih =>
        have hnone : charlist.findIdx? (fun ch => decide (b = ch)) = none := by
          rw [List.findIdx?_eq_none_iff]
          intro ch hch
          have hne : b ≠ ch := fun h => hex ⟨b, List.mem_cons_self, h ▸ hch⟩
          simpa using hne
        rw [findCharFrom, hnone]
        simp only
        rw [ih (it + 1) fun ⟨c, hc, hmem⟩ => hex ⟨c, List.mem_cons_of_mem b hc, hmem⟩, List.length_cons,
          Nat.add_assoc, Nat.add_comm 1]

/-- On a mapped range `find_char` has a result. -/
theorem isSome_findChar {haystack : Slice} (charlist : List UInt8) (hcut : haystack.cut = false) :
    ∃ found, findChar haystack charlist = some found := by
  rw [findChar, hcut]
  rcases findCharFrom_cases false charlist haystack.start haystack.start haystack.bytes with
    ⟨_, _, _, -, -, -, h⟩ | h
  · exact ⟨_, h⟩
  · exact ⟨_, h⟩

/-- What `find_char` has found is the first character of the list in the range. -/
theorem findChar_found {haystack : Slice} {charlist : List UInt8} {found : MatchResult}
    (h : findChar haystack charlist = some found) (hne : found.result ≠ 0) :
    ∃ before c after, haystack.bytes = before ++ c :: after ∧ (∀ b ∈ before, b ∉ charlist) ∧
      c ∈ charlist ∧
      found = ⟨charResult (charlist.idxOf c), haystack.start, haystack.start + before.length + 1⟩ := by
  rcases findCharFrom_cases haystack.cut charlist haystack.start haystack.start haystack.bytes with
    ⟨before, c, after, htext, hbefore, hc, hfound⟩ | hnone
  · exact ⟨before, c, after, htext, hbefore, hc, Option.some.inj (h.symm.trans hfound)⟩
  · have hnone := h.symm.trans hnone
    split at hnone
    · exact absurd hnone (by simp)
    · obtain rfl := Option.some.inj hnone
      exact absurd rfl hne

/-- Whether `find_char` finds anything or not, it ends within the range. -/
theorem findChar_stop_le {haystack : Slice} {charlist : List UInt8} {found : MatchResult}
    (h : findChar haystack charlist = some found) :
    found.stop ≤ haystack.start + haystack.bytes.length := by
  rcases findCharFrom_cases haystack.cut charlist haystack.start haystack.start haystack.bytes with
    ⟨before, c, after, htext, -, -, hfound⟩ | hnone
  · obtain rfl := Option.some.inj (h.symm.trans hfound)
    rw [htext, List.length_append, List.length_cons]
    show _ + _ + 1 ≤ _
    omega
  · have hnone := h.symm.trans hnone
    split at hnone
    · exact absurd hnone (by simp)
    · obtain rfl := Option.some.inj hnone
      exact le_rfl

end Utils

end NavekFiber
