import Mathlib.Data.List.Basic
import Mathlib.Data.List.TakeWhile

/-! # Regular expressions that backtrack

Regular expressions as ECMAScript matches them: an alternative or a repetition tries its ways in order, and
the first way that lets the rest match counts. A group remembers the text it has matched, for references
back to it and for the caller.

* `Regex.exec`: matching from a position on, with a continuation for the rest of the expression.
* `regexSearch`, `regexReplace`: the first match in a text, and replacing all of them.
* `exec_star_one`, `exec_star_greedy`, `exec_star_lazy`: what a repeated class of characters does, from which
  the matches of an expression are computed. -/

universe u

/-- A regular expression over an alphabet. -/
inductive Regex (α : Type u)
  /-- The empty text. -/
  | empty
  /-- One character of a class. -/
  | one (p : α → Bool)
  /-- Two expressions, one after the other. -/
  | seq (r r' : Regex α)
  /-- The first expression, or else the second one. -/
  | alt (r r' : Regex α)
  /-- Any number of times, as often as possible or (not `greedy`) as seldom as possible. -/
  | star (greedy : Bool) (r : Regex α)
  /-- A group with its number. -/
  | group (n : ℕ) (r : Regex α)
  /-- The text that the group has matched; no match while there is none. -/
  | backref (n : ℕ)
  /-- `^`, the beginning of the text. -/
  | atBegin
  /-- `$`, the end of the text. -/
  | atEnd

/-- A position in a text. -/
@[ext] structure Cursor (α : Type u) where
  /-- The number of characters in front of the position. -/
  pos : ℕ
  /-- The characters behind the position. -/
  rest : List α
  /-- What the groups have matched, the latest match first. -/
  groups : List (ℕ × List α)

namespace Cursor

variable {α : Type u}

/-- The position some characters further on. -/
def advance (s : Cursor α) (n : ℕ) : Cursor α := { s with pos := s.pos + n, rest := s.rest.drop n }

/-- Remember what a group has matched. -/
def store (s : Cursor α) (n : ℕ) (text : List α) : Cursor α := { s with groups := (n, text) :: s.groups }

/-- What a group has matched last. -/
def str (s : Cursor α) (n : ℕ) : List α := (s.groups.lookup n).getD []

@[simp] theorem advance_zero (s : Cursor α) : s.advance 0 = s := rfl

end Cursor

namespace Regex

variable {α : Type u}

/-- The given character. -/
def char [DecidableEq α] (c : α) : Regex α := one fun d => d = c

/-- One after the other, for any number of expressions. -/
def cat : List (Regex α) → Regex α
  | [] => empty
  | r :: rs => seq r (cat rs)

/-- Once or more often, as often as possible. -/
def plus (r : Regex α) : Regex α := seq r (star true r)

/-- Once if possible. -/
def opt (r : Regex α) : Regex α := alt r empty

/-- A repetition: each further turn must get ahead. The fuel is the number of characters there are. -/
def iterate (greedy : Bool) (body : (Cursor α → Option (Cursor α)) → Cursor α → Option (Cursor α)) :
    ℕ → (Cursor α → Option (Cursor α)) → Cursor α → Option (Cursor α)
  | 0, k, s => k s
  | fuel + 1, k, s =>
      let more := fun _ : Unit =>
        body (fun t => if s.pos < t.pos then iterate greedy body fuel k t else none) s
      if greedy then (more ()).or (k s) else (k s).or (more ())

/-- Match the expression from a position on, and go on with `k`. -/
def exec [DecidableEq α] : Regex α → (Cursor α → Option (Cursor α)) → Cursor α → Option (Cursor α)
  | empty, k, s => k s
  | one p, k, s => if s.rest.head?.any p then k (s.advance 1) else none
  | seq r r', k, s => r.exec (r'.exec k) s
  | alt r r', k, s => (r.exec k s).or (r'.exec k s)
  | star greedy r, k, s => iterate greedy r.exec s.rest.length k s
  | group n r, k, s => r.exec (fun t => k (t.store n (s.rest.take (t.pos - s.pos)))) s
  | backref n, k, s =>
      match s.groups.lookup n with
      | some text => if text <+: s.rest then k (s.advance text.length) else none
      | none => none
  | atBegin, k, s => if s.pos = 0 then k s else none
  | atEnd, k, s => if s.rest = [] then k s else none

end Regex

/-- A match in a text. -/
structure Match (α : Type u) where
  /-- Where the match begins. -/
  start : ℕ
  /-- Where the match ends, and what the groups have matched. -/
  stop : Cursor α

/-- `match.str(n)`. -/
def Match.str {α : Type u} (m : Match α) (n : ℕ) : List α := m.stop.str n

section Search

variable {α : Type u} [DecidableEq α]

/-- The first match from a position on. -/
def searchFrom (r : Regex α) : ℕ → List α → Option (Match α)
  | pos, [] => (r.exec some ⟨pos, [], []⟩).map (⟨pos, ·⟩)
  | pos, c :: rest =>
      match r.exec some ⟨pos, c :: rest, []⟩ with
      | some stop => some ⟨pos, stop⟩
      | none => searchFrom r (pos + 1) rest

/-- `regex_search`. -/
def regexSearch (r : Regex α) (text : List α) : Option (Match α) := searchFrom r 0 text

/-- Replace the matches from a position on. Behind an empty match a match that is not empty is tried at the
same place, and then one character is passed over. -/
def replaceFrom (r : Regex α) (format : Match α → List α) : ℕ → ℕ → List α → List α
  | 0, _, rest => rest
  | fuel + 1, pos, rest =>
      match searchFrom r pos rest with
      | none => rest
      | some m =>
          let front := rest.take (m.start - pos) ++ format m
          if m.start < m.stop.pos then front ++ replaceFrom r format fuel m.stop.pos m.stop.rest
          else
            match m.stop.rest with
            | [] => front
            | c :: behind =>
                match r.exec (fun t => if m.start < t.pos then some t else none)
                    ⟨m.start, c :: behind, []⟩ with
                | some stop => front ++ format ⟨m.start, stop⟩ ++ replaceFrom r format fuel stop.pos stop.rest
                | none => front ++ c :: replaceFrom r format fuel (m.start + 1) behind

/-- `regex_replace`. -/
def regexReplace (r : Regex α) (format : Match α → List α) (text : List α) : List α :=
  replaceFrom r format (text.length + 1) 0 text

end Search

namespace Regex

variable {α : Type u} [DecidableEq α] {r : Regex α} {rs : List (Regex α)} {p : α → Bool}
  {k : Cursor α → Option (Cursor α)} {s t : Cursor α} {u v : List α} {pos : ℕ} {groups : List (ℕ × List α)}

/-! ### Matching from a position on -/

@[simp] theorem exec_cat_cons : (cat (r :: rs)).exec k s = r.exec ((cat rs).exec k) s := rfl

@[simp] theorem exec_group (n : ℕ) :
    (group n r).exec k s = r.exec (fun t => k (t.store n (s.rest.take (t.pos - s.pos)))) s := rfl

@[simp] theorem exec_alt {r' : Regex α} : (alt r r').exec k s = (r.exec k s).or (r'.exec k s) := rfl

@[simp] theorem exec_atBegin : (atBegin (α := α)).exec k s = if s.pos = 0 then k s else none := rfl

@[simp] theorem exec_atEnd : (atEnd (α := α)).exec k s = if s.rest = [] then k s else none := rfl

@[simp] theorem exec_plus : (plus r).exec k s = r.exec ((star true r).exec k) s := rfl

@[simp] theorem exec_one_cons {c : α} :
    (one p).exec k ⟨pos, c :: v, groups⟩ = if p c then k ⟨pos + 1, v, groups⟩ else none := rfl

@[simp] theorem exec_char_cons {c d : α} :
    (char d).exec k ⟨pos, c :: v, groups⟩ = if c = d then k ⟨pos + 1, v, groups⟩ else none := by
  rw [char, exec_one_cons]
  simp only [decide_eq_true_eq]

/-- When an expression that is a class matches, its character is the first one behind the position. -/
theorem exists_of_exec_one (h : (one p).exec k s = some t) :
    ∃ c v, s.rest = c :: v ∧ p c = true ∧ k ⟨s.pos + 1, v, s.groups⟩ = some t := by
  obtain ⟨pos, rest, groups⟩ := s
  cases rest with
  | nil => cases h
  | cons c v =>
      rw [exec_one_cons] at h
      split at h
      · rename_i hc
        exact ⟨c, v, rfl, hc, h⟩
      · cases h

/-- How far a repeated class can go. -/
def reach (p : α → Bool) (s : Cursor α) : ℕ := (s.rest.takeWhile p).length

/-- A repeated class stops at the first place, from far to near or (not `greedy`) from near to far, that lets
the rest match. -/
theorem exec_star_one (greedy : Bool) (p : α → Bool) (k : Cursor α → Option (Cursor α)) (s : Cursor α) :
    (star greedy (one p)).exec k s =
      (if greedy then (List.range (reach p s + 1)).reverse else List.range (reach p s + 1)).findSome?
        fun n => k (s.advance n) := by
  obtain ⟨pos, rest, groups⟩ := s
  rw [exec]
  induction rest generalizing pos with
  | nil => cases greedy <;> simp [reach, iterate]
  | cons c rest ih =>
      by_cases hc : p c = true
      · have hreach : reach p ⟨pos, c :: rest, groups⟩ = reach p ⟨pos + 1, rest, groups⟩ + 1 := by
          rw [reach, List.takeWhile_cons_of_pos hc]
          rfl
        have hmore : (one p).exec
            (fun t => if pos < t.pos then iterate greedy (one p).exec rest.length k t else none)
            ⟨pos, c :: rest, groups⟩ = iterate greedy (one p).exec rest.length k ⟨pos + 1, rest, groups⟩ := by
          rw [exec_one_cons, if_pos hc, if_pos (Nat.lt_succ_self pos)]
        have hnext : (fun n => k ((Cursor.mk pos (c :: rest) groups).advance n)) ∘ Nat.succ =
            fun n => k ((Cursor.mk (pos + 1) rest groups).advance n) := by
          funext n
          simp [Cursor.advance, Nat.add_assoc, Nat.add_comm 1 n]
        have hrange : List.range (reach p ⟨pos + 1, rest, groups⟩ + 1 + 1) =
            0 :: (List.range (reach p ⟨pos + 1, rest, groups⟩ + 1)).map Nat.succ :=
          List.range_succ_eq_map
        rw [List.length_cons, iterate, hreach, hrange]
        simp only [hmore, ih (pos + 1)]
        cases greedy with
        | true =>
            simp only [if_true, List.reverse_cons, List.findSome?_append, ← List.map_reverse,
              List.findSome?_map, hnext, List.findSome?_singleton, Cursor.advance_zero]
        | false =>
            simp only [Bool.false_eq_true, if_false, List.findSome?_cons, List.findSome?_map, hnext,
              Cursor.advance_zero]
            cases k ⟨pos, c :: rest, groups⟩ <;> rfl
      · -- The class ends here.
        have hreach : reach p ⟨pos, c :: rest, groups⟩ = 0 := by
          rw [reach, List.takeWhile_cons_of_neg hc]
          rfl
        rw [List.length_cons, iterate, hreach]
        simp only [exec_one_cons, if_neg hc]
        cases greedy <;> simp

/-- The places where a repeated class can stop. -/
theorem exists_of_exec_star {greedy : Bool} (h : (star greedy (one p)).exec k s = some t) :
    ∃ u v, s.rest = u ++ v ∧ (∀ c ∈ u, p c = true) ∧ k ⟨s.pos + u.length, v, s.groups⟩ = some t := by
  rw [exec_star_one] at h
  obtain ⟨n, hn, hk⟩ := List.exists_of_findSome?_eq_some h
  have hle : n ≤ (s.rest.takeWhile p).length := by
    cases greedy <;> simpa [reach, Nat.lt_succ_iff] using hn
  have hsplit : s.rest.take n = (s.rest.takeWhile p).take n := by
    conv_lhs => rw [← List.takeWhile_append_dropWhile (p := p) (l := s.rest)]
    rw [List.take_append_of_le_length hle]
  have hlength : (s.rest.take n).length = n :=
    List.length_take_of_le (hle.trans (List.takeWhile_prefix p).length_le)
  refine ⟨s.rest.take n, s.rest.drop n, (List.take_append_drop n s.rest).symm, fun c hc => ?_, ?_⟩
  · rw [hsplit] at hc
    exact List.mem_takeWhile_imp (List.mem_of_mem_take hc)
  · rw [hlength]
    exact hk

/-- A greedy class goes as far as it can, if the rest matches there. -/
theorem exec_star_greedy (hu : ∀ c ∈ u, p c = true) (hv : ∀ c ∈ v.head?, p c ≠ true)
    (hk : k ⟨pos + u.length, v, groups⟩ = some t) :
    (star true (one p)).exec k ⟨pos, u ++ v, groups⟩ = some t := by
  have hreach : reach p ⟨pos, u ++ v, groups⟩ = u.length := by
    have hstop : v.takeWhile p = [] := by
      cases v with
      | nil => rfl
      | cons c v => exact List.takeWhile_cons_of_neg (hv c rfl)
    rw [reach, List.takeWhile_append_of_pos hu, hstop, List.append_nil]
  have hadvance : (Cursor.mk pos (u ++ v) groups).advance u.length = ⟨pos + u.length, v, groups⟩ := by
    simp [Cursor.advance]
  rw [exec_star_one, hreach, List.range_succ, if_pos rfl, List.reverse_append]
  show List.findSome? _ (u.length :: _) = _
  rw [List.findSome?_cons, hadvance, hk]

/-- A lazy class goes only as far as it must. -/
theorem exec_star_lazy (hu : ∀ c ∈ u, p c = true) (hk : k ⟨pos + u.length, v, groups⟩ = some t)
    (hnone : ∀ u' c u'', u = u' ++ c :: u'' → k ⟨pos + u'.length, c :: u'' ++ v, groups⟩ = none) :
    (star false (one p)).exec k ⟨pos, u ++ v, groups⟩ = some t := by
  rw [exec_star_one]
  simp only [Bool.false_eq_true, if_false]
  have hreach : u.length ≤ reach p ⟨pos, u ++ v, groups⟩ := by
    rw [reach, List.takeWhile_append_of_pos hu, List.length_append]
    omega
  have hadvance : (Cursor.mk pos (u ++ v) groups).advance u.length = ⟨pos + u.length, v, groups⟩ := by
    simp [Cursor.advance]
  obtain ⟨m, hm⟩ : ∃ m, reach p ⟨pos, u ++ v, groups⟩ + 1 = u.length + (m + 1) :=
    ⟨reach p ⟨pos, u ++ v, groups⟩ - u.length, by omega⟩
  -- The places in front of the text all fail.
  have hfirst : (List.range u.length).findSome? (fun n => k ((Cursor.mk pos (u ++ v) groups).advance n))
      = none := by
    rw [List.findSome?_eq_none_iff]
    intro n hn
    have hlt : n < u.length := List.mem_range.mp hn
    obtain ⟨c, u'', hdrop⟩ := List.exists_cons_of_length_pos (l := u.drop n) (by rw [List.length_drop]; omega)
    have hsplit : u = u.take n ++ c :: u'' := by rw [← hdrop, List.take_append_drop]
    have hfail := hnone _ _ _ hsplit
    rw [List.length_take_of_le hlt.le, ← hdrop] at hfail
    rw [← hfail, Cursor.advance]
    simp only
    rw [List.drop_append_of_le_length hlt.le]
  rw [hm, List.range_add, List.findSome?_append, hfirst, Option.none_or, List.findSome?_map,
    List.range_succ_eq_map, List.findSome?_cons]
  simp only [Function.comp_apply, Nat.add_zero, hadvance, hk]

/-! ### Groups of one class -/

/-- A group whose class is repeated remembers what it passes over. -/
theorem exists_of_exec_group_star {greedy : Bool} {n : ℕ}
    (h : (group n (star greedy (one p))).exec k s = some t) :
    ∃ u v, s.rest = u ++ v ∧ (∀ c ∈ u, p c = true) ∧ k ⟨s.pos + u.length, v, (n, u) :: s.groups⟩ = some t := by
  rw [exec_group] at h
  obtain ⟨u, v, hsplit, hu, hk⟩ := exists_of_exec_star h
  refine ⟨u, v, hsplit, hu, ?_⟩
  rwa [hsplit, Cursor.store, Nat.add_sub_cancel_left, List.take_left] at hk

theorem exists_of_exec_group_plus {n : ℕ} (h : (group n (plus (one p))).exec k s = some t) :
    ∃ u v, s.rest = u ++ v ∧ u ≠ [] ∧ (∀ c ∈ u, p c = true) ∧
      k ⟨s.pos + u.length, v, (n, u) :: s.groups⟩ = some t := by
  rw [exec_group, exec_plus] at h
  obtain ⟨c, rest, hfirst, hc, h⟩ := exists_of_exec_one h
  obtain ⟨u, v, hsplit, hu, hk⟩ := exists_of_exec_star h
  obtain rfl : rest = u ++ v := hsplit
  have hlength : s.pos + 1 + u.length = s.pos + (c :: u).length := by
    rw [List.length_cons]
    omega
  refine ⟨c :: u, v, hfirst, List.cons_ne_nil c u, List.forall_mem_cons.mpr ⟨hc, hu⟩, ?_⟩
  rwa [hfirst, Cursor.store, hlength, Nat.add_sub_cancel_left, ← List.cons_append, List.take_left] at hk

theorem exec_group_plus {n : ℕ} (hnil : u ≠ []) (hu : ∀ c ∈ u, p c = true) (hv : ∀ c ∈ v.head?, p c ≠ true)
    (hk : k ⟨pos + u.length, v, (n, u) :: groups⟩ = some t) :
    (group n (plus (one p))).exec k ⟨pos, u ++ v, groups⟩ = some t := by
  obtain ⟨c, u, rfl⟩ := List.exists_cons_of_ne_nil hnil
  obtain ⟨hc, hu⟩ := List.forall_mem_cons.mp hu
  have hlength : pos + 1 + u.length = pos + (c :: u).length := by
    rw [List.length_cons]
    omega
  rw [exec_group, exec_plus, List.cons_append, exec_one_cons, if_pos hc]
  refine exec_star_greedy hu hv ?_
  rwa [hlength, Cursor.store, Nat.add_sub_cancel_left, ← List.cons_append, List.take_left]

theorem exec_group_lazy {n : ℕ} (hu : ∀ c ∈ u, p c = true)
    (hk : k ⟨pos + u.length, v, (n, u) :: groups⟩ = some t)
    (hnone : ∀ u' c u'', u = u' ++ c :: u'' →
      k ⟨pos + u'.length, c :: u'' ++ v, (n, u') :: groups⟩ = none) :
    (group n (star false (one p))).exec k ⟨pos, u ++ v, groups⟩ = some t := by
  rw [exec_group]
  refine exec_star_lazy hu ?_ fun u' c u'' hsplit => ?_
  · rwa [Cursor.store, Nat.add_sub_cancel_left, List.take_left]
  · rw [Cursor.store, Nat.add_sub_cancel_left, hsplit, List.append_assoc, List.take_left]
    exact hnone u' c u'' hsplit

/-- An expression that is a given text matches when the text is at the position, and goes on behind it. -/
theorem exec_cat_char (w : List α) :
    (cat (w.map char)).exec k ⟨pos, v, groups⟩ =
      if w <+: v then k ⟨pos + w.length, v.drop w.length, groups⟩ else none := by
  induction w generalizing pos v with
  | nil => rfl
  | cons c w ih =>
      rw [List.map_cons, exec_cat_cons]
      cases v with
      | nil => simp [char, exec]
      | cons d v =>
          rw [exec_char_cons]
          by_cases hc : d = c
          · subst hc
            rw [if_pos rfl, ih]
            simp only [List.cons_prefix_cons, true_and, List.length_cons, List.drop_succ_cons]
            rw [Nat.add_assoc, Nat.add_comm 1]
          · have hcd : ¬ c = d := fun h => hc h.symm
            simp [hc, hcd, List.cons_prefix_cons]

/-! ### The end of the text -/

/-- A repeated class that has the end of the text behind it has passed over all of it. -/
theorem of_exec_star_atEnd (h : (star true (one p)).exec ((cat [atEnd]).exec k) ⟨pos, v, groups⟩ = some t) :
    v.all p = true ∧ k ⟨pos + v.length, [], groups⟩ = some t := by
  obtain ⟨u, w, hsplit, hu, hstop⟩ := exists_of_exec_star h
  rw [exec_cat_cons, exec_atEnd] at hstop
  split at hstop
  · rename_i hnil
    obtain rfl : w = [] := hnil
    rw [List.append_nil] at hsplit
    obtain rfl : v = u := hsplit
    exact ⟨List.all_eq_true.mpr hu, hstop⟩
  · cases hstop

@[simp] theorem exec_star_atEnd :
    (star true (one p)).exec ((cat [atEnd]).exec k) ⟨pos, v, groups⟩ =
      if v.all p then k ⟨pos + v.length, [], groups⟩ else none := by
  split
  · rename_i hall
    cases hk : k ⟨pos + v.length, [], groups⟩ with
    | some t =>
        have hstar := exec_star_greedy (List.all_eq_true.mp hall) (v := []) (by simp)
          (show (cat [atEnd]).exec k ⟨pos + v.length, [], groups⟩ = some t from hk)
        rwa [List.append_nil] at hstar
    | none =>
        rw [Option.eq_none_iff_forall_not_mem]
        intro t ht
        have hstop := (of_exec_star_atEnd ht).2
        rw [hk] at hstop
        cases hstop
  · rename_i hall
    rw [Option.eq_none_iff_forall_not_mem]
    exact fun t ht => hall (of_exec_star_atEnd ht).1

/-! ### Searching -/

variable {m : Match α} {format : Match α → List α} {text : List α} {stop : Cursor α}

theorem searchFrom_of_exec (h : r.exec some ⟨pos, v, []⟩ = some stop) :
    searchFrom r pos v = some ⟨pos, stop⟩ := by
  cases v with
  | nil => rw [searchFrom, h, Option.map_some]
  | cons c v => rw [searchFrom, h]

/-- Places where nothing matches are passed over. -/
theorem searchFrom_append
    (h : ∀ u' c u'', u = u' ++ c :: u'' → r.exec some ⟨pos + u'.length, c :: u'' ++ v, []⟩ = none) :
    searchFrom r pos (u ++ v) = searchFrom r (pos + u.length) v := by
  induction u generalizing pos with
  | nil => rfl
  | cons c u ih =>
      have hfirst := h [] c u rfl
      rw [List.length_nil, Nat.add_zero, List.cons_append] at hfirst
      rw [List.cons_append, searchFrom, hfirst]
      show searchFrom r (pos + 1) (u ++ v) = _
      rw [ih, List.length_cons, Nat.add_assoc, Nat.add_comm 1]
      intro u' c' u'' hsplit
      have hlater := h (c :: u') c' u'' (by rw [hsplit]; rfl)
      rwa [List.length_cons, Nat.add_comm u'.length 1, ← Nat.add_assoc] at hlater

/-- When what matches at a position depends on the characters behind it only, a search takes the first place
in the text that has a match. -/
theorem map_searchFrom {β : Type*} {f : List α → Option β} {g : Cursor α → β}
    (h : ∀ pos v, (r.exec some ⟨pos, v, []⟩).map g = f v) :
    (searchFrom r pos text).map (fun m => g m.stop) = text.tails.findSome? f := by
  induction text generalizing pos with
  | nil =>
      rw [searchFrom, List.tails, List.findSome?_singleton, ← h pos, Option.map_map]
      rfl
  | cons c text ih =>
      rw [searchFrom, List.tails, List.findSome?_cons, ← h pos]
      cases r.exec some ⟨pos, c :: text, []⟩ with
      | some stop => rfl
      | none => exact ih

/-- A search fails when the expression matches at no position. -/
theorem searchFrom_eq_none (h : ∀ u v, text = u ++ v → r.exec some ⟨pos + u.length, v, []⟩ = none) :
    searchFrom r pos text = none := by
  rw [← List.append_nil text, searchFrom_append]
  · rw [searchFrom, h text [] (List.append_nil text).symm, Option.map_none]
  · intro u' c u'' hsplit
    rw [List.append_nil]
    exact h u' (c :: u'') hsplit

/-- An expression that begins with `^` matches at the beginning of the text only. -/
theorem searchFrom_atBegin (hpos : 0 < pos) : searchFrom (cat (atBegin :: rs)) pos text = none :=
  searchFrom_eq_none fun u v _ => by
    rw [exec_cat_cons, exec_atBegin, if_neg]
    show pos + u.length ≠ 0
    omega

theorem regexSearch_atBegin :
    regexSearch (cat (atBegin :: rs)) text = ((cat rs).exec some ⟨0, text, []⟩).map (⟨0, ·⟩) := by
  have hbegin : (cat (atBegin :: rs)).exec some ⟨0, text, []⟩ = (cat rs).exec some ⟨0, text, []⟩ := rfl
  cases h : (cat rs).exec some ⟨0, text, []⟩ with
  | some stop => exact searchFrom_of_exec (hbegin.trans h)
  | none =>
      rw [regexSearch, Option.map_none]
      cases text with
      | nil => rw [searchFrom, hbegin, h, Option.map_none]
      | cons c text =>
          rw [searchFrom, hbegin, h]
          exact searchFrom_atBegin Nat.one_pos

theorem regexSearch_of_exec (h : (cat rs).exec some ⟨0, text, []⟩ = some stop) :
    regexSearch (cat (atBegin :: rs)) text = some ⟨0, stop⟩ := by
  rw [regexSearch_atBegin, h, Option.map_some]

theorem exists_of_regexSearch (h : regexSearch (cat (atBegin :: rs)) text = some m) :
    (cat rs).exec some ⟨0, text, []⟩ = some m.stop := by
  rw [regexSearch_atBegin, Option.map_eq_some_iff] at h
  obtain ⟨stop, h, rfl⟩ := h
  exact h

/-! ### Replacing -/

theorem regexReplace_of_eq_none (h : regexSearch r text = none) : regexReplace r format text = text := by
  rw [regexReplace, replaceFrom]
  show (match searchFrom r 0 text with | none => text | some m => _) = text
  rw [show searchFrom r 0 text = none from h]

/-- When the only match ends at the end of the text, `regex_replace` replaces the text from there on. -/
theorem regexReplace_of_stop_nil (h : regexSearch r text = some m) (hstop : m.stop.rest = [])
    (hend : m.start < m.stop.pos → searchFrom r m.stop.pos [] = none) :
    regexReplace r format text = text.take m.start ++ format m := by
  have hsearch : searchFrom r 0 text = some m := h
  rw [regexReplace, replaceFrom, hsearch]
  simp only [Nat.sub_zero, hstop]
  split
  · rename_i hlt
    have hbehind : replaceFrom r format text.length m.stop.pos [] = [] := by
      cases text.length with
      | zero => rfl
      | succ n => rw [replaceFrom, hend hlt]
    rw [hbehind, List.append_nil]
  · rfl

end Regex
