import NavekFiber.Machine.Regex
import NavekFiber.Main.Config
import NavekFiber.Utils.Numbers

/-! # The regular expressions of `initConfig`

What the five expressions match is said here without them: a line that is continued (`search_lineBreak`), a
line without the white space around it (`spaceClean_eq`), a text without its comment
(`removeComment_append_cons`, `removeComment_of_not_mem`), and the values that are quoted
(`lineOf_quoted`). -/

namespace NavekFiber

open Regex Utils

/-- `.`, anything but the end of a line. -/
def isAny (b : UInt8) : Bool := b != 10 && b != 13

/-- `[\w\-:]`. -/
def isNameChar (b : UInt8) : Bool :=
  isDigit b || (65 ≤ b && b ≤ 90) || (97 ≤ b && b ≤ 122) || b == 95 || b == 45 || b == 58

/-- `\s*`. -/
def blanks : Regex UInt8 := star true (one isSpace)

/-- `.*?`. -/
def anything : Regex UInt8 := star false (one isAny)

/-- `re_config_section`, `^\s*(\[+)\s*(.*?)\s*\]+`. -/
def reConfigSection : Regex UInt8 :=
  cat [atBegin, blanks, group 1 (plus (char 91)), blanks, group 2 anything, blanks, plus (char 93)]

/-- `re_config_propety`, `^\s*([\w\-:]+)\s*=\s*(?:("|'|)(.*?)\2)\s*$`. -/
def reConfigPropety : Regex UInt8 :=
  cat [atBegin, blanks, group 1 (plus (one isNameChar)), blanks, char 61, blanks,
    group 2 (alt (char 34) (alt (char 39) empty)), group 3 anything, backref 2, blanks, atEnd]

/-- `re_config_line_break_clean`, `^\s*(.*?)\\\s*$`. -/
def reConfigLineBreakClean : Regex UInt8 :=
  cat [atBegin, blanks, group 1 anything, char 92, blanks, atEnd]

/-- `re_config_space_clean`, `^\s*(.*?)\s*$`. -/
def reConfigSpaceClean : Regex UInt8 := cat [atBegin, blanks, group 1 anything, blanks, atEnd]

/-- `re_config_remove_comment`, `\s*#[^#]*$`. -/
def reConfigRemoveComment : Regex UInt8 := cat [blanks, char 35, star true (one fun b => b != 35), atEnd]

/-- `std::regex_replace(text, re_config_space_clean, "$1")`. -/
def spaceClean (text : Text) : Text := regexReplace reConfigSpaceClean (fun m => m.str 1) text

/-- `std::regex_replace(text, re_config_remove_comment, "")`. -/
def removeComment (text : Text) : Text := regexReplace reConfigRemoveComment (fun _ => []) text

variable {text line u v w w' : Text} {m : Match UInt8}

/-- The first group of `re_config_section` matches at least one bracket. -/
theorem length_str_pos (h : regexSearch reConfigSection text = some m) : 0 < (m.str 1).length := by
  obtain ⟨_, _, _, _, h⟩ := exists_of_exec_star (exists_of_regexSearch h)
  obtain ⟨level, _, _, hlevel, _, h⟩ := exists_of_exec_group_plus h
  obtain ⟨_, _, _, _, h⟩ := exists_of_exec_star h
  obtain ⟨_, _, _, _, h⟩ := exists_of_exec_group_star h
  obtain ⟨_, _, _, _, h⟩ := exists_of_exec_star h
  obtain ⟨_, _, _, _, h⟩ := exists_of_exec_one h
  obtain ⟨_, _, _, _, h⟩ := exists_of_exec_star h
  -- The groups are not touched any more.
  rw [Match.str, ← Option.some.inj h]
  exact List.length_pos_iff.mpr hlevel

/-- A line as `initConfig` classifies it. -/
def lineOf (content : Text) : ConfigLine :=
  match h : regexSearch reConfigSection content with
  | some m => .header (m.str 1).length (length_str_pos h) (removeComment (m.str 2))
  | none =>
      match regexSearch reConfigPropety content with
      | some m => .property (m.str 1) (removeComment (m.str 3))
      | none => .other

/-! ### Lines that are continued -/

/-- The text of a line that is continued, without its backslash: the last character that is no white space is
a backslash, and no other end of a line comes before it. -/
def breakText (line : Text) : Option Text :=
  if (trim line).getLast? = some 92 ∧ ∀ b ∈ (trim line).dropLast, isAny b = true then
    some (trim line).dropLast
  else none

/-- `\s*$` matches just where only white space is left. -/
theorem exec_blanks_atEnd {pos : ℕ} {groups : List (ℕ × Text)} :
    (cat [blanks, atEnd]).exec some ⟨pos, v, groups⟩ =
      if v.all isSpace then some ⟨pos + v.length, [], groups⟩ else none :=
  exec_star_atEnd

/-- The text of a line that ends in a backslash, up to white space, is what stands in front of the backslash, without
the white space it begins with. -/
theorem breakText_append (hw : Blank w) (hw' : Blank w') (hu : ∀ b ∈ u, isAny b = true) :
    breakText (w ++ (u ++ 92 :: w')) = some (u.dropWhile isSpace) := by
  have htrim : trim (w ++ (u ++ 92 :: w')) = u.dropWhile isSpace ++ [92] := by
    have hsplit : w ++ (u ++ 92 :: w') = w ++ ((u ++ [92]) ++ w') := by simp
    rw [hsplit, trim_blanks hw hw', trim_concat (by decide)]
  rw [breakText, htrim, List.dropLast_concat, if_pos]
  exact ⟨List.getLast?_concat, fun b hb => hu b ((List.dropWhile_suffix isSpace).subset hb)⟩

/-- `re_config_line_break_clean` matches a line that ends in a backslash, up to white space, as a whole, with the text
in front of the backslash as its group. -/
theorem search_lineBreak_append (hw : Blank w) (hw' : Blank w') (hu : ∀ b ∈ u, isAny b = true)
    (hfirst : ∀ b ∈ (u ++ 92 :: w').head?, isSpace b ≠ true) :
    regexSearch reConfigLineBreakClean (w ++ (u ++ 92 :: w')) =
      some ⟨0, ⟨0 + w.length + u.length + 1 + w'.length, [], [(1, u)]⟩⟩ := by
  apply regexSearch_of_exec
  -- Up to the last backslash nothing else matches.
  refine exec_star_greedy hw hfirst (exec_group_lazy hu ?_ fun u' c u'' hsplit => ?_)
  · rw [exec_cat_cons, exec_char_cons, if_pos rfl, exec_blanks_atEnd, if_pos (List.all_eq_true.mpr hw')]
  · rw [exec_cat_cons, List.cons_append, exec_char_cons]
    split
    · rw [exec_blanks_atEnd, if_neg]
      simp [isSpace]
    · rfl

/-- A line that `re_config_line_break_clean` matches has a `breakText`. -/
theorem breakText_ne_none_of_search (hm : regexSearch reConfigLineBreakClean line = some m) :
    breakText line ≠ none := by
  obtain ⟨w, rest, hline, hw, hexec⟩ := exists_of_exec_star (exists_of_regexSearch hm)
  obtain ⟨u, rest', hrest, hu, hexec⟩ := exists_of_exec_group_star hexec
  obtain ⟨b, w', hrest', hb, hexec⟩ := exists_of_exec_one hexec
  rw [exec_blanks_atEnd] at hexec
  split at hexec
  · rename_i hw'
    obtain rfl : b = 92 := of_decide_eq_true hb
    obtain rfl : line = w ++ rest := hline
    obtain rfl : rest = u ++ rest' := hrest
    obtain rfl : rest' = 92 :: w' := hrest'
    rw [breakText_append hw (List.all_eq_true.mp hw') hu]
    exact Option.some_ne_none _
  · cases hexec

/-- The group that `re_config_line_break_clean` finds in a line is its `breakText`. -/
theorem search_lineBreak (line : Text) :
    (regexSearch reConfigLineBreakClean line).map (fun m => m.str 1) = breakText line := by
  cases hbreak : breakText line with
  | some text =>
      rw [breakText] at hbreak
      split at hbreak
      · rename_i hline
        obtain ⟨w, w', hsplit, hw, hw', hfirst⟩ := exists_blanks line
        obtain ⟨u, hu⟩ := List.getLast?_eq_some_iff.mp hline.1
        have hany := hline.2
        rw [hu, List.dropLast_concat] at hbreak hany
        obtain rfl := Option.some.inj hbreak
        rw [hu, List.append_assoc] at hsplit hfirst
        obtain rfl : line = w ++ (u ++ 92 :: w') := hsplit
        rw [search_lineBreak_append hw hw' hany hfirst]
        rfl
      · cases hbreak
  | none =>
      rw [Option.map_eq_none_iff, Option.eq_none_iff_forall_not_mem]
      exact fun m hm => breakText_ne_none_of_search hm hbreak

/-! ### Lines that end a run of continued ones -/

/-- What `spaceClean` makes of a line: the white space around it is cut off, unless an end of a line stands in its
text. -/
def endText (line : Text) : Text := if ∀ b ∈ trim line, isAny b = true then trim line else line

/-- `re_config_space_clean` matches a text between white space, without an end of a line and without white space at
its ends, as a whole. -/
theorem search_spaceClean_append (hw : Blank w) (hw' : Blank w') (hu : ∀ b ∈ u, isAny b = true)
    (hfirst : ∀ b ∈ (u ++ w').head?, isSpace b ≠ true) (hlast : ∀ b ∈ u.getLast?, isSpace b ≠ true) :
    regexSearch reConfigSpaceClean (w ++ (u ++ w')) =
      some ⟨0, ⟨0 + w.length + u.length + w'.length, [], [(1, u)]⟩⟩ := by
  apply regexSearch_of_exec
  refine exec_star_greedy hw hfirst (exec_group_lazy hu ?_ fun u' c u'' hsplit => ?_)
  · rw [exec_blanks_atEnd, if_pos (List.all_eq_true.mpr hw')]
  · rw [exec_blanks_atEnd, if_neg]
    intro hall
    obtain ⟨front, last, hback⟩ := List.eq_nil_or_concat' (c :: u'') |>.resolve_left (by simp)
    have hend : u.getLast? = some last := by
      rw [hsplit, hback, ← List.append_assoc, List.getLast?_concat]
    apply hlast last hend
    apply List.all_eq_true.mp hall last
    rw [hback]
    simp

/-- A line that `re_config_space_clean` matches has no end of a line in the text between its white space. -/
theorem isAny_of_search (hm : regexSearch reConfigSpaceClean line = some m) :
    ∀ b ∈ trim line, isAny b = true := by
  obtain ⟨w, rest, hline, hw, hexec⟩ := exists_of_exec_star (exists_of_regexSearch hm)
  obtain ⟨u, w', hrest, hu, hexec⟩ := exists_of_exec_group_star hexec
  rw [exec_blanks_atEnd] at hexec
  split at hexec
  · rename_i hw'
    obtain rfl : line = w ++ rest := hline
    obtain rfl : rest = u ++ w' := hrest
    -- What is left between the white space is part of what `.` has matched.
    intro b hb
    rw [trim_blanks hw (List.all_eq_true.mp hw')] at hb
    exact hu b ((List.dropWhile_suffix isSpace).subset ((List.rdropWhile_prefix isSpace _).subset hb))
  · cases hexec

theorem spaceClean_eq (line : Text) : spaceClean line = endText line := by
  rw [endText]
  split
  · rename_i hany
    obtain ⟨w, w', hsplit, hw, hw', hfirst⟩ := exists_blanks line
    have hsearch := search_spaceClean_append hw hw' hany hfirst (getLast?_rdropWhile (line.dropWhile isSpace))
    rw [← hsplit] at hsearch
    rw [spaceClean, regexReplace_of_stop_nil hsearch rfl fun hlt => searchFrom_atBegin hlt]
    rfl
  · rename_i hany
    apply regexReplace_of_eq_none
    rw [Option.eq_none_iff_forall_not_mem]
    exact fun m hm => hany (isAny_of_search hm)

/-! ### Comments -/

/-- `removeComment` keeps a text without `#`. -/
theorem removeComment_of_not_mem (h : 35 ∉ text) : removeComment text = text := by
  refine regexReplace_of_eq_none (searchFrom_eq_none fun x y hsplit => ?_)
  rw [Option.eq_none_iff_forall_not_mem]
  intro stop hexec
  obtain ⟨w, rest, hrest, -, hexec⟩ := exists_of_exec_star hexec
  obtain ⟨b, rest', hrest', hb, -⟩ := exists_of_exec_one hexec
  obtain rfl : b = 35 := of_decide_eq_true hb
  obtain rfl : y = w ++ rest := hrest
  obtain rfl : rest = 35 :: rest' := hrest'
  exact h (by rw [hsplit]; simp)

/-- `re_config_remove_comment` matches from the white space in front of the last `#` to the end of the text. -/
theorem exec_comment {pos : ℕ} (hw : Blank w) (hv : 35 ∉ v) :
    reConfigRemoveComment.exec some ⟨pos, w ++ 35 :: v, []⟩ =
      some ⟨pos + w.length + 1 + v.length, [], []⟩ := by
  refine exec_star_greedy hw (by simp [isSpace]) ?_
  rw [exec_cat_cons, exec_char_cons, if_pos rfl, exec_cat_cons, exec_star_atEnd, if_pos]
  rw [List.all_eq_true]
  intro b hb
  simpa using fun heq : b = 35 => hv (heq ▸ hb)

/-- A match of `re_config_remove_comment` has nothing but white space in front of its one `#`. -/
theorem blank_of_exec_comment {pos : ℕ} {stop : Cursor UInt8}
    (h : reConfigRemoveComment.exec some ⟨pos, u ++ 35 :: v, []⟩ = some stop) : Blank u := by
  obtain ⟨w, rest, hrest, hw, h⟩ := exists_of_exec_star h
  obtain ⟨c, v', hrest', hc, h⟩ := exists_of_exec_one h
  rw [exec_cat_cons, exec_star_atEnd] at h
  split at h
  · rename_i hall
    obtain rfl : c = 35 := of_decide_eq_true hc
    obtain rfl : rest = 35 :: v' := hrest'
    have hv' : 35 ∉ v' := fun hmem => by simpa using List.all_eq_true.mp hall 35 hmem
    have hnot : 35 ∉ w := fun hmem => absurd (hw 35 hmem) (by decide)
    have heq : w ++ 35 :: v' = u ++ 35 :: v := hrest.symm
    obtain ⟨rfl, -, -⟩ := (List.append_cons_inj_of_notMem hnot hv').mp heq
    exact hw
  · cases h

/-- `removeComment` cuts off the last `#`, what follows it, and the white space in front of it. -/
theorem removeComment_append_cons (hv : 35 ∉ v) : removeComment (u ++ 35 :: v) = u.rdropWhile isSpace := by
  obtain ⟨w, hsplit, hw⟩ : ∃ w, u = u.rdropWhile isSpace ++ w ∧ Blank w :=
    ⟨u.rtakeWhile isSpace, List.rdropWhile_append_rtakeWhile.symm,
      fun b hb => List.mem_rtakeWhile_imp hb⟩
  have hsearch : regexSearch reConfigRemoveComment (u ++ 35 :: v) = some
      ⟨0 + (u.rdropWhile isSpace).length,
        ⟨0 + (u.rdropWhile isSpace).length + w.length + 1 + v.length, [], []⟩⟩ := by
    conv_lhs => rw [hsplit, List.append_assoc, regexSearch]
    rw [searchFrom_append, searchFrom_of_exec (exec_comment hw hv)]
    -- A match that begins earlier would have the last character in front of the white space in it.
    intro x b y hinner
    rw [Option.eq_none_iff_forall_not_mem]
    intro stop hearly
    rw [← List.append_assoc] at hearly
    obtain ⟨front, last, hback⟩ := List.eq_nil_or_concat' (b :: y) |>.resolve_left (by simp)
    apply getLast?_rdropWhile u last
    · rw [hinner, hback, ← List.append_assoc, List.getLast?_concat, Option.mem_some_iff]
    · apply blank_of_exec_comment hearly last
      rw [hback]
      simp
  rw [removeComment, regexReplace_of_stop_nil hsearch rfl fun _ => rfl, List.append_nil, Nat.zero_add]
  exact (List.prefix_iff_eq_take.mp ((List.rdropWhile_prefix isSpace u).trans (List.prefix_append _ _))).symm

/-- `removeComment` keeps a text as it is exactly when it has no `#`. -/
theorem removeComment_eq_self_iff (text : Text) : removeComment text = text ↔ 35 ∉ text := by
  refine ⟨fun heq hmem => ?_, removeComment_of_not_mem⟩
  obtain ⟨back, front, hsplit, hnot⟩ := List.eq_append_cons_of_mem (List.mem_reverse.mpr hmem)
  obtain rfl : text = front.reverse ++ 35 :: back.reverse := by
    rw [← List.reverse_reverse text, hsplit]
    simp
  rw [removeComment_append_cons (by rwa [List.mem_reverse])] at heq
  have hle := (List.rdropWhile_prefix isSpace front.reverse).length_le
  rw [heq, List.length_append, List.length_cons] at hle
  omega

/-! ### Quoted values -/

/-- A character of `[\w\-:]` is neither white space nor an opening bracket. -/
theorem isNameChar_ne {b : UInt8} (h : isNameChar b = true) : isSpace b ≠ true ∧ b ≠ 91 := by
  simp only [isNameChar, isSpace, isDigit, Bool.or_eq_true, Bool.and_eq_true, decide_eq_true_eq, beq_iff_eq, ne_eq,
    UInt8.le_iff_toNat_le, ← UInt8.toNat_inj] at h ⊢
  simp only [UInt8.reduceToNat] at h ⊢
  omega

/-- `name = "value"`. -/
def quotedLine (name value : Text) : Text := name ++ (bytes " = \"" ++ (value ++ bytes "\""))

theorem quotedLine_eq (name value : Text) :
    quotedLine name value = name ++ ([32, 61, 32, 34] ++ (value ++ [34])) := rfl

/-- Behind the equals sign, the regular expression for a property matches a value in double quotes to the end of the
line, and remembers what is between the quotes. -/
theorem exec_quoted {name value : Text} (hvalue : ∀ b ∈ value, isAny b = true) (hquote : 34 ∉ value) (pos : ℕ) :
    (cat [group 2 (alt (char 34) (alt (char 39) empty)), group 3 anything, backref 2, blanks, atEnd]).exec some
      ⟨pos, 34 :: (value ++ [34]), [(1, name)]⟩ =
      some ⟨pos + 1 + value.length + 1, [], [(3, value), (2, [34]), (1, name)]⟩ := by
  have htail : (group 3 anything).exec ((cat [backref 2, blanks, atEnd]).exec some)
      ⟨pos + 1, value ++ [34], [(2, [34]), (1, name)]⟩ =
      some ⟨pos + 1 + value.length + 1, [], [(3, value), (2, [34]), (1, name)]⟩ := by
    refine exec_group_lazy hvalue rfl fun u' c u'' hsplit => ?_
    -- The value has no quote in it, so it does not end earlier.
    have hc : ¬ [34] <+: c :: u'' ++ [34] := by
      rintro ⟨behind, hbehind⟩
      apply hquote
      rw [hsplit, (List.cons.inj hbehind).1]
      simp
    exact if_neg hc
  rw [exec_cat_cons, exec_group, exec_alt, exec_char_cons, if_pos rfl, Cursor.store, Nat.add_sub_cancel_left,
    Option.or_eq_some_iff]
  exact Or.inl htail

/-- `re_config_propety` matches a line `name = "value"`, with the name and the value as its groups. -/
theorem search_propety_quotedLine {name value : Text} (hnil : name ≠ [])
    (hname : ∀ b ∈ name, isNameChar b = true) (hvalue : ∀ b ∈ value, isAny b = true) (hquote : 34 ∉ value) :
    ∃ m, regexSearch reConfigPropety (quotedLine name value) = some m ∧ m.str 1 = name ∧ m.str 3 = value := by
  have hbytes : quotedLine name value =
      [] ++ (name ++ ([32] ++ (61 :: ([32] ++ 34 :: (value ++ [34]))))) := rfl
  have hstart : ∀ b ∈ (name ++ ([32] ++ (61 :: ([32] ++ 34 :: (value ++ [34]))))).head?, isSpace b ≠ true := by
    obtain ⟨b, rest, rfl⟩ := List.exists_cons_of_ne_nil hnil
    intro b' hb'
    obtain rfl : b = b' := Option.some.inj hb'
    exact (isNameChar_ne (hname b List.mem_cons_self)).1
  have hexec : (cat [blanks, group 1 (plus (one isNameChar)), blanks, char 61, blanks,
      group 2 (alt (char 34) (alt (char 39) empty)), group 3 anything, backref 2, blanks, atEnd]).exec some
      ⟨0, quotedLine name value, []⟩ =
      some ⟨name.length + 1 + 1 + 1 + 1 + value.length + 1, [], [(3, value), (2, [34]), (1, name)]⟩ := by
    rw [hbytes]
    refine exec_star_greedy (by simp) hstart (exec_group_plus hnil hname (by simp; decide) ?_)
    refine exec_star_greedy (by simp; decide) (by simp; decide) ?_
    rw [exec_cat_cons, exec_char_cons, if_pos rfl]
    refine exec_star_greedy (by simp; decide) (by simp; decide) ?_
    refine (exec_quoted hvalue hquote _).trans ?_
    simp only [List.length_nil, List.length_singleton, Nat.zero_add]
  exact ⟨_, regexSearch_of_exec hexec, rfl, rfl⟩

/-- `lineOf` reads a line `name = "value"` as a property with the name, and with the value without its comment. -/
theorem lineOf_quotedLine {name value : Text} (hnil : name ≠ []) (hname : ∀ b ∈ name, isNameChar b = true)
    (hvalue : ∀ b ∈ value, isAny b = true) (hquote : 34 ∉ value) :
    lineOf (quotedLine name value) = .property name (removeComment value) := by
  obtain ⟨m, hsearch, hstr, hstr'⟩ := search_propety_quotedLine hnil hname hvalue hquote
  obtain ⟨b, rest, rfl⟩ := List.exists_cons_of_ne_nil hnil
  obtain ⟨hspace, hbracket⟩ := isNameChar_ne (hname b List.mem_cons_self)
  rw [lineOf]
  split
  · -- A header would have a bracket in front.
    rename_i header hheader
    obtain ⟨w, rest', hrest, hw, hexec⟩ := exists_of_exec_star (exists_of_regexSearch hheader)
    obtain ⟨level, w', hrest', hlevel, hall, -⟩ := exists_of_exec_group_plus hexec
    obtain ⟨c, level, rfl⟩ := List.exists_cons_of_ne_nil hlevel
    have hline : quotedLine (b :: rest) value = w ++ (c :: level ++ w') := by
      rw [← hrest']
      exact hrest
    cases w with
    | nil =>
        obtain rfl : c = 91 := of_decide_eq_true (hall c List.mem_cons_self)
        exact absurd (List.cons.inj hline).1 hbracket
    | cons c' w => exact absurd ((List.cons.inj hline).1 ▸ hw c' List.mem_cons_self) hspace
  · rw [hsearch]
    show ConfigLine.property (m.str 1) (removeComment (m.str 3)) = _
    rw [hstr, hstr']

end NavekFiber
