import NavekFiber.Utils.Numbers

/-! # Texts in pieces: `utils::explode` and `utils::implode`

`explode` takes a text apart at a delimiter, into as many pieces as the limit allows. What it gives for a
delimiter of one character is said by the equations `explodeFrom_of_notMem`, `explodeFrom_one` and
`explodeFrom_append_cons`. `implode` joins pieces, and gives back the text that `explode` has taken apart
(`implode_explode`). -/

namespace NavekFiber

namespace Utils

/-- What texts are taken apart at. An empty one would be found again and again at the same place. -/
structure Delimiter where
  /-- The characters. -/
  text : List UInt8
  /-- There are characters to take a text apart at. -/
  ne_nil : text ≠ []

namespace Delimiter

/-- `":"`. -/
def colon : Delimiter := ⟨[58], List.cons_ne_nil _ _⟩

/-- `","`. -/
def comma : Delimiter := ⟨[44], List.cons_ne_nil _ _⟩

/-- `"-"`. -/
def hyphen : Delimiter := ⟨[45], List.cons_ne_nil _ _⟩

end Delimiter

/-- `string::find`: where a text occurs first; `none` for `npos`. -/
def findText (needle : List UInt8) : List UInt8 → Option ℕ
  | [] => if needle = [] then some 0 else none
  | c :: rest => if needle <+: c :: rest then some 0 else (findText needle rest).map (· + 1)

/-- What `string::find` finds lies in the text. -/
theorem findText_add_length_le {needle text : List UInt8} {stop : ℕ} (h : findText needle text = some stop) :
    stop + needle.length ≤ text.length := by
  induction text generalizing stop with
  | nil =>
      rw [findText] at h
      split at h
      · rename_i hnil
        obtain rfl := Option.some.inj h
        rw [hnil]
        exact le_rfl
      · cases h
  | cons c rest ih =>
      rw [findText] at h
      split at h
      · rename_i hfirst
        obtain rfl := Option.some.inj h
        rw [Nat.zero_add]
        exact hfirst.length_le
      · obtain ⟨stop, hstop, rfl⟩ := Option.map_eq_some_iff.mp h
        have := ih hstop
        rw [List.length_cons]
        omega

/-- The loop of `explode` on what is left of the text. -/
def explodeFrom (delimiter : Delimiter) (limit : ℤ) (rest : List UInt8) : List (List UInt8) :=
  match _hfind : findText delimiter.text rest with
  | some stop =>
      if limit - 1 ≠ 0 then
        rest.take stop :: explodeFrom delimiter (limit - 1) (rest.drop (stop + delimiter.text.length))
      else [rest]
  | none => [rest]
termination_by rest.length
decreasing_by
  have hle := findText_add_length_le _hfind
  have hpos := List.length_pos_iff.mpr delimiter.ne_nil
  rw [List.length_drop]
  omega

/-- `utils::explode`. -/
def explode (delimiter : Delimiter) (string : List UInt8) (limit : ℤ) : List (List UInt8) :=
  if string ≠ [] then explodeFrom delimiter limit string else []

/-- The loop of `implode`, with a counter and the pieces from the iterator on. Without a piece there it reads
past the end. -/
def implodeLoop (glue : List UInt8) : ℕ → List (List UInt8) → List UInt8 → Option (List UInt8)
  | _, [], _ => none
  | i, piece :: rest, result =>
      if i - 1 ≠ 0 then implodeLoop glue (i - 1) rest (result ++ (piece ++ glue)) else some (result ++ piece)

/-- `utils::implode`. -/
def implode (glue : List UInt8) (pieces : List (List UInt8)) : Option (List UInt8) :=
  implodeLoop glue pieces.length pieces []

variable {delimiter : Delimiter} {c : UInt8} {u v : List UInt8} {limit : ℤ}

/-- `string::find` does not find a character that is not there. -/
theorem findText_of_notMem (h : c ∉ u) : findText [c] u = none := by
  induction u with
  | nil => rfl
  | cons b u ih =>
      obtain ⟨hb, hu⟩ := not_or.mp (List.mem_cons.not.mp h)
      have hfirst : ¬ [c] <+: b :: u := fun ⟨rest, hrest⟩ => hb (List.cons.inj hrest).1
      rw [findText, if_neg hfirst, ih hu, Option.map_none]

/-- `string::find` finds the first place of a character. -/
theorem findText_append_cons (h : c ∉ u) : findText [c] (u ++ c :: v) = some u.length := by
  induction u with
  | nil => exact if_pos ⟨v, rfl⟩
  | cons b u ih =>
      obtain ⟨hb, hu⟩ := not_or.mp (List.mem_cons.not.mp h)
      have hfirst : ¬ [c] <+: b :: (u ++ c :: v) := fun ⟨rest, hrest⟩ => hb (List.cons.inj hrest).1
      rw [List.cons_append, findText, if_neg hfirst, ih hu, Option.map_some, List.length_cons]

/-- `explodeFrom` takes a text without the delimiter as one piece. -/
theorem explodeFrom_of_notMem (hdelimiter : delimiter.text = [c]) (hu : c ∉ u) :
    explodeFrom delimiter limit u = [u] := by
  rw [explodeFrom, hdelimiter]
  split
  · rename_i stop hfind
    rw [findText_of_notMem hu] at hfind
    cases hfind
  · rfl

/-- The last piece that the limit allows is what is left of the text. -/
theorem explodeFrom_one (text : List UInt8) : explodeFrom delimiter 1 text = [text] := by
  rw [explodeFrom]
  split <;> rfl

/-- The first piece of `explodeFrom` ends at the first delimiter. -/
theorem explodeFrom_append_cons (hdelimiter : delimiter.text = [c]) (hu : c ∉ u) (hlimit : limit - 1 ≠ 0) :
    explodeFrom delimiter limit (u ++ c :: v) = u :: explodeFrom delimiter (limit - 1) v := by
  rw [explodeFrom, hdelimiter]
  split
  · rename_i stop hfind
    rw [findText_append_cons hu] at hfind
    obtain rfl := Option.some.inj hfind
    rw [if_pos hlimit, List.take_left, List.length_singleton, ← List.drop_drop, List.drop_left]
    rfl
  · rename_i hfind
    rw [findText_append_cons hu] at hfind
    cases hfind

/-- `explodeFrom` finds pieces without the delimiter again when they have been joined by it. -/
theorem explodeFrom_intercalate {pieces : List (List UInt8)} (hdelimiter : delimiter.text = [c])
    (hnil : pieces ≠ []) (hpieces : ∀ piece ∈ pieces, c ∉ piece) (hlimit : limit ≤ 0) :
    explodeFrom delimiter limit ([c].intercalate pieces) = pieces := by
  induction pieces generalizing limit with
  | nil => exact absurd rfl hnil
  | cons piece pieces ih =>
      obtain ⟨hpiece, hrest⟩ := List.forall_mem_cons.mp hpieces
      rcases eq_or_ne pieces [] with rfl | hne
      · rw [List.intercalate_singleton, explodeFrom_of_notMem hdelimiter hpiece]
      · rw [List.intercalate_cons_of_ne_nil hne, List.append_assoc, List.singleton_append,
          explodeFrom_append_cons hdelimiter hpiece (by omega), ih hne hrest (by omega)]

/-! ### Taken apart and joined again -/

section RoundTrip

variable {needle text rest : List UInt8} {pieces : List (List UInt8)} {stop q : ℕ}

/-- The needle stands where `string::find` has found it. -/
theorem findText_isPrefix (h : findText needle text = some stop) : needle <+: text.drop stop := by
  induction text generalizing stop with
  | nil =>
      rw [findText] at h
      split at h
      · rename_i hnil
        rw [hnil]
        exact List.nil_prefix
      · cases h
  | cons c text ih =>
      rw [findText] at h
      split at h
      · rename_i hfirst
        obtain rfl := Option.some.inj h
        exact hfirst
      · obtain ⟨stop, hstop, rfl⟩ := Option.map_eq_some_iff.mp h
        exact ih hstop

/-- The needle stands nowhere in front of where `string::find` has found it. -/
theorem not_isPrefix_of_lt (h : findText needle text = some stop) (hq : q < stop) :
    ¬ needle <+: text.drop q := by
  induction text generalizing stop q with
  | nil =>
      rw [findText] at h
      split at h
      · obtain rfl := Option.some.inj h
        exact absurd hq (Nat.not_lt_zero q)
      · cases h
  | cons c text ih =>
      rw [findText] at h
      split at h
      · obtain rfl := Option.some.inj h
        exact absurd hq (Nat.not_lt_zero q)
      · rename_i hfirst
        obtain ⟨stop, hstop, rfl⟩ := Option.map_eq_some_iff.mp h
        cases q with
        | zero => exact hfirst
        | succ q => exact ih hstop (Nat.lt_of_succ_lt_succ hq)

/-- A needle that `string::find` has not found stands nowhere. -/
theorem not_isInfix_of_findText (h : findText needle text = none) : ¬ needle <:+: text := by
  induction text with
  | nil =>
      rw [findText] at h
      split at h
      · cases h
      · rename_i hnil
        rwa [List.infix_nil]
  | cons c text ih =>
      rw [findText] at h
      split at h
      · cases h
      · rename_i hfirst
        rw [List.infix_cons_iff, not_or]
        exact ⟨hfirst, ih (Option.map_eq_none_iff.mp h)⟩

/-- The text in front of the first delimiter has no delimiter in it. -/
theorem not_isInfix_take (h : findText delimiter.text text = some stop) :
    ¬ delimiter.text <:+: text.take stop := by
  intro hinfix
  obtain ⟨before, after, htake⟩ := hinfix
  have hpos := List.length_pos_iff.mpr delimiter.ne_nil
  have hlength := congrArg List.length htake
  rw [List.length_append, List.length_append, List.length_take] at hlength
  -- It would stand behind `before`, which is shorter.
  refine not_isPrefix_of_lt h (show before.length < stop by omega) ⟨after ++ text.drop stop, ?_⟩
  conv_rhs => rw [← List.take_append_drop stop text, ← htake, List.append_assoc, List.append_assoc,
    List.drop_left]

/-- `explodeFrom` takes what is left as the last piece when it finds no delimiter. -/
theorem explodeFrom_of_none (h : findText delimiter.text rest = none) :
    explodeFrom delimiter limit rest = [rest] := by
  rw [explodeFrom]
  split
  · rename_i stop hfind
    rw [h] at hfind
    cases hfind
  · rfl

theorem explodeFrom_of_some (h : findText delimiter.text rest = some stop) :
    explodeFrom delimiter limit rest =
      if limit - 1 ≠ 0 then
        rest.take stop :: explodeFrom delimiter (limit - 1) (rest.drop (stop + delimiter.text.length))
      else [rest] := by
  rw [explodeFrom]
  split
  · rename_i stop' hfind
    obtain rfl := Option.some.inj (hfind.symm.trans h)
    rfl
  · rename_i hfind
    rw [h] at hfind
    cases hfind

/-- `explodeFrom` gives one piece at least. -/
theorem explodeFrom_ne_nil (delimiter : Delimiter) (limit : ℤ) (rest : List UInt8) :
    explodeFrom delimiter limit rest ≠ [] := by
  cases hfind : findText delimiter.text rest with
  | none =>
      rw [explodeFrom_of_none hfind]
      exact List.cons_ne_nil rest []
  | some stop =>
      rw [explodeFrom_of_some hfind]
      split
      · exact List.cons_ne_nil _ _
      · exact List.cons_ne_nil rest []

/-- The pieces of `explodeFrom`, with delimiters between them, are the text. -/
theorem intercalate_explodeFrom (delimiter : Delimiter) (limit : ℤ) (rest : List UInt8) :
    delimiter.text.intercalate (explodeFrom delimiter limit rest) = rest := by
  induction limit, rest using explodeFrom.induct delimiter with
  | case1 limit rest stop hfind hlimit ih =>
      obtain ⟨after, hafter⟩ := findText_isPrefix hfind
      rw [explodeFrom_of_some hfind, if_pos hlimit, List.intercalate_cons_of_ne_nil (explodeFrom_ne_nil _ _ _), ih,
        List.append_assoc, ← List.drop_drop, ← hafter, List.drop_left, hafter, List.take_append_drop]
  | case2 limit rest stop hfind hlimit =>
      rw [explodeFrom_of_some hfind, if_neg hlimit, List.intercalate_singleton]
  | case3 limit rest hfind => rw [explodeFrom_of_none hfind, List.intercalate_singleton]

/-- A positive limit is the greatest number of pieces of `explodeFrom`. -/
theorem length_explodeFrom_le (hpos : 0 < limit) :
    ((explodeFrom delimiter limit rest).length : ℤ) ≤ limit := by
  induction limit, rest using explodeFrom.induct delimiter with
  | case1 limit rest stop hfind hlimit ih =>
      have hrest := ih (by omega)
      rw [explodeFrom_of_some hfind, if_pos hlimit, List.length_cons]
      omega
  | case2 limit rest stop hfind hlimit =>
      rw [explodeFrom_of_some hfind, if_neg hlimit, List.length_singleton]
      omega
  | case3 limit rest hfind =>
      rw [explodeFrom_of_none hfind, List.length_singleton]
      omega

/-- With a limit that is not positive, no piece of `explodeFrom` has the delimiter in it. -/
theorem not_isInfix_of_mem_explodeFrom (hlimit : limit ≤ 0) {piece : List UInt8}
    (hpiece : piece ∈ explodeFrom delimiter limit rest) : ¬ delimiter.text <:+: piece := by
  induction limit, rest using explodeFrom.induct delimiter with
  | case1 limit rest stop hfind hne ih =>
      rw [explodeFrom_of_some hfind, if_pos hne] at hpiece
      rcases List.mem_cons.mp hpiece with rfl | hpiece
      · exact not_isInfix_take hfind
      · exact ih (by omega) hpiece
  | case2 limit rest stop hfind hzero => omega
  | case3 limit rest hfind =>
      rw [explodeFrom_of_none hfind] at hpiece
      obtain rfl := List.mem_singleton.mp hpiece
      exact not_isInfix_of_findText hfind

/-- `implodeLoop` joins the pieces that are left, with the glue between them, to what it has. -/
theorem implodeLoop_eq (glue : List UInt8) (hnil : pieces ≠ []) (result : List UInt8) :
    implodeLoop glue pieces.length pieces result = some (result ++ glue.intercalate pieces) := by
  induction pieces generalizing result with
  | nil => exact absurd rfl hnil
  | cons piece pieces ih =>
      rw [implodeLoop, List.length_cons, Nat.add_sub_cancel]
      rcases eq_or_ne pieces [] with rfl | hne
      · rw [if_neg (not_not.mpr List.length_nil), List.intercalate_singleton]
      · rw [if_pos (List.length_pos_iff.mpr hne).ne', ih hne, List.intercalate_cons_of_ne_nil hne,
          List.append_assoc result, List.append_assoc]

/-- `explode` ends with at least one piece, `implode` gives the text back, a positive limit is the greatest
number of pieces, and with another limit no piece has the delimiter in it. -/
theorem implode_explode (delimiter : Delimiter) (string : List UInt8) (limit : ℤ) (hstring : string ≠ []) :
    explode delimiter string limit ≠ [] ∧
      implode delimiter.text (explode delimiter string limit) = some string ∧
      (0 < limit → ((explode delimiter string limit).length : ℤ) ≤ limit) ∧
      (limit ≤ 0 → ∀ piece ∈ explode delimiter string limit, ¬ delimiter.text <:+: piece) := by
  rw [explode, if_pos hstring]
  refine ⟨explodeFrom_ne_nil _ _ _, ?_, length_explodeFrom_le,
    fun hlimit piece => not_isInfix_of_mem_explodeFrom hlimit⟩
  rw [implode, implodeLoop_eq _ (explodeFrom_ne_nil _ _ _), intercalate_explodeFrom, List.nil_append]

/-- A text that begins and ends with the delimiter, and has two of them in a row, comes back from `implode`. -/
theorem implode_explode_commas :
    implode [44] (explode .comma (bytes ",a,,b,") (-1)) = some (bytes ",a,,b,") :=
  (implode_explode .comma (bytes ",a,,b,") (-1) (by decide)).2.1

end RoundTrip

end Utils

end NavekFiber
