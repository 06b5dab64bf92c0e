import NavekFiber.Net.HttpLines

/-! # The status of a parse

What `http_parse_request` answers depends on three things only: whether the window begins with a
method, whether it has an empty line, and whether the first white space behind the method is a tab. -/

namespace NavekFiber

open Utils Proto

namespace Http

/-- The horizontal tab. -/
abbrev tab : UInt8 := 9

/-- The characters that end the request path. -/
def pathEnds : List UInt8 := bytes " \t\n\r"

variable {mem : List UInt8} {lineBegin : ℕ}

/-- `parseHeader` does not fault on a line within the mapped memory. -/
theorem isSome_parseHeader (lineBegin : ℕ) (line : MatchResult) (req : CRequest)
    (h : line.stop ≤ mem.length) : ∃ req', parseHeader mem lineBegin line req = some req' := by
  obtain ⟨name, hname⟩ := isSome_findChar (bytes ": \n") (slice_cut_of_le lineBegin h)
  obtain ⟨value, hvalue⟩ := isSome_findChar (bytes "\r\n") (slice_cut_of_le name.stop h)
  by_cases hone : name.result = 1
  · by_cases hzero : value.result = 0 <;> simp [parseHeader, hname, hone, hvalue, hzero]
  · simp [parseHeader, hname, hone]

/-- `parseHeader` adds one header at most: a name up to a colon, and a value up to a line end. -/
theorem parseHeader_cases {line : MatchResult} {req req' : CRequest}
    (h : parseHeader mem lineBegin line req = some req') :
    req' = req ∨ ∃ name value,
      findChar (slice mem lineBegin line.stop) (bytes ": \n") = some name ∧
        findChar (slice mem name.stop line.stop) (bytes "\r\n") = some value ∧ value.result ≠ 0 ∧
        req' = { req with
          headers := req.headers ++ [(⟨name.start, name.stop - 1⟩, ⟨value.start, value.stop - 1⟩)] } := by
  obtain ⟨name, hname, h⟩ := Option.bind_eq_some_iff.mp h
  split at h
  · obtain ⟨value, hvalue, h⟩ := Option.bind_eq_some_iff.mp h
    split at h
    · rename_i hne
      exact Or.inr ⟨name, value, hname, hvalue, hne, (Option.some.inj h).symm⟩
    · exact Or.inl (Option.some.inj h).symm
  · exact Or.inl (Option.some.inj h).symm

/-- In a mapped range that has a character of the list, `find_char` finds the first one. -/
theorem findChar_eq {charlist before after : List UInt8} {c : UInt8} {lo hi : ℕ}
    (hhi : hi ≤ mem.length) (htext : (slice mem lo hi).bytes = before ++ c :: after)
    (hbefore : ∀ b ∈ before, b ∉ charlist) (hc : c ∈ charlist) :
    findChar (slice mem lo hi) charlist =
      some ⟨charResult (charlist.idxOf c), lo, lo + before.length + 1⟩ := by
  rw [findChar, slice_cut_of_le lo hhi, htext]
  exact findCharFrom_append lo lo hbefore hc

/-- `find_char` finds nothing in an empty range. -/
theorem findChar_empty {charlist : List UInt8} {lo : ℕ} :
    findChar (slice mem lo lo) charlist = some ⟨0, lo, lo⟩ := by
  rw [slice_of_ge le_rfl]
  rfl

/-- `parsePath` sets the path only: its search for the query is given an empty range, so it finds none. -/
theorem parsePath_cases {methodEnd : ℕ} {line : MatchResult} {req req' : CRequest}
    (h : parsePath mem methodEnd line req = some (some req')) :
    ∃ path, findChar (slice mem methodEnd line.stop) (bytes " \t\n\r") = some path ∧
      req' = { req with uri := some ⟨path.start, path.stop - 1⟩ } := by
  obtain ⟨path, hpath, h⟩ := Option.bind_eq_some_iff.mp h
  refine ⟨path, hpath, ?_⟩
  split at h
  · rw [findChar_empty] at h
    exact (Option.some.inj (Option.some.inj h)).symm
  · exact absurd (Option.some.inj h) (by simp)

/-- `parsePath` reads the path off a first line whose first white space is no tab: the number that `find_char` gives
the second character of its list is zero, so a tab is taken for no white space at all. -/
theorem parsePath_eq {before after : List UInt8} {c : UInt8} {methodEnd : ℕ} (line : MatchResult)
    (req : CRequest) (h : line.stop ≤ mem.length)
    (htext : (slice mem methodEnd line.stop).bytes = before ++ c :: after)
    (hbefore : ∀ b ∈ before, b ∉ pathEnds) (hc : c ∈ pathEnds) :
    parsePath mem methodEnd line req =
      if c = tab then some none
      else some (some { req with uri := some ⟨methodEnd, methodEnd + before.length⟩ }) := by
  have hpath := findChar_eq h htext hbefore hc
  have hchars : c = 32 ∨ c = tab ∨ c = lf ∨ c = cr := by
    simpa [pathEnds, show bytes " \t\n\r" = [32, 9, 10, 13] from rfl] using hc
  have hbytes : bytes " \t\n\r" = pathEnds := rfl
  rw [parsePath, hbytes, hpath]
  by_cases htab : c = tab
  · subst htab
    have hzero : charResult (pathEnds.idxOf tab) = 0 := by decide
    simp [hzero]
  · have hne : charResult (pathEnds.idxOf c) ≠ 0 := by
      rcases hchars with rfl | rfl | rfl | rfl
      · decide
      · exact absurd rfl htab
      · decide
      · decide
    simp [hne, htab, findChar_empty]

/-! ### The loop over the lines -/

/-- How the loop over the lines ends, started at a line behind the first, at the offset `it`. -/
inductive HeadSearch (data : ReadBufferImpl) (it : ℕ) (text : List UInt8) :
    Option (ℕ × CRequest) → Prop
  /-- The text has an empty line; the head ends with it, and the content begins behind it. -/
  | blank (req : CRequest) (length : ℕ) (hcontent : req.content = some (data.content (it + length)))
      (hblank : HasBlankLine (text.take length)) : HeadSearch data it text (some (0, req))
  /-- The window has no empty line. -/
  | absent (req : CRequest) (hfull : data.dataPartLength ≤ data.memory.length)
      (hblank : ¬ HasBlankLine text) : HeadSearch data it text (some (431, req))
  /-- The memory ends before the window and has no empty line. -/
  | fault (hshort : data.memory.length < data.dataPartLength) (hblank : ¬ HasBlankLine text) :
      HeadSearch data it text none

/-- What `find_values` finds in a range of the memory is what `NextLine` says. -/
theorem nextLine_findValues (lo hi : ℕ) :
    NextLine (slice mem lo hi).cut lo (slice mem lo hi).bytes
      (findValues (slice mem lo hi) httpLineEndians) :=
  nextLine_findFrom _ _ _

/-- A line end that `find_values` finds stands in the memory, and the search goes on behind it. -/
theorem slice_after {hi : ℕ} {line marker after : List UInt8} (hlo : lineBegin ≤ mem.length)
    (htext : (slice mem lineBegin hi).bytes = line ++ marker ++ after) :
    lineBegin + line.length + marker.length ≤ mem.length ∧
      (slice mem (lineBegin + line.length + marker.length) hi).bytes = after := by
  have hlen := congrArg List.length htext
  simp only [slice_bytes, List.length_drop, List.length_take, List.length_append] at hlen
  refine ⟨by omega, ?_⟩
  rw [Nat.add_assoc, slice_bytes_add, htext, ← List.length_append, List.drop_left]

/-- A text up to the empty line that ends its first line has a blank line. -/
theorem hasBlankLine_take_of_blank {text line marker after : List UInt8}
    (htext : text = line ++ marker ++ after) (hline : lf ∉ line)
    (hmarker : marker = [cr, lf, cr, lf] ∨ marker = [lf, lf] ∧ line.getLast? ≠ some cr) :
    HasBlankLine (text.take (line.length + marker.length)) := by
  have hends := firstLineEndsHead_of_marker [] hline hmarker
  rw [htext, ← List.length_append, List.take_left]
  simpa using hends.hasBlankLine

/-- A text up to a blank line behind its first line has a blank line. -/
theorem hasBlankLine_take_of_line {line marker after : List UInt8} {length : ℕ}
    (hmarker : marker = [lf] ∧ line.getLast? ≠ some cr ∨ marker = [cr, lf])
    (hblank : HasBlankLine (after.take length)) :
    HasBlankLine ((line ++ marker ++ after).take (line.length + marker.length + length)) := by
  rw [← List.length_append, List.take_length_add_append]
  refine hblank.append_left ?_
  rcases hmarker with ⟨rfl, -⟩ | rfl <;> simp

/-- A `HeadSearch` that has gone on behind a line is one from the beginning of this line. -/
theorem HeadSearch.of_line {data : ReadBufferImpl} {lineBegin : ℕ} {text line marker after : List UInt8}
    {loop : Option (ℕ × CRequest)} (htext : text = line ++ marker ++ after)
    (hmarker : marker = [lf] ∧ line.getLast? ≠ some cr ∨ marker = [cr, lf])
    (hblank : HasBlankLine text ↔ HasBlankLine after)
    (hrest : HeadSearch data (lineBegin + line.length + marker.length) after loop) :
    HeadSearch data lineBegin text loop := by
  cases hrest with
  | blank req length hcontent hb =>
      refine .blank req (line.length + marker.length + length) (by rw [hcontent]; congr 2; omega) ?_
      rw [htext]
      exact hasBlankLine_take_of_line hmarker hb
  | absent req hfull hb => exact .absent req hfull fun h => hb (hblank.mp h)
  | fault hshort hb => exact .fault hshort fun h => hb (hblank.mp h)

/-- `lineLoop`, started at a line behind the first, ends as `HeadSearch` says: with the first empty line. -/
theorem headSearch_lineLoop (data : ReadBufferImpl) (methodEnd turns lineBegin lineNo : ℕ)
    (req : CRequest) (hno : lineNo ≠ 0) (hlo : lineBegin ≤ data.memory.length)
    (hturns : (slice data.memory lineBegin data.dataPartLength).bytes.length < turns) :
    HeadSearch data lineBegin (slice data.memory lineBegin data.dataPartLength).bytes
      (lineLoop data methodEnd turns lineBegin lineNo req) := by
  induction turns generalizing lineBegin lineNo req with
  | zero => omega
  | succ turns ih =>
      have hnext : NextLine _ lineBegin _ (findValues (slice data.memory lineBegin data.head.stop)
        httpLineEndians) := nextLine_findValues lineBegin data.dataPartLength
      rw [lineLoop]
      generalize findValues (slice data.memory lineBegin data.head.stop) httpLineEndians = found
        at hnext ⊢
      cases hnext with
      | fault hcut _ hblank =>
          rw [slice_cut_eq hlo, decide_eq_true_eq] at hcut
          exact .fault hcut hblank
      | absent hcut hblank =>
          rw [slice_cut_eq hlo, decide_eq_false_iff_not, not_lt] at hcut
          exact .absent req hcut hblank
      | blank result line marker after htext hline hresult hmarker =>
          -- The markers of an empty line come first in the list, so their numbers are at most two.
          have hle : ¬ 2 < result := by omega
          have hne : result ≠ 0 := by omega
          simp only [hle, hne, if_false, Option.bind_eq_bind, Option.bind_some]
          exact .blank _ (line.length + marker.length) (by rw [Nat.add_assoc])
            (hasBlankLine_take_of_blank htext hline hmarker)
      | line result line marker after htext hline hresult hmarker hdecided hends hblank =>
          obtain ⟨hstop, hafter⟩ := slice_after hlo htext
          obtain ⟨req', hheader⟩ := isSome_parseHeader lineBegin
            ⟨result, lineBegin + line.length, lineBegin + line.length + marker.length⟩ req hstop
          have hne : result ≠ 0 := by omega
          have hrest := ih (lineBegin + line.length + marker.length) (lineNo + 1) req' (by omega) hstop
            (by
              rw [hafter]
              rw [htext, List.length_append, List.length_append] at hturns
              have hpos : 0 < marker.length := by
                rcases hmarker with ⟨rfl, -⟩ | rfl <;> decide
              omega)
          rw [hafter] at hrest
          simp only [hne, if_false, hresult, if_true, hno, ne_eq, not_false_eq_true, hheader,
            Option.bind_eq_bind, Option.bind_some]
          exact HeadSearch.of_line htext hmarker hblank hrest

/-! ### The whole parse -/

/-- The first white space behind the method is a tab. -/
def TabbedPath (needle text : List UInt8) : Prop :=
  (text.drop needle.length).find? (· ∈ pathEnds) = some tab

/-- How the parse of a request that is not empty ends; `text` is the window for the head as far as it is
mapped. -/
inductive ParseOutcome (data : ReadBufferImpl) (text : List UInt8) : Option (ℕ × CRequest) → Prop
  /-- The window begins with no method. -/
  | noMethod (req : CRequest) (hpre : ∀ needle ∈ requestMethods, ¬ FoldPrefix needle text)
      (hstop : data.memory.length < data.dataPartLength →
        ∀ needle ∈ requestMethods, ¬ StopsWithin text needle) :
      ParseOutcome data text (some (405, req))
  /-- The memory ends within a method. -/
  | methodFault (needle : List UInt8) (hmem : needle ∈ requestMethods)
      (hshort : data.memory.length < data.dataPartLength) (hstop : StopsWithin text needle) :
      ParseOutcome data text none
  /-- The first line is complete and a tab comes first in it. -/
  | refused (req : CRequest) (needle : List UInt8) (hmem : needle ∈ requestMethods)
      (hpre : FoldPrefix needle text) (hends : ¬ FirstLineEndsHead text)
      (htab : TabbedPath needle text)
      (hdecided : data.memory.length < data.dataPartLength → FirstLineDecided text) :
      ParseOutcome data text (some (400, req))
  /-- The head ends with an empty line, and the content begins behind it. -/
  | accepted (req : CRequest) (needle : List UInt8) (stop : ℕ) (hmem : needle ∈ requestMethods)
      (hpre : FoldPrefix needle text) (hcontent : req.content = some (data.content stop))
      (hblank : HasBlankLine (text.take stop))
      (hpath : FirstLineEndsHead text ∨ ¬ TabbedPath needle text) :
      ParseOutcome data text (some (0, req))
  /-- The window has no empty line. -/
  | tooLong (req : CRequest) (needle : List UInt8) (hmem : needle ∈ requestMethods)
      (hpre : FoldPrefix needle text) (hfull : data.dataPartLength ≤ data.memory.length)
      (hblank : ¬ HasBlankLine text) : ParseOutcome data text (some (431, req))
  /-- The memory ends before the window and has no empty line. -/
  | fault (needle : List UInt8) (hmem : needle ∈ requestMethods) (hpre : FoldPrefix needle text)
      (hshort : data.memory.length < data.dataPartLength) (hblank : ¬ HasBlankLine text)
      (hopen : FirstLineDecided text → ¬ TabbedPath needle text) : ParseOutcome data text none

/-- No method begins another one. -/
theorem prefixFree_requestMethods : PrefixFree requestMethods := by
  decide +kernel

/-- No character of a method is one of a line end, up to the case of letters. -/
theorem icaseAscii_method_ne : ∀ needle ∈ requestMethods, ∀ c ∈ needle,
    icaseAscii c ≠ icaseAscii cr ∧ icaseAscii c ≠ icaseAscii lf := by
  decide +kernel

/-- The method that a text begins with stands within the part in front of any line feed or carriage return. -/
theorem method_length_le {needle text line rest : List UInt8} {b : UInt8}
    (hmem : needle ∈ requestMethods) (hpre : FoldPrefix needle text) (htext : text = line ++ b :: rest)
    (hb : b = cr ∨ b = lf) : needle.length ≤ line.length := by
  by_contra hlt
  have hlt : line.length < needle.length := not_le.mp hlt
  have hat := (List.prefix_iff_getElem?.mp hpre) line.length (by simpa using hlt)
  rw [htext, List.getElem?_map, List.getElem?_append_right le_rfl, Nat.sub_self,
    List.getElem?_cons_zero, Option.map_some, List.getElem_map, Option.some.injEq] at hat
  obtain ⟨hcr, hlf⟩ := icaseAscii_method_ne needle hmem _ (List.getElem_mem hlt)
  rcases hb with rfl | rfl
  · exact hcr hat.symm
  · exact hlf hat.symm

/-- The range from the method to the end of the first line holds what stands behind the method, and the line end. -/
theorem slice_firstLine {needle line marker after : List UInt8} {hi : ℕ}
    (htext : (slice mem 0 hi).bytes = line ++ marker ++ after) (hle : needle.length ≤ line.length) :
    (slice mem needle.length (line.length + marker.length)).bytes = line.drop needle.length ++ marker := by
  rw [slice_bytes, List.drop_zero] at htext
  have hlen := congrArg List.length htext
  simp only [List.length_take, List.length_append] at hlen
  have htake : mem.take (line.length + marker.length) = line ++ marker := by
    have h := congrArg (List.take (line.length + marker.length)) htext
    rw [List.take_take, Nat.min_eq_left (by omega), ← List.length_append, List.take_left] at h
    simpa using h
  rw [slice_bytes, htake, List.drop_append_of_le_length hle]

/-- The method that a text begins with stands within the first line, whichever line end that has. -/
theorem method_length_le_line {needle text line marker after : List UInt8}
    (hmem : needle ∈ requestMethods) (hpre : FoldPrefix needle text)
    (htext : text = line ++ marker ++ after)
    (hmarker : marker = [lf] ∧ line.getLast? ≠ some cr ∨ marker = [cr, lf]) :
    needle.length ≤ line.length := by
  rcases hmarker with ⟨rfl, -⟩ | rfl
  · exact method_length_le hmem hpre (by rw [htext, List.append_assoc]; rfl) (Or.inr rfl)
  · exact method_length_le hmem hpre (by rw [htext, List.append_assoc]; rfl) (Or.inl rfl)

/-- `parsePath` refuses a first line in which a tab comes first, and reads the target of any other one. -/
theorem parsePath_firstLine {needle line marker after : List UInt8} {hi : ℕ} (result : ℕ) (req : CRequest)
    (htext : (slice mem 0 hi).bytes = line ++ marker ++ after) (hmethod : needle.length ≤ line.length)
    (hlf : lf ∈ marker) (hstop : line.length + marker.length ≤ mem.length) :
    (TabbedPath needle (slice mem 0 hi).bytes ∧
        parsePath mem needle.length ⟨result, line.length, line.length + marker.length⟩ req = some none) ∨
      (¬ TabbedPath needle (slice mem 0 hi).bytes ∧ ∃ uri,
        parsePath mem needle.length ⟨result, line.length, line.length + marker.length⟩ req
          = some (some { req with uri := some uri })) := by
  -- The line end is white space, so there is a first one.
  obtain ⟨before, c, behind, hbehind, hbefore, hc⟩ := exists_first pathEnds
    (line.drop needle.length ++ marker) ⟨lf, List.mem_append_right _ hlf, by decide⟩
  have hpath := parsePath_eq ⟨result, line.length, line.length + marker.length⟩ req hstop
    ((slice_firstLine htext hmethod).trans hbehind) hbefore hc
  have htab : TabbedPath needle (slice mem 0 hi).bytes ↔ c = tab := by
    rw [TabbedPath, htext, List.append_assoc, List.drop_append_of_le_length hmethod,
      ← List.append_assoc, hbehind, List.append_assoc, List.find?_append,
      List.find?_eq_none.mpr (by simpa using hbefore)]
    simp [hc]
  by_cases hctab : c = tab
  · refine Or.inl ⟨htab.mpr hctab, ?_⟩
    rw [hpath, if_pos hctab]
  · refine Or.inr ⟨fun h => hctab (htab.mp h), ⟨needle.length, needle.length + before.length⟩, ?_⟩
    rw [hpath, if_neg hctab]

/-- When the request line has been read and the search for the empty line has gone on behind it, the parse ends as
`ParseOutcome` says. -/
theorem ParseOutcome.of_headSearch {data : ReadBufferImpl} {needle text line marker after : List UInt8}
    {loop : Option (ℕ × CRequest)} (hmem : needle ∈ requestMethods) (hpre : FoldPrefix needle text)
    (hnot : ¬ TabbedPath needle text) (htext : text = line ++ marker ++ after)
    (hmarker : marker = [lf] ∧ line.getLast? ≠ some cr ∨ marker = [cr, lf])
    (hblank : HasBlankLine text ↔ HasBlankLine after)
    (hrest : HeadSearch data (line.length + marker.length) after loop) : ParseOutcome data text loop := by
  cases hrest with
  | blank req length hcontent hb =>
      refine .accepted req needle _ hmem hpre hcontent ?_ (Or.inr hnot)
      rw [htext]
      exact hasBlankLine_take_of_line hmarker hb
  | absent req hfull hb => exact .tooLong req needle hmem hpre hfull fun h => hb (hblank.mp h)
  | fault hshort hb =>
      exact .fault needle hmem hpre hshort (fun h => hb (hblank.mp h)) fun _ => hnot

/-- When the window begins with a method, `lineLoop` from the request line on ends as `ParseOutcome` says. -/
theorem parseOutcome_lineLoop (data : ReadBufferImpl) (needle : List UInt8) (req : CRequest)
    (hmem : needle ∈ requestMethods)
    (hpre : FoldPrefix needle (slice data.memory 0 data.dataPartLength).bytes) :
    ParseOutcome data (slice data.memory 0 data.dataPartLength).bytes
      (lineLoop data needle.length (data.dataPartLength + 1) 0 0 req) := by
  have hlo : 0 ≤ data.memory.length := Nat.zero_le _
  have hnext : NextLine _ 0 _ (findValues (slice data.memory 0 data.head.stop) httpLineEndians) :=
    nextLine_findValues 0 data.dataPartLength
  rw [lineLoop]
  generalize findValues (slice data.memory 0 data.head.stop) httpLineEndians = found at hnext ⊢
  cases hnext with
  | fault hcut hopen hblank =>
      rw [slice_cut_eq hlo, decide_eq_true_eq] at hcut
      exact .fault needle hmem hpre hcut hblank fun h => absurd h hopen
  | absent hcut hblank =>
      rw [slice_cut_eq hlo, decide_eq_false_iff_not, not_lt] at hcut
      exact .tooLong req needle hmem hpre hcut hblank
  | blank result line marker after htext hline hresult hmarker =>
      -- The head ends with the first line, before that is read.
      have hle : ¬ 2 < result := by omega
      have hne : result ≠ 0 := by omega
      have hends := firstLineEndsHead_of_marker after hline hmarker
      rw [← htext] at hends
      simp only [hle, hne, if_false, Option.bind_eq_bind, Option.bind_some]
      exact .accepted _ needle (line.length + marker.length) hmem hpre (by rw [Nat.zero_add])
        (hasBlankLine_take_of_blank htext hline hmarker) (Or.inl hends)
  | line result line marker after htext hline hresult hmarker hdecided hends hblank =>
      obtain ⟨hstop, hafter⟩ := slice_after hlo htext
      rw [Nat.zero_add] at hstop hafter
      have hlf : lf ∈ marker := by
        rcases hmarker with ⟨rfl, -⟩ | rfl <;> decide
      have hne : result ≠ 0 := by omega
      rw [Nat.zero_add]
      rcases parsePath_firstLine result req htext (method_length_le_line hmem hpre htext hmarker) hlf
        hstop with ⟨htab, hpath⟩ | ⟨hnot, uri, hpath⟩
      · simp only [hne, if_false, hresult, if_true, ne_eq, not_true_eq_false, hpath,
          Option.bind_eq_bind, Option.bind_some]
        refine .refused req needle hmem hpre hends htab fun hshort => hdecided ?_
        rw [slice_cut_eq hlo, decide_eq_true_eq]
        exact hshort
      · simp only [hne, if_false, hresult, if_true, ne_eq, not_true_eq_false, hpath,
          Option.bind_eq_bind, Option.bind_some]
        have hrest := headSearch_lineLoop data needle.length data.dataPartLength
          (line.length + marker.length) 1 { req with uri := some uri } (by decide) hstop
          (by
            rw [hafter]
            have hlen := congrArg List.length htext
            have hpos : 0 < marker.length := List.length_pos_of_mem hlf
            simp only [slice_bytes, List.length_drop, List.length_take, List.length_append] at hlen
            omega)
        rw [hafter] at hrest
        exact ParseOutcome.of_headSearch hmem hpre hnot htext hmarker hblank hrest

/-- The parse of a request that is not empty ends as `ParseOutcome` says. -/
theorem parseOutcome (data : ReadBufferImpl) (req : CRequest) (hne : data.dataLength ≠ 0) :
    ParseOutcome data (slice data.memory 0 data.dataPartLength).bytes (httpParseRequest data req) := by
  have hempty : data.empty = false := by simpa [ReadBufferImpl.empty] using hne
  have hcut : (slice data.memory 0 data.dataPartLength).cut
      = decide (data.memory.length < data.dataPartLength) := slice_cut_eq (Nat.zero_le _)
  rw [httpParseRequest, hempty]
  simp only [Bool.false_eq_true, if_false]
  by_cases hpre : ∃ needle ∈ requestMethods,
      FoldPrefix needle (slice data.memory 0 data.dataPartLength).bytes
  · obtain ⟨needle, hmem, hpre⟩ := hpre
    have hmatch := matchFrom_of_foldPrefix prefixFree_requestMethods hmem hpre 0
    rw [show matchValues (slice data.memory data.head.start data.head.stop) requestMethods
      = _ from hmatch]
    have hout := parseOutcome_lineLoop data needle
      { req with method := some (RequestMethod.ofResult (0 + requestMethods.idxOf needle + 1)) }
      hmem hpre
    simpa [ReadBufferImpl.head] using hout
  · have hpre : ∀ needle ∈ requestMethods,
        ¬ FoldPrefix needle (slice data.memory 0 data.dataPartLength).bytes :=
      fun needle hmem h => hpre ⟨needle, hmem, h⟩
    by_cases hstop : ∃ needle ∈ requestMethods,
        StopsWithin (slice data.memory 0 data.dataPartLength).bytes needle
    · obtain ⟨needle, hmem, hstop⟩ := hstop
      have hmatch := matchFrom_of_stopsWithin prefixFree_requestMethods hmem hstop 0
      rw [show matchValues (slice data.memory data.head.start data.head.stop) requestMethods
        = _ from hmatch, hcut]
      by_cases hshort : data.memory.length < data.dataPartLength
      · simpa [hshort] using ParseOutcome.methodFault needle hmem hshort hstop
      · simpa [hshort, MatchResult.fail] using
          ParseOutcome.noMethod req hpre fun h => absurd h hshort
    · have hstop : ∀ needle ∈ requestMethods,
          ¬ StopsWithin (slice data.memory 0 data.dataPartLength).bytes needle :=
        fun needle hmem h => hstop ⟨needle, hmem, h⟩
      have hmatch := matchFrom_of_not hpre hstop 0
      rw [show matchValues (slice data.memory data.head.start data.head.stop) requestMethods
        = _ from hmatch]
      simpa [MatchResult.fail] using ParseOutcome.noMethod req hpre fun _ => hstop

end Http

end NavekFiber
