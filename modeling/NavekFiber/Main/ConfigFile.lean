import NavekFiber.Main.ConfigRegex

/-! # Reading the lines of a configuration

`initConfig` gets one line of the file after the other, and joins the lines that are continued by a backslash
before it looks at them. The two loops read from one stream, and the inner one uses its line once more when
the stream is at its end.

* `readLoop`, `joinLoop`: the loops, `readConfig` and `logicalLines` on the contents of a file.
* `readLoop_eq`: the loops as a function of the lines in the file.
* `logicalLines_eq_iff`: a joined line has the text of each of its lines once unless the file ends, without
  a newline, in two lines that are continued. -/

namespace NavekFiber

/-- An `ifstream`: what is left of the file, and whether its end has been met. -/
structure IStream where
  /-- What has not been read yet. -/
  rest : Text
  /-- Whether the end has been met. -/
  eofbit : Bool

/-- `std::getline`: whether it succeeds, the stream behind the line, and the line. A stream that is at its
end already leaves the string as it is. -/
def getline (cfgfile : IStream) (str : Text) : Bool × IStream × Text :=
  if cfgfile.eofbit then (false, cfgfile, str)
  else
    let line := cfgfile.rest.takeWhile (· != 10)
    match cfgfile.rest.dropWhile (· != 10) with
    | _ :: rest => (true, ⟨rest, false⟩, line)
    | [] => (line != [], ⟨[], true⟩, line)

/-- The inner loop of `initConfig`, with what has been joined so far: the stream and the joined line. -/
def joinLoop : ℕ → IStream → Text → Text → IStream × Text
  | 0, cfgfile, linebreak, content => (cfgfile, content ++ spaceClean linebreak)
  | fuel + 1, cfgfile, linebreak, content =>
      match getline cfgfile linebreak with
      | (true, cfgfile, linebreak) =>
          match regexSearch reConfigLineBreakClean linebreak with
          | some m => joinLoop fuel cfgfile linebreak (content ++ removeComment (m.str 1))
          | none => (cfgfile, content ++ spaceClean linebreak)
      | (false, cfgfile, linebreak) => (cfgfile, content ++ spaceClean linebreak)

/-- The outer loop of `initConfig`; `body` is what is done with a line. -/
def readLoop {σ : Type} (body : σ → Text → Option σ) : ℕ → IStream → Text → σ → Option σ
  | 0, _, _, state => some state
  | fuel + 1, cfgfile, content, state =>
      match getline cfgfile content with
      | (true, cfgfile, content) =>
          let (cfgfile, content) :=
            match regexSearch reConfigLineBreakClean content with
            | some m => joinLoop (cfgfile.rest.length + 1) cfgfile [] (m.str 1)
            | none => (cfgfile, content)
          match body state content with
          | some state => readLoop body fuel cfgfile content state
          | none => none
      | (false, _, _) => some state

/-- `initConfig` on the contents of a file, with the section that it ends in. -/
def readFile (content : Text) : Option ConfigBuilder :=
  readLoop (fun b line => b.configLine (lineOf line)) (content.length + 1) ⟨content, false⟩ [] ⟨[], ∅⟩

/-- `initConfig` on the contents of a file. -/
def readConfig (content : Text) : Option (UnorderedMap Text ConfigValue) :=
  (readFile content).map ConfigBuilder.config

/-- The lines that `initConfig` looks at. -/
def logicalLines (content : Text) : List Text :=
  (readLoop (fun lines line => some (lines ++ [line])) (content.length + 1) ⟨content, false⟩ [] []).getD []

/-! ### The lines in the file -/

/-- The lines of a text; the last one may lack its newline. -/
def physicalLines : Text → List Text
  | [] => []
  | b :: rest =>
      if b = 10 then [] :: physicalLines rest
      else
        match physicalLines rest with
        | [] => [[b]]
        | line :: lines => (b :: line) :: lines

/-- Whether the text that is left of a stream ends with a newline. -/
def IStream.Ended (cfgfile : IStream) : Prop :=
  cfgfile.eofbit = false ∧ (cfgfile.rest = [] ∨ cfgfile.rest.getLast? = some 10)

instance (cfgfile : IStream) : Decidable cfgfile.Ended := inferInstanceAs (Decidable (_ ∧ _))

/-- A line that the next one continues: it ends in a backslash, up to white space. -/
def Continued (line : Text) : Prop := (breakText line).isSome

instance (line : Text) : Decidable (Continued line) := inferInstanceAs (Decidable (_ = true))

/-- The two loops of `initConfig`, on the lines of a file. In the inner loop there is a line that is being joined, and
the line that has been read last. -/
def assemble (ended : Bool) : Option (Text × Text) → List Text → List Text
  | none, [] => []
  | some (content, linebreak), [] => [content ++ endText (if ended then [] else linebreak)]
  | none, line :: lines =>
      match breakText line with
      | some text => assemble ended (some (text, [])) lines
      | none => line :: assemble ended none lines
  | some (content, _), line :: lines =>
      match breakText line with
      | some text => assemble ended (some (content ++ removeComment text, line)) lines
      | none => (content ++ endText line) :: assemble ended none lines

variable {σ : Type} {body : σ → Text → Option σ} {cfgfile : IStream} {content line str linebreak : Text}
  {lines : List Text}

theorem physicalLines_append_newline (h : 10 ∉ line) (rest : Text) :
    physicalLines (line ++ 10 :: rest) = line :: physicalLines rest := by
  induction line with
  | nil => exact if_pos rfl
  | cons b line ih =>
      obtain ⟨hb, hline⟩ := not_or.mp (List.mem_cons.not.mp h)
      rw [List.cons_append, physicalLines, if_neg (Ne.symm hb), ih hline]

theorem physicalLines_of_not_mem (h : 10 ∉ line) (hnil : line ≠ []) : physicalLines line = [line] := by
  induction line with
  | nil => exact absurd rfl hnil
  | cons b line ih =>
      obtain ⟨hb, hline⟩ := not_or.mp (List.mem_cons.not.mp h)
      rw [physicalLines, if_neg (Ne.symm hb)]
      cases line with
      | nil => rfl
      | cons c line => rw [ih hline (List.cons_ne_nil c line)]

theorem physicalLines_ne_nil (h : content ≠ []) : physicalLines content ≠ [] := by
  obtain ⟨b, rest, rfl⟩ := List.exists_cons_of_ne_nil h
  rw [physicalLines]
  split
  · exact List.cons_ne_nil _ _
  · split <;> exact List.cons_ne_nil _ _

/-- One `getline` takes the first line off the text while there is one, and else fails at the end of the file. -/
theorem getline_cases (cfgfile : IStream) (hok : cfgfile.eofbit = true → cfgfile.rest = []) (str : Text) :
    (cfgfile.rest = [] ∧ getline cfgfile str = (false, ⟨[], true⟩, if cfgfile.Ended then [] else str)) ∨
      ∃ line next, getline cfgfile str = (true, next, line) ∧
        physicalLines cfgfile.rest = line :: physicalLines next.rest ∧
        (next.Ended ↔ cfgfile.Ended) ∧ (next.eofbit = true → next.rest = []) ∧
        next.rest.length < cfgfile.rest.length := by
  obtain ⟨rest, eofbit⟩ := cfgfile
  cases eofbit with
  | true =>
      obtain rfl : rest = [] := hok rfl
      exact Or.inl ⟨rfl, rfl⟩
  | false =>
      have hwhile : ∀ {line : Text}, 10 ∉ line → ∀ b ∈ line, (b != 10) = true :=
        fun h b hb => bne_iff_ne.mpr fun heq => h (heq ▸ hb)
      by_cases hmem : 10 ∈ rest
      · -- There is a newline, and the line ends there.
        obtain ⟨line, next, rfl, hline⟩ := List.eq_append_cons_of_mem hmem
        refine Or.inr ⟨line, ⟨next, false⟩, ?_, physicalLines_append_newline hline next, ?_, by simp, ?_⟩
        · rw [getline, if_neg Bool.false_ne_true, List.takeWhile_append_of_pos (hwhile hline),
            List.dropWhile_append_of_pos (hwhile hline), List.takeWhile_cons_of_neg (by decide),
            List.dropWhile_cons_of_neg (by decide), List.append_nil]
        · rcases List.eq_nil_or_concat' next with rfl | ⟨front, last, rfl⟩
          · simp [IStream.Ended]
          · have hlast : (line ++ 10 :: (front ++ [last])).getLast? = (front ++ [last]).getLast? := by
              rw [← List.cons_append, ← List.append_assoc, List.getLast?_concat, List.getLast?_concat]
            simp [IStream.Ended, hlast]
        · show next.length < (line ++ 10 :: next).length
          rw [List.length_append, List.length_cons]
          omega
      · have htake : rest.takeWhile (· != 10) = rest := List.takeWhile_eq_self_iff.mpr (hwhile hmem)
        have hdrop : rest.dropWhile (· != 10) = [] := List.dropWhile_eq_nil_iff.mpr (hwhile hmem)
        cases rest with
        | nil => exact Or.inl ⟨rfl, rfl⟩
        | cons b rest =>
            -- The last line lacks its newline.
            refine Or.inr ⟨b :: rest, ⟨[], true⟩, ?_, ?_, ?_, fun _ => rfl, by simp⟩
            · rw [getline, if_neg Bool.false_ne_true, htake, hdrop]
              rfl
            · exact physicalLines_of_not_mem hmem (List.cons_ne_nil b rest)
            · have hlast : (b :: rest).getLast? ≠ some 10 := fun h => hmem (List.mem_of_getLast? h)
              simp [IStream.Ended, hlast]

/-! ### The loops -/

/-- `joinLoop` joins lines up to the first one that is not continued or the end of the file, as `assemble` does. -/
theorem joinLoop_eq {fuel : ℕ} (hfuel : cfgfile.rest.length < fuel)
    (hok : cfgfile.eofbit = true → cfgfile.rest = []) (content linebreak : Text) :
    ∃ next joined, joinLoop fuel cfgfile linebreak content = (next, joined) ∧
      (next.eofbit = true → next.rest = []) ∧ next.rest.length ≤ cfgfile.rest.length ∧
      assemble cfgfile.Ended (some (content, linebreak)) (physicalLines cfgfile.rest) =
        joined :: assemble next.Ended none (physicalLines next.rest) := by
  induction fuel generalizing cfgfile content linebreak with
  | zero => exact absurd hfuel (Nat.not_lt_zero _)
  | succ fuel ih =>
      rw [joinLoop]
      rcases getline_cases cfgfile hok linebreak with
        ⟨hnil, hget⟩ | ⟨line, next, hget, hlines, hended, hok', hlt⟩
      · refine ⟨⟨[], true⟩, content ++ spaceClean (if cfgfile.Ended then [] else linebreak), ?_, fun _ => rfl,
          by simp, ?_⟩
        · rw [hget]
        · rw [hnil, spaceClean_eq]
          simp only [physicalLines, assemble, decide_eq_true_eq]
      · simp only [hget]
        rw [hlines, assemble, ← search_lineBreak]
        cases regexSearch reConfigLineBreakClean line with
        | some m =>
            obtain ⟨last, joined, hjoin, hok'', hle, heq⟩ :=
              ih (by omega) hok' (content ++ removeComment (m.str 1)) line
            refine ⟨last, joined, hjoin, hok'', by omega, ?_⟩
            rw [← heq]
            simp only [Option.map_some, hended]
        | none =>
            refine ⟨next, content ++ spaceClean line, rfl, hok', hlt.le, ?_⟩
            simp only [Option.map_none, hended, spaceClean_eq]

/-- `readLoop` runs its body on the lines of `assemble`, one after the other. -/
theorem readLoop_eq {fuel : ℕ} (hfuel : cfgfile.rest.length < fuel)
    (hok : cfgfile.eofbit = true → cfgfile.rest = []) (content : Text) (state : σ) :
    readLoop body fuel cfgfile content state =
      (assemble cfgfile.Ended none (physicalLines cfgfile.rest)).foldlM body state := by
  induction fuel generalizing cfgfile content state with
  | zero => exact absurd hfuel (Nat.not_lt_zero _)
  | succ fuel ih =>
      rw [readLoop]
      rcases getline_cases cfgfile hok content with
        ⟨hnil, hget⟩ | ⟨line, next, hget, hlines, hended, hok', hlt⟩
      · rw [hget, hnil]
        rfl
      · simp only [hget]
        rw [hlines, assemble, ← search_lineBreak]
        cases regexSearch reConfigLineBreakClean line with
        | some m =>
            obtain ⟨last, joined, hjoin, hok'', hle, heq⟩ := joinLoop_eq (Nat.lt_succ_self _) hok' (m.str 1) []
            simp only [hjoin, Option.map_some, ← hended, heq, List.foldlM_cons]
            cases body state joined with
            | none => rfl
            | some state => exact ih (by omega) hok'' joined state
        | none =>
            simp only [Option.map_none, ← hended, List.foldlM_cons]
            cases body state line with
            | none => rfl
            | some state => exact ih (by omega) hok' line state

theorem readLoop_file (content : Text) (state : σ) :
    readLoop body (content.length + 1) ⟨content, false⟩ [] state =
      (assemble (IStream.Ended ⟨content, false⟩) none (physicalLines content)).foldlM body state :=
  readLoop_eq (Nat.lt_succ_self _) (fun h => by cases h) [] state

/-- The lines that `initConfig` looks at are `assemble` of the lines of the file. -/
theorem logicalLines_eq (content : Text) :
    logicalLines content = assemble (IStream.Ended ⟨content, false⟩) none (physicalLines content) := by
  have hfold : ∀ lines before : List Text,
      lines.foldlM (fun lines line => some (lines ++ [line])) before = some (before ++ lines) := by
    intro lines
    induction lines with
    | nil => exact fun before => by rw [List.append_nil]; rfl
    | cons line lines ih =>
        intro before
        rw [List.foldlM_cons]
        exact (ih (before ++ [line])).trans (by rw [List.append_assoc, List.singleton_append])
  rw [logicalLines, readLoop_file, hfold, Option.getD_some, List.nil_append]

theorem readFile_eq (content : Text) :
    readFile content = ((logicalLines content).map lineOf).foldlM ConfigBuilder.configLine ⟨[], ∅⟩ := by
  rw [readFile, readLoop_file, List.foldlM_map, logicalLines_eq]

/-- `readConfig` reads the configuration of the logical lines of the file, each classified by `lineOf`. -/
theorem readConfig_eq (content : Text) :
    readConfig content = initConfig ((logicalLines content).map lineOf) := by
  rw [readConfig, readFile_eq, initConfig]

/-! ### Runs of continued lines -/

/-- The lines of a file in runs: lines that are continued, and the line behind them. -/
def runs : List Text → List (List Text)
  | [] => []
  | line :: lines =>
      if Continued line then
        match runs lines with
        | [] => [[line]]
        | run :: rest => (line :: run) :: rest
      else [line] :: runs lines

/-- The text that a line has behind another one: without its backslash and its comment, or the line that ends
the run. -/
def innerText (line : Text) : Text :=
  match breakText line with
  | some text => removeComment text
  | none => endText line

/-- The texts of a run, each of them once. -/
def runText : List Text → Text
  | [] => []
  | line :: lines => (breakText line).getD line ++ lines.flatMap innerText

/-- The line that the inner loop has read last: while a run goes on, the last line behind its first one. -/
def lastRead (linebreak : Option Text) (line : Text) : Option Text :=
  if Continued line then some (if linebreak.isSome then line else []) else none

/-- What the end of the file adds to the line that is being joined. -/
def surplus (ended : Bool) : Option Text → Text
  | some linebreak => endText (if ended then [] else linebreak)
  | none => []

/-- A list of lines with a text added to its last line. -/
def addToLast (text : Text) : List Text → List Text
  | [] => []
  | [line] => [line ++ text]
  | line :: next :: lines => line :: addToLast text (next :: lines)

/-- A line that is being joined, with the rest of its run behind it. -/
def joinRun (content : Text) (lines : List Text) : List Text :=
  match runs lines with
  | [] => [content]
  | run :: rest => (content ++ run.flatMap innerText) :: rest.map runText

@[simp] theorem addToLast_nil (lines : List Text) : addToLast [] lines = lines := by
  induction lines with
  | nil => rfl
  | cons line lines ih =>
      cases lines with
      | nil => simp [addToLast]
      | cons next lines => rw [addToLast, ih]

theorem addToLast_cons {text : Text} (h : lines = [] → text = []) :
    addToLast text (line :: lines) = line :: addToLast text lines := by
  cases lines with
  | nil => rw [h rfl, addToLast_nil, addToLast_nil]
  | cons next lines => rfl

theorem runs_eq_nil_iff : runs lines = [] ↔ lines = [] := by
  cases lines with
  | nil => exact iff_of_true rfl rfl
  | cons line lines =>
      rw [runs]
      split
      · split <;> simp
      · simp

theorem continued_of_some {text : Text} (h : breakText line = some text) : Continued line := by
  rw [Continued, h]
  rfl

theorem not_continued_of_none (h : breakText line = none) : ¬ Continued line := by
  rw [Continued, h]
  exact Bool.false_ne_true

/-- The texts of the runs of a file whose first line is continued: the text of this line is joined with the run behind
it. -/
theorem map_runText_of_some {text : Text} (h : breakText line = some text) :
    (runs (line :: lines)).map runText = joinRun text lines := by
  rw [joinRun, runs, if_pos (continued_of_some h)]
  cases runs lines <;> simp [runText, h]

theorem joinRun_of_some {text : Text} (h : breakText line = some text) (content : Text) :
    joinRun content (line :: lines) = joinRun (content ++ removeComment text) lines := by
  rw [joinRun, joinRun, runs, if_pos (continued_of_some h)]
  cases runs lines <;> simp [innerText, h]

/-- A first line that is not continued is a run by itself, with the line as its text. -/
theorem map_runText_of_none (h : breakText line = none) :
    (runs (line :: lines)).map runText = line :: (runs lines).map runText := by
  rw [runs, if_neg (not_continued_of_none h)]
  simp [runText, h]

theorem joinRun_of_none (h : breakText line = none) (content : Text) :
    joinRun content (line :: lines) = (content ++ endText line) :: (runs lines).map runText := by
  rw [joinRun, runs, if_neg (not_continued_of_none h)]
  simp [innerText, h]

/-- `assemble` gives each run its `runText`, and the `surplus` to the last of them. -/
theorem assemble_eq (ended : Bool) (lines : List Text) :
    assemble ended none lines =
        addToLast (surplus ended (lines.foldl lastRead none)) ((runs lines).map runText) ∧
      ∀ content linebreak, assemble ended (some (content, linebreak)) lines =
        addToLast (surplus ended (lines.foldl lastRead (some linebreak))) (joinRun content lines) := by
  induction lines with
  | nil => exact ⟨rfl, fun content linebreak => rfl⟩
  | cons line lines ih =>
      obtain ⟨ihnone, ihsome⟩ := ih
      cases hbreak : breakText line with
      | some text =>
          have hstep : ∀ linebreak, lastRead linebreak line = some (if linebreak.isSome then line else []) :=
            fun _ => if_pos (continued_of_some hbreak)
          refine ⟨?_, fun content linebreak => ?_⟩
          · simp only [assemble, hbreak]
            rw [ihsome, List.foldl_cons, hstep, map_runText_of_some hbreak]
            rfl
          · simp only [assemble, hbreak]
            rw [ihsome, List.foldl_cons, hstep, joinRun_of_some hbreak]
            rfl
      | none =>
          have hstep : ∀ linebreak, lastRead linebreak line = none :=
            fun _ => if_neg (not_continued_of_none hbreak)
          -- Behind the last line there is nothing to add.
          have hnil : (runs lines).map runText = [] → surplus ended (lines.foldl lastRead none) = [] := by
            intro h
            rw [List.map_eq_nil_iff, runs_eq_nil_iff] at h
            subst h
            rfl
          refine ⟨?_, fun content linebreak => ?_⟩
          · simp only [assemble, hbreak]
            rw [ihnone, List.foldl_cons, hstep, map_runText_of_none hbreak, addToLast_cons hnil]
          · simp only [assemble, hbreak]
            rw [ihnone, List.foldl_cons, hstep, joinRun_of_none hbreak, addToLast_cons hnil]

/-- The text of a continued line, with its backslash, is not empty. -/
theorem endText_ne_nil (h : Continued line) : endText line ≠ [] := by
  have hlast : (Utils.trim line).getLast? = some 92 := by
    rw [Continued, breakText] at h
    split at h
    · rename_i hline
      exact hline.1
    · cases h
  have htrim : Utils.trim line ≠ [] := fun hnil => by
    rw [hnil] at hlast
    cases hlast
  rw [endText]
  split
  · exact htrim
  · rintro rfl
    exact htrim rfl

theorem addToLast_eq_self_iff {text : Text} (hnil : lines ≠ []) : addToLast text lines = lines ↔ text = [] := by
  refine ⟨fun h => ?_, fun h => h ▸ addToLast_nil lines⟩
  induction lines with
  | nil => exact absurd rfl hnil
  | cons line lines ih =>
      cases lines with
      | nil => exact List.append_right_eq_self.mp (List.singleton_inj.mp h)
      | cons next lines => exact ih (List.cons_ne_nil next lines) (List.cons.inj h).2

/-- The last two lines of a list are continued. -/
def EndsContinued (lines : List Text) : Prop :=
  ∃ front line last, lines = front ++ [line, last] ∧ Continued line ∧ Continued last

/-- The end of a file adds nothing to its last line exactly when the file ends with a newline, or its last two lines
are not both continued. -/
theorem surplus_eq_nil_iff (ended : Bool) (lines : List Text) :
    surplus ended (lines.foldl lastRead none) = [] ↔ ended = true ∨ ¬ EndsContinued lines := by
  have hnone : ∀ ended, surplus ended (some []) = [] := by decide
  rcases List.eq_nil_or_concat' lines with rfl | ⟨front, last, rfl⟩
  · exact iff_of_true rfl (Or.inr fun ⟨front, line, last, h, _⟩ => by simp at h)
  · by_cases hlast : Continued last
    · rcases List.eq_nil_or_concat' front with rfl | ⟨front, line, rfl⟩
      · -- The only line begins its run.
        refine iff_of_true ?_ (Or.inr fun ⟨front, line, last, h, _⟩ => ?_)
        · rw [List.nil_append, List.foldl_cons, List.foldl_nil, lastRead, if_pos hlast]
          exact hnone ended
        · simpa using congrArg List.length h
      · rw [List.append_assoc, List.singleton_append, List.foldl_append, List.foldl_cons, List.foldl_cons,
          List.foldl_nil, lastRead, if_pos hlast]
        have hends : EndsContinued (front ++ [line, last]) ↔ Continued line := by
          constructor
          · rintro ⟨front', line', last', h, hline, -⟩
            obtain ⟨-, h⟩ := List.append_inj' h rfl
            rwa [(List.cons.inj h).1]
          · exact fun hline => ⟨front, line, last, rfl, hline, hlast⟩
        rw [hends]
        by_cases hline : Continued line
        · cases ended with
          | true => exact iff_of_true (by simp [surplus, endText]; decide) (Or.inl rfl)
          | false =>
              rw [lastRead, if_pos hline]
              exact iff_of_false (endText_ne_nil hlast) (by simpa using hline)
        · rw [lastRead, if_neg hline]
          exact iff_of_true (hnone ended) (Or.inr hline)
    · rw [List.foldl_append, List.foldl_cons, List.foldl_nil, lastRead, if_neg hlast]
      refine iff_of_true rfl (Or.inr ?_)
      rintro ⟨front', line', last', h, -, hlast'⟩
      rw [show front' ++ [line', last'] = (front' ++ [line']) ++ [last'] by simp] at h
      obtain ⟨-, h⟩ := List.append_inj' h rfl
      rw [List.singleton_inj.mp h] at hlast
      exact hlast hlast'

/-- Each line that is joined from a run has the text of each of the lines once, unless the file ends without a
newline behind two lines that are continued: the last one of them is then added once more. -/
theorem logicalLines_eq_iff (content : Text) :
    logicalLines content = (runs (physicalLines content)).map runText ↔
      content.getLast? = some 10 ∨ ¬ EndsContinued (physicalLines content) := by
  rw [logicalLines_eq, (assemble_eq _ _).1]
  rcases List.eq_nil_or_concat' content with rfl | ⟨front, last, rfl⟩
  · refine iff_of_true rfl (Or.inr ?_)
    rintro ⟨front, line, last, h, -⟩
    simp [physicalLines] at h
  · have hnil : (runs (physicalLines (front ++ [last]))).map runText ≠ [] := by
      rw [Ne, List.map_eq_nil_iff, runs_eq_nil_iff]
      exact physicalLines_ne_nil (by simp)
    rw [addToLast_eq_self_iff hnil, surplus_eq_nil_iff]
    simp [IStream.Ended]

/-- A file that lacks its newline, behind two lines that are continued. -/
def unterminated : Text := bytes "a\\\nb\\"

/-- In the file `unterminated` the second line is joined twice: the logical lines are not the texts of the runs for
every file. -/
theorem not_logicalLines_eq_of_unterminated :
    ¬ ∀ content, logicalLines content = (runs (physicalLines content)).map runText := by
  intro h
  have hjoined : logicalLines unterminated = [bytes "abb\\"] := by decide +kernel
  have hrun : (runs (physicalLines unterminated)).map runText = [bytes "ab"] := by decide +kernel
  have heq := h unterminated
  rw [hjoined, hrun] at heq
  exact absurd heq (by decide)

end NavekFiber
