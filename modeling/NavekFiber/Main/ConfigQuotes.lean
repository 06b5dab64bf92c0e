import NavekFiber.Main.ConfigKeys

/-! # Quoted values

A value in quotes is taken as it stands between them, and what looks like a comment in it is removed then,
quotes or not. So a quoted value is stored as it is exactly when it has no `#` (`valueIn_quotedLine_iff`). -/

namespace NavekFiber

open ConfigBuilder

variable {front back line name value rest : Text} {lines lines' : List Text} {b b' : ConfigBuilder}
  {space key text : Text} {config : UnorderedMap Text ConfigValue}

/-! ### A line of its own -/

/-- A text behind which a new line begins: it is empty, or it ends with a newline and its last line is not
continued. -/
structure EndsLine (front : Text) : Prop where
  /-- The last line has its newline. -/
  ended : front = [] ∨ front.getLast? = some 10
  /-- The last line is not continued. -/
  complete : ∀ line ∈ (physicalLines front).getLast?, ¬ Continued line

theorem physicalLines_append (hfront : front = [] ∨ front.getLast? = some 10) (back : Text) :
    physicalLines (front ++ back) = physicalLines front ++ physicalLines back := by
  induction front with
  | nil => rfl
  | cons c front ih =>
      have hlast : (c :: front).getLast? = some 10 := hfront.resolve_left (List.cons_ne_nil c front)
      rcases eq_or_ne front [] with rfl | hnil
      · obtain rfl : c = 10 := Option.some.inj hlast
        rfl
      · have hrest := ih (Or.inr (by rwa [List.getLast?_cons_of_ne_nil hnil] at hlast))
        obtain ⟨line, lines, hlines⟩ := List.exists_cons_of_ne_nil (physicalLines_ne_nil hnil)
        rw [List.cons_append, physicalLines, hrest, physicalLines, hlines]
        split <;> rfl

/-- Lines that do not end in the middle of a run are assembled apart from those behind them. -/
theorem assemble_append (ended ended' : Bool) (state : Option (Text × Text))
    (hstate : lines = [] → state = none) (hlast : ∀ line ∈ lines.getLast?, ¬ Continued line) :
    assemble ended state (lines ++ lines') = assemble ended' state lines ++ assemble ended none lines' := by
  induction lines generalizing state with
  | nil =>
      rw [hstate rfl]
      rfl
  | cons line lines ih =>
      have hrest : ∀ line' ∈ lines.getLast?, ¬ Continued line' := by
        cases lines with
        | nil => simp
        | cons next lines => exact hlast
      -- A line that is continued is not the last one.
      have hnil : Continued line → lines ≠ [] := by
        rintro hline rfl
        exact hlast line rfl hline
      cases hbreak : breakText line with
      | some text =>
          have hline := hnil (continued_of_some hbreak)
          cases state with
          | none =>
              simp only [List.cons_append, assemble, hbreak]
              exact ih _ (fun h => absurd h hline) hrest
          | some joined =>
              obtain ⟨content, linebreak⟩ := joined
              simp only [List.cons_append, assemble, hbreak]
              exact ih _ (fun h => absurd h hline) hrest
      | none =>
          cases state with
          | none =>
              simp only [List.cons_append, assemble, hbreak]
              rw [ih none (fun _ => rfl) hrest]
          | some joined =>
              obtain ⟨content, linebreak⟩ := joined
              simp only [List.cons_append, assemble, hbreak]
              rw [ih none (fun _ => rfl) hrest]

/-- A line that is not continued is a logical line by itself, between those of the text in front of it and those
behind. -/
theorem logicalLines_append (hfront : EndsLine front) (hline : ¬ Continued line) (hmem : 10 ∉ line)
    (hnil : line ≠ []) (hrest : ∀ c ∈ rest.head?, c = 10) :
    ∃ behind, logicalLines (front ++ (line ++ rest)) = logicalLines front ++ line :: behind := by
  have hphysical : ∃ behind, physicalLines (line ++ rest) = line :: behind := by
    cases rest with
    | nil => exact ⟨[], by rw [List.append_nil, physicalLines_of_not_mem hmem hnil]⟩
    | cons c rest =>
        obtain rfl : c = 10 := hrest c rfl
        exact ⟨_, physicalLines_append_newline hmem rest⟩
  obtain ⟨behind, hbehind⟩ := hphysical
  have hbreak : breakText line = none := by simpa [Continued] using hline
  rw [logicalLines_eq, logicalLines_eq, physicalLines_append hfront.ended, hbehind,
    assemble_append _ _ none (fun _ => rfl) hfront.complete]
  simp only [assemble, hbreak]
  exact ⟨_, rfl⟩

/-- A key that has a value keeps it while further lines are read. -/
theorem valueIn_of_foldlM {lines : List ConfigLine} (hread : lines.foldlM configLine b = some b')
    (hvalue : valueIn b.config space key = some text) : valueIn b'.config space key = some text := by
  induction lines generalizing b with
  | nil =>
      obtain rfl : b = b' := Option.some.inj hread
      exact hvalue
  | cons line lines ih =>
      rw [List.foldlM_cons] at hread
      obtain ⟨b₁, hline, hrest⟩ := Option.bind_eq_some_iff.mp hread
      refine ih hrest ?_
      cases line with
      | header level hlevel node =>
          rw [configLine_header hlevel] at hline
          obtain rfl := Option.some.inj hline
          rw [valueIn_openSection, hvalue]
      | property name value =>
          have hentered : (b.config.find (dotted b.path)).isSome :=
            (isSome_configLine_iff b (.property name value)).mp (by rw [hline]; rfl) name value rfl
          obtain ⟨b₂, hline', -, -, hvalues⟩ := configLine_property name value hentered
          obtain rfl := Option.some.inj (hline'.symm.trans hline)
          rw [hvalues]
          split
          · rw [hvalue, Option.getD_some]
          · exact hvalue
      | other =>
          obtain rfl := Option.some.inj hline
          exact hvalue

/-- A line `name = "value"` is not continued, since its last character is a quote. -/
theorem not_continued_quotedLine (name value : Text) : ¬ Continued (quotedLine name value) := by
  have hsplit : quotedLine name value = (name ++ ([32, 61, 32, 34] ++ value)) ++ [34] := by
    simp [quotedLine_eq]
  rw [Continued, breakText, hsplit, trim_concat (by decide), List.getLast?_concat, if_neg (by simp)]
  exact Bool.false_ne_true

/-- A value in quotes is stored as it is, in a section without a value of this name, exactly when it has no
`#`. -/
theorem valueIn_quotedLine_iff (hfront : EndsLine front) (hread : readFile front = some b)
    (hsection : (b.config.find (dotted b.path)).isSome) (hnew : valueIn b.config (dotted b.path) name = none)
    (hnil : name ≠ []) (hname : ∀ c ∈ name, isNameChar c = true) (hvalue : ∀ c ∈ value, isAny c = true)
    (hquote : 34 ∉ value) (hrest : ∀ c ∈ rest.head?, c = 10)
    (hconfig : readConfig (front ++ (quotedLine name value ++ rest)) = some config) :
    valueIn config (dotted b.path) name = some value ↔ 35 ∉ value := by
  have hmem : 10 ∉ quotedLine name value := by
    have hname' : 10 ∉ name := fun h => absurd (hname 10 h) (by decide)
    have hvalue' : 10 ∉ value := fun h => absurd (hvalue 10 h) (by decide)
    simp [quotedLine_eq, hname', hvalue']
  obtain ⟨behind, hlines⟩ := logicalLines_append hfront (not_continued_quotedLine name value) hmem
    (by simp [quotedLine, hnil]) hrest
  rw [readConfig_eq, initConfig, hlines, Option.map_eq_some_iff] at hconfig
  obtain ⟨b', hfold, rfl⟩ := hconfig
  rw [List.map_append, List.foldlM_append, ← readFile_eq, hread, List.map_cons,
    lineOf_quotedLine hnil hname hvalue hquote, Option.bind_eq_bind, Option.bind_some, List.foldlM_cons] at hfold
  obtain ⟨b₁, hline, hbehind⟩ := Option.bind_eq_some_iff.mp hfold
  obtain ⟨b₂, hline', -, -, hvalues⟩ := configLine_property name (removeComment value) hsection
  obtain rfl := Option.some.inj (hline'.symm.trans hline)
  have hstored : valueIn b₂.config (dotted b.path) name = some (removeComment value) := by
    rw [hvalues, if_pos ⟨rfl, rfl⟩, hnew, Option.getD_none]
  rw [valueIn_of_foldlM hbehind hstored, Option.some_inj, removeComment_eq_self_iff]

/-- The header of a section in which a value is given. -/
def sectionFront : Text := bytes "[s]\n"

/-- Behind `sectionFront` the value `" v "` is stored with its white space. -/
theorem valueIn_quotedLine_iff_blanks :
    ∃ b config, readFile sectionFront = some b ∧
      readConfig (sectionFront ++ (quotedLine (bytes "k") (bytes " v ") ++ [])) = some config ∧
      (valueIn config (dotted b.path) (bytes "k") = some (bytes " v ") ↔ 35 ∉ bytes " v ") := by
  have hread : ((readFile sectionFront).map fun b =>
      decide ((b.config.find (dotted b.path)).isSome ∧ valueIn b.config (dotted b.path) (bytes "k") = none)) =
      some true := by decide +kernel
  obtain ⟨b, hb, hsection⟩ := Option.map_eq_some_iff.mp hread
  have hsome : (readConfig (sectionFront ++ (quotedLine (bytes "k") (bytes " v ") ++ []))).isSome := by
    decide +kernel
  obtain ⟨config, hconfig⟩ := Option.isSome_iff_exists.mp hsome
  have hfront : EndsLine sectionFront := ⟨by decide, by decide⟩
  exact ⟨b, config, hb, hconfig, valueIn_quotedLine_iff hfront hb (of_decide_eq_true hsection).1
    (of_decide_eq_true hsection).2 (by decide) (by decide) (by decide) (by decide) (by simp) hconfig⟩

/-- Not every value in quotes is stored as it is: one with a `#` in it is not. -/
theorem not_valueIn_quotedLine :
    ¬ ∀ front name value b config, EndsLine front → readFile front = some b →
      (b.config.find (dotted b.path)).isSome → valueIn b.config (dotted b.path) name = none → name ≠ [] →
      (∀ c ∈ name, isNameChar c = true) → (∀ c ∈ value, isAny c = true) → 34 ∉ value →
      readConfig (front ++ (quotedLine name value ++ [])) = some config →
      valueIn config (dotted b.path) name = some value := by
  intro h
  have hread : ((readFile sectionFront).map fun b =>
      decide ((b.config.find (dotted b.path)).isSome ∧ valueIn b.config (dotted b.path) (bytes "k") = none ∧
        dotted b.path = bytes "s")) = some true := by decide +kernel
  obtain ⟨b, hb, hsection⟩ := Option.map_eq_some_iff.mp hread
  obtain ⟨hentered, hnew, hpath⟩ := of_decide_eq_true hsection
  have hvalue : (readConfig (sectionFront ++ (quotedLine (bytes "k") (bytes "a#b") ++ []))).map
      (fun config => valueIn config (bytes "s") (bytes "k")) = some (some (bytes "a")) := by decide +kernel
  obtain ⟨config, hconfig, hstored⟩ := Option.map_eq_some_iff.mp hvalue
  have heq := h sectionFront (bytes "k") (bytes "a#b") b config ⟨by decide, by decide⟩ hb hentered hnew
    (by decide) (by decide) (by decide) (by decide) hconfig
  rw [hpath, hstored] at heq
  exact absurd heq (by decide)

end NavekFiber
