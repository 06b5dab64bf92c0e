import NavekFiber.Net.HttpParse

/-! # Lines and the empty line that ends a head

`find_values` is asked for the four line ends at once, and the marker of an empty line begins with a
line end: `"\r\n\r\n"` and `"\n\n"` are tried before `"\n"` and `"\r\n"`, so the line before the empty
line is never seen on its own. `NextLine` says what the search finds, and what it says about the empty
line of the text. -/

namespace NavekFiber

open Utils

namespace Http

/-- The carriage return. -/
abbrev cr : UInt8 := 13

/-- The line feed. -/
abbrev lf : UInt8 := 10

@[simp] theorem cr_ne_lf : ¬ cr = lf := by decide

@[simp] theorem lf_ne_cr : ¬ lf = cr := by decide

/-- The text has an empty line: two line ends in a row, the first of which, when it is a line feed, is
not the second half of `"\r\n"`. -/
def HasBlankLine (text : List UInt8) : Prop :=
  ∃ before after, text = before ++ cr :: lf :: cr :: lf :: after ∨
    text = before ++ lf :: lf :: after ∧ before.getLast? ≠ some cr

variable {cut : Bool} {b c : UInt8} {text rest : List UInt8}

/-- Skipping a character does not change which character ends a text that is not empty. -/
theorem getLast?_cons_of_ne {line : List UInt8} (h : line = [] → b ≠ c) :
    (b :: line).getLast? = some c ↔ line.getLast? = some c := by
  cases line with
  | nil => simpa using h rfl
  | cons _ _ => simp

/-- What ends a text ends it as well with a character in front. -/
theorem getLast?_cons_of_eq {line : List UInt8} (h : line.getLast? = some c) :
    (b :: line).getLast? = some c := by
  rwa [getLast?_cons_of_ne]
  rintro rfl
  exact absurd h (by simp)

/-- A character in front that does not begin a line end does not make a blank line. -/
theorem hasBlankLine_cons_iff (hlf : b ≠ lf) (hcr : b = cr → ∀ after, rest ≠ lf :: after) :
    HasBlankLine (b :: rest) ↔ HasBlankLine rest := by
  constructor
  · rintro ⟨before, after, h | ⟨h, hlast⟩⟩
    · cases before with
      | nil =>
          obtain ⟨rfl, rfl⟩ := List.cons.inj h
          exact absurd rfl (hcr rfl _)
      | cons _ before =>
          obtain ⟨-, rfl⟩ := List.cons.inj h
          exact ⟨before, after, Or.inl rfl⟩
    · cases before with
      | nil =>
          obtain ⟨rfl, -⟩ := List.cons.inj h
          exact absurd rfl hlf
      | cons _ before =>
          obtain ⟨-, rfl⟩ := List.cons.inj h
          exact ⟨before, after, Or.inr ⟨rfl, mt getLast?_cons_of_eq hlast⟩⟩
  · rintro ⟨before, after, rfl | ⟨rfl, hlast⟩⟩
    · exact ⟨b :: before, after, Or.inl rfl⟩
    · refine ⟨b :: before, after, Or.inr ⟨rfl, mt (getLast?_cons_of_ne ?_).mp hlast⟩⟩
      rintro rfl rfl
      exact hcr rfl _ rfl

/-- A line feed in front that is not followed by another one does not make a blank line. -/
theorem hasBlankLine_lf_iff (h : ∀ after, rest ≠ lf :: after) :
    HasBlankLine (lf :: rest) ↔ HasBlankLine rest := by
  constructor
  · rintro ⟨before, after, heq | ⟨heq, hlast⟩⟩
    · cases before with
      | nil => simp at heq
      | cons _ before =>
          obtain ⟨-, rfl⟩ := List.cons.inj heq
          exact ⟨before, after, Or.inl rfl⟩
    · cases before with
      | nil =>
          obtain ⟨-, rfl⟩ := List.cons.inj heq
          exact absurd rfl (h after)
      | cons _ before =>
          obtain ⟨-, rfl⟩ := List.cons.inj heq
          exact ⟨before, after, Or.inr ⟨rfl, mt getLast?_cons_of_eq hlast⟩⟩
  · rintro ⟨before, after, rfl | ⟨rfl, hlast⟩⟩
    · exact ⟨lf :: before, after, Or.inl rfl⟩
    · exact ⟨lf :: before, after, Or.inr ⟨rfl, mt (getLast?_cons_of_ne fun _ => lf_ne_cr).mp hlast⟩⟩

/-- A `"\r\n"` in front that is not followed by another one does not make a blank line, even before a line feed. -/
theorem hasBlankLine_crlf_iff (h : ∀ after, rest ≠ cr :: lf :: after) :
    HasBlankLine (cr :: lf :: rest) ↔ HasBlankLine rest := by
  constructor
  · rintro ⟨before, after, heq | ⟨heq, hlast⟩⟩
    · rcases before with - | ⟨x, - | ⟨y, before⟩⟩
      · simp only [List.nil_append, List.cons.injEq, true_and] at heq
        exact absurd heq (h after)
      · simp at heq
      · simp only [List.cons_append, List.cons.injEq] at heq
        exact ⟨before, after, Or.inl heq.2.2⟩
    · rcases before with - | ⟨x, - | ⟨y, before⟩⟩
      · simp at heq
      · simp only [List.cons_append, List.cons.injEq] at heq
        rw [← heq.1] at hlast
        exact absurd rfl hlast
      · simp only [List.cons_append, List.cons.injEq] at heq
        refine ⟨before, after, Or.inr ⟨heq.2.2, mt ?_ hlast⟩⟩
        exact fun hcr => getLast?_cons_of_eq (getLast?_cons_of_eq hcr)
  · rintro ⟨before, after, rfl | ⟨rfl, hlast⟩⟩
    · exact ⟨cr :: lf :: before, after, Or.inl rfl⟩
    · refine ⟨cr :: lf :: before, after, Or.inr ⟨rfl, mt ?_ hlast⟩⟩
      rw [getLast?_cons_of_ne (by simp), getLast?_cons_of_ne fun _ => lf_ne_cr]
      exact id

/-- A text with a blank line has one with any text behind it. -/
theorem HasBlankLine.append_right (h : HasBlankLine text) (more : List UInt8) :
    HasBlankLine (text ++ more) := by
  obtain ⟨before, after, rfl | ⟨rfl, hlast⟩⟩ := h
  · exact ⟨before, after ++ more, Or.inl (by simp)⟩
  · exact ⟨before, after ++ more, Or.inr ⟨by simp, hlast⟩⟩

/-- A text with a blank line has one with any text in front of it that does not end with a carriage return. -/
theorem HasBlankLine.append_left {before : List UInt8} (h : HasBlankLine text)
    (hbefore : before.getLast? ≠ some cr) : HasBlankLine (before ++ text) := by
  obtain ⟨line, after, rfl | ⟨rfl, hlast⟩⟩ := h
  · exact ⟨before ++ line, after, Or.inl (by simp)⟩
  · refine ⟨before ++ line, after, Or.inr ⟨by simp, ?_⟩⟩
    rcases List.eq_nil_or_concat' line with rfl | ⟨line, last, rfl⟩
    · simpa using hbefore
    · rw [← List.append_assoc, List.getLast?_concat]
      rwa [List.getLast?_concat] at hlast

/-- A text has a blank line when a text that it begins with has one. -/
theorem HasBlankLine.of_isPrefix {before : List UInt8} (h : HasBlankLine before)
    (hpre : before <+: text) : HasBlankLine text := by
  obtain ⟨more, rfl⟩ := hpre
  exact h.append_right more

/-- A text without line feeds has no blank line. -/
theorem not_hasBlankLine_of_notMem (h : lf ∉ text) : ¬ HasBlankLine text := by
  rintro ⟨before, after, rfl | ⟨rfl, -⟩⟩ <;> simp at h

/-! ### The four line ends at one position -/

/-- Only a carriage return folds to one under `icaseAscii`. -/
@[simp] theorem icaseAscii_eq_cr : ∀ b : UInt8, icaseAscii b = icaseAscii cr ↔ b = cr := by
  have h : ∀ v : BitVec 8, icaseAscii ⟨v⟩ = icaseAscii cr ↔ (⟨v⟩ : UInt8) = cr := by decide +kernel
  exact fun b => h b.toBitVec

/-- Only a line feed folds to one under `icaseAscii`. -/
@[simp] theorem icaseAscii_eq_lf : ∀ b : UInt8, icaseAscii b = icaseAscii lf ↔ b = lf := by
  have h : ∀ v : BitVec 8, icaseAscii ⟨v⟩ = icaseAscii lf ↔ (⟨v⟩ : UInt8) = lf := by decide +kernel
  exact fun b => h b.toBitVec

/-- The bytes of the line ends that the parse looks for. -/
theorem httpLineEndians_eq : httpLineEndians = [[cr, lf, cr, lf], [lf, lf], [lf], [cr, lf]] := by
  decide

/-- `findAt` finds no line end at a character that is neither a carriage return nor a line feed. -/
theorem findAt_other (hcr : b ≠ cr) (hlf : b ≠ lf) :
    findAt cut (b :: rest) 0 httpLineEndians = some none := by
  simp [httpLineEndians_eq, hcr, hlf]

/-- `findAt` finds no line end at a carriage return that is not followed by a line feed. -/
theorem findAt_cr (h : c ≠ lf) : findAt cut (cr :: c :: rest) 0 httpLineEndians = some none := by
  simp [httpLineEndians_eq, h]

/-- `findAt` finds no line end at a carriage return that ends the text, and cannot tell where the text is cut. -/
theorem findAt_cr_nil :
    findAt cut [cr] 0 httpLineEndians = if cut then none else some none := by
  cases cut <;> simp [httpLineEndians_eq]

/-- `findAt` finds an empty line at two line feeds. -/
theorem findAt_lf_lf : findAt cut (lf :: lf :: rest) 0 httpLineEndians = some (some (2, 2)) := by
  simp [httpLineEndians_eq]

/-- `findAt` finds a line end at a line feed that is not followed by another one. -/
theorem findAt_lf (h : c ≠ lf) :
    findAt cut (lf :: c :: rest) 0 httpLineEndians = some (some (3, 1)) := by
  simp [httpLineEndians_eq, h]

/-- `findAt` finds a line end at a line feed that ends the text, and cannot tell where the text is cut. -/
theorem findAt_lf_nil :
    findAt cut [lf] 0 httpLineEndians = if cut then none else some (some (3, 1)) := by
  cases cut <;> simp [httpLineEndians_eq]

/-- `findAt` finds an empty line at two `"\r\n"`. -/
theorem findAt_crlf_crlf :
    findAt cut (cr :: lf :: cr :: lf :: rest) 0 httpLineEndians = some (some (1, 4)) := by
  simp [httpLineEndians_eq]

/-- `findAt` finds a line end at a `"\r\n"` that is not followed by a carriage return. -/
theorem findAt_crlf (h : c ≠ cr) :
    findAt cut (cr :: lf :: c :: rest) 0 httpLineEndians = some (some (4, 2)) := by
  simp [httpLineEndians_eq, h]

/-- `findAt` finds a line end at a `"\r\n"` that is followed by a carriage return alone. -/
theorem findAt_crlf_cr (h : c ≠ lf) :
    findAt cut (cr :: lf :: cr :: c :: rest) 0 httpLineEndians = some (some (4, 2)) := by
  simp [httpLineEndians_eq, h]

/-- `findAt` finds a line end at a `"\r\n"` that ends the text, and cannot tell where the text is cut. -/
theorem findAt_crlf_nil :
    findAt cut [cr, lf] 0 httpLineEndians = if cut then none else some (some (4, 2)) := by
  cases cut <;> simp [httpLineEndians_eq]

/-- `findAt` finds a line end at a `"\r\n\r"` that ends the text, and cannot tell where the text is cut. -/
theorem findAt_crlf_cr_nil :
    findAt cut [cr, lf, cr] 0 httpLineEndians = if cut then none else some (some (4, 2)) := by
  cases cut <;> simp [httpLineEndians_eq]

/-! ### The next line end -/

/-- The first line of a text is complete, and so is what tells its end from an empty line. -/
def FirstLineDecided (text : List UInt8) : Prop :=
  ∃ line after, text = line ++ lf :: after ∧ lf ∉ line ∧ after ≠ [] ∧
    (line.getLast? = some cr → after ≠ [cr])

/-- The first line of a text is ended by the marker of an empty line. -/
def FirstLineEndsHead (text : List UInt8) : Prop :=
  ∃ line after, lf ∉ line ∧ (text = line ++ cr :: lf :: cr :: lf :: after ∨
    text = line ++ lf :: lf :: after ∧ line.getLast? ≠ some cr)

/-- What the search for a line end finds in a text that starts at the offset `it`. -/
inductive NextLine (cut : Bool) (it : ℕ) (text : List UInt8) : Option MatchResult → Prop
  /-- The text ends before the end of the line is certain, and the search reads on behind it. -/
  | fault (hcut : cut = true) (hopen : ¬ FirstLineDecided text) (hblank : ¬ HasBlankLine text) :
      NextLine cut it text none
  /-- The range ends within the line. -/
  | absent (hcut : cut = false) (hblank : ¬ HasBlankLine text) :
      NextLine cut it text (some .fail)
  /-- The line is ended by an empty line. -/
  | blank (result : ℕ) (line marker after : List UInt8) (htext : text = line ++ marker ++ after)
      (hline : lf ∉ line) (hresult : result = 1 ∨ result = 2)
      (hmarker : marker = [cr, lf, cr, lf] ∨ marker = [lf, lf] ∧ line.getLast? ≠ some cr) :
      NextLine cut it text
        (some ⟨result, it + line.length, it + line.length + marker.length⟩)
  /-- The line is ended by a line end. -/
  | line (result : ℕ) (line marker after : List UInt8) (htext : text = line ++ marker ++ after)
      (hline : lf ∉ line) (hresult : 2 < result)
      (hmarker : marker = [lf] ∧ line.getLast? ≠ some cr ∨ marker = [cr, lf])
      (hdecided : cut = true → FirstLineDecided text) (hends : ¬ FirstLineEndsHead text)
      (hblank : HasBlankLine text ↔ HasBlankLine after) :
      NextLine cut it text
        (some ⟨result, it + line.length, it + line.length + marker.length⟩)

/-- A text that is a line and the marker of an empty line behind it has its head ended by its first line. -/
theorem firstLineEndsHead_of_marker {line marker : List UInt8} (after : List UInt8)
    (hline : lf ∉ line)
    (hmarker : marker = [cr, lf, cr, lf] ∨ marker = [lf, lf] ∧ line.getLast? ≠ some cr) :
    FirstLineEndsHead (line ++ marker ++ after) := by
  refine ⟨line, after, hline, ?_⟩
  rcases hmarker with rfl | ⟨rfl, hne⟩
  · exact Or.inl (List.append_assoc _ _ _)
  · exact Or.inr ⟨List.append_assoc _ _ _, hne⟩

/-- A text whose first line ends the head has a blank line. -/
theorem FirstLineEndsHead.hasBlankLine (h : FirstLineEndsHead text) : HasBlankLine text := by
  obtain ⟨line, after, -, h⟩ := h
  exact ⟨line, after, h⟩

/-- A character that does not begin a line end does not change whether a line ends with a carriage return. -/
theorem getLast?_line_iff (hcr : b = cr → ∀ after, rest ≠ lf :: after) {line after : List UInt8}
    (hrest : rest = line ++ lf :: after) : (b :: line).getLast? = some cr ↔ line.getLast? = some cr := by
  apply getLast?_cons_of_ne
  rintro rfl heq
  exact hcr heq after hrest

/-- A character in front that does not begin a line end does not change whether the first line is decided. -/
theorem firstLineDecided_cons_iff (hlf : b ≠ lf) (hcr : b = cr → ∀ after, rest ≠ lf :: after) :
    FirstLineDecided (b :: rest) ↔ FirstLineDecided rest := by
  constructor
  · rintro ⟨line, after, heq, hline, hafter⟩
    cases line with
    | nil => exact absurd (List.cons.inj heq).1 hlf
    | cons _ line =>
        obtain ⟨rfl, hrest⟩ := List.cons.inj heq
        rw [getLast?_line_iff hcr hrest] at hafter
        exact ⟨line, after, hrest, fun h => hline (List.mem_cons_of_mem _ h), hafter⟩
  · rintro ⟨line, after, hrest, hline, hafter⟩
    refine ⟨b :: line, after, by rw [hrest]; rfl, ?_, ?_⟩
    · rw [List.mem_cons]
      rintro (h | h)
      · exact hlf h.symm
      · exact hline h
    · rwa [getLast?_line_iff hcr hrest]

/-- A character in front that does not begin a line end does not change whether the first line ends the head. -/
theorem firstLineEndsHead_cons_iff (hlf : b ≠ lf) (hcr : b = cr → ∀ after, rest ≠ lf :: after) :
    FirstLineEndsHead (b :: rest) ↔ FirstLineEndsHead rest := by
  constructor
  · rintro ⟨line, after, hline, heq⟩
    cases line with
    | nil =>
        rcases heq with heq | ⟨heq, -⟩
        · obtain ⟨rfl, hrest⟩ := List.cons.inj heq
          exact absurd hrest (hcr rfl _)
        · exact absurd (List.cons.inj heq).1 hlf
    | cons _ line =>
        refine ⟨line, after, fun h => hline (List.mem_cons_of_mem _ h), ?_⟩
        rcases heq with heq | ⟨heq, hne⟩
        · exact Or.inl (List.cons.inj heq).2
        · obtain ⟨rfl, hrest⟩ := List.cons.inj heq
          rw [Ne, getLast?_line_iff hcr hrest] at hne
          exact Or.inr ⟨hrest, hne⟩
  · rintro ⟨line, after, hline, heq⟩
    refine ⟨b :: line, after, ?_, ?_⟩
    · rw [List.mem_cons]
      rintro (h | h)
      · exact hlf h.symm
      · exact hline h
    · rcases heq with hrest | ⟨hrest, hne⟩
      · exact Or.inl (by rw [hrest]; rfl)
      · refine Or.inr ⟨by rw [hrest]; rfl, ?_⟩
        rwa [Ne, getLast?_line_iff hcr hrest]

/-- `NextLine` goes on behind a character that does not begin a line end. -/
theorem NextLine.cons {it : ℕ} {found : Option MatchResult} (h : NextLine cut (it + 1) rest found)
    (hlf : b ≠ lf) (hcr : b = cr → ∀ after, rest ≠ lf :: after) :
    NextLine cut it (b :: rest) found := by
  have hmem : ∀ line : List UInt8, lf ∉ line → lf ∉ b :: line := by
    intro line hline
    rw [List.mem_cons]
    rintro (h | h)
    · exact hlf h.symm
    · exact hline h
  have hlast : ∀ {line : List UInt8} (more : List UInt8), rest = line ++ lf :: more →
      line.getLast? ≠ some cr → (b :: line).getLast? ≠ some cr := by
    intro line more hrest hne
    rwa [Ne, getLast?_cons_of_ne]
    intro hnil heq
    rw [hnil] at hrest
    exact hcr heq more hrest
  cases h with
  | fault hcut hopen hblank =>
      exact .fault hcut (by rwa [firstLineDecided_cons_iff hlf hcr])
        (by rwa [hasBlankLine_cons_iff hlf hcr])
  | absent hcut hblank => exact .absent hcut (by rwa [hasBlankLine_cons_iff hlf hcr])
  | blank result line marker after htext hline hresult hmarker =>
      have hmarker' : marker = [cr, lf, cr, lf] ∨
          marker = [lf, lf] ∧ (b :: line).getLast? ≠ some cr :=
        hmarker.imp_right fun ⟨hm, hne⟩ => ⟨hm, hlast (lf :: after) (by rw [htext, hm]; simp) hne⟩
      have hblank : NextLine cut it (b :: rest)
          (some ⟨result, it + (b :: line).length, it + (b :: line).length + marker.length⟩) :=
        .blank result (b :: line) marker after (by rw [htext]; simp) (hmem line hline) hresult hmarker'
      simpa [Nat.add_assoc, Nat.add_comm 1] using hblank
  | line result line marker after htext hline hresult hmarker hdecided hends hblank =>
      have hmarker' : marker = [lf] ∧ (b :: line).getLast? ≠ some cr ∨ marker = [cr, lf] :=
        hmarker.imp_left fun ⟨hm, hne⟩ => ⟨hm, hlast after (by rw [htext, hm]; simp) hne⟩
      have hline : NextLine cut it (b :: rest)
          (some ⟨result, it + (b :: line).length, it + (b :: line).length + marker.length⟩) :=
        .line result (b :: line) marker after (by rw [htext]; simp) (hmem line hline) hresult hmarker'
          (fun hcut => (firstLineDecided_cons_iff hlf hcr).mpr (hdecided hcut))
          (by rwa [firstLineEndsHead_cons_iff hlf hcr])
          ((hasBlankLine_cons_iff hlf hcr).trans hblank)
      simpa [Nat.add_assoc, Nat.add_comm 1] using hline

/-- A text that is a line feed, a `"\r\n"` or a `"\r\n\r"` does not decide its first line. -/
theorem not_firstLineDecided_of_short (h : text = [lf] ∨ text = [cr, lf] ∨ text = [cr, lf, cr]) :
    ¬ FirstLineDecided text := by
  rintro ⟨line, after, heq, hline, hne, hafter⟩
  rcases h with rfl | rfl | rfl
  · rcases line with - | ⟨x, line⟩
    · exact hne (List.cons.inj heq).2.symm
    · simp at heq
  · rcases line with - | ⟨x, - | ⟨y, line⟩⟩
    · simp at heq
    · simp at heq
      exact hne heq.2
    · simp at heq
  · rcases line with - | ⟨x, - | ⟨y, line⟩⟩
    · simp at heq
    · simp only [List.cons_append, List.nil_append, List.cons.injEq, true_and] at heq
      refine hafter ?_ heq.2.symm
      rw [← heq.1]
      rfl
    · simp only [List.cons_append, List.cons.injEq] at heq
      exact hline (by simp [← heq.2.1])

/-- A text that begins with a line feed, but not with two, does not end the head with its first line. -/
theorem not_firstLineEndsHead_lf (h : ∀ after, rest ≠ lf :: after) :
    ¬ FirstLineEndsHead (lf :: rest) := by
  rintro ⟨line, after, hline, heq⟩
  cases line with
  | nil =>
      rcases heq with heq | ⟨heq, -⟩
      · simp at heq
      · exact h after (List.cons.inj heq).2
  | cons x line =>
      refine hline ?_
      rcases heq with heq | ⟨heq, -⟩ <;> simp [← (List.cons.inj heq).1]

/-- A text that begins with a `"\r\n"`, but not with two, does not end the head with its first line. -/
theorem not_firstLineEndsHead_crlf (h : ∀ after, rest ≠ cr :: lf :: after) :
    ¬ FirstLineEndsHead (cr :: lf :: rest) := by
  rintro ⟨line, after, hline, heq⟩
  rcases line with - | ⟨x, - | ⟨y, line⟩⟩
  · rcases heq with heq | ⟨heq, -⟩
    · simp only [List.nil_append, List.cons.injEq, true_and] at heq
      exact h after heq
    · simp at heq
  · rcases heq with heq | ⟨heq, hne⟩
    · simp at heq
    · simp only [List.cons_append, List.cons.injEq] at heq
      rw [← heq.1] at hne
      exact hne rfl
  · refine hline ?_
    rcases heq with heq | ⟨heq, -⟩ <;>
      simp only [List.cons_append, List.cons.injEq] at heq <;> simp [← heq.2.1]

/-- In a text that begins with a line feed, but not with two, `NextLine` is the end of the first line there. -/
theorem nextLine_lf (it : ℕ) (hrest : ∀ after, rest ≠ lf :: after) (hne : cut = true → rest ≠ []) :
    NextLine cut it (lf :: rest) (some ⟨3, it, it + 1⟩) :=
  .line 3 [] [lf] rest rfl (by simp) (by decide) (Or.inl ⟨rfl, by simp⟩)
    (fun hcut => ⟨[], rest, rfl, by simp, hne hcut, by simp⟩)
    (not_firstLineEndsHead_lf hrest) (hasBlankLine_lf_iff hrest)

/-- In a text that begins with a `"\r\n"`, but not with two, `NextLine` is the end of the first line there. -/
theorem nextLine_crlf (it : ℕ) (hrest : ∀ after, rest ≠ cr :: lf :: after)
    (hne : cut = true → rest ≠ [] ∧ rest ≠ [cr]) :
    NextLine cut it (cr :: lf :: rest) (some ⟨4, it, it + 2⟩) :=
  .line 4 [] [cr, lf] rest rfl (by simp) (by decide) (Or.inr rfl)
    (fun hcut => ⟨[cr], rest, rfl, by simp, (hne hcut).1, fun _ => (hne hcut).2⟩)
    (not_firstLineEndsHead_crlf hrest) (hasBlankLine_crlf_iff hrest)

/-- In a text that begins with a line feed, `findFrom` finds what `NextLine` says. -/
theorem nextLine_findFrom_lf (cut : Bool) (it : ℕ) (rest : List UInt8) :
    NextLine cut it (lf :: rest) (findFrom cut httpLineEndians it (lf :: rest)) := by
  match rest with
  | [] =>
      rw [findFrom, findAt_lf_nil]
      cases cut with
      | true =>
          -- The second line feed would be read from behind the end of the window.
          refine .fault rfl (not_firstLineDecided_of_short (Or.inl rfl)) ?_
          rw [hasBlankLine_lf_iff (by simp)]
          exact not_hasBlankLine_of_notMem (by simp)
      | false => exact nextLine_lf it (by simp) (by simp)
  | c :: rest =>
      by_cases hc : c = lf
      · subst hc
        rw [findFrom, findAt_lf_lf]
        exact .blank 2 [] [lf, lf] rest rfl (by simp) (Or.inr rfl) (Or.inr ⟨rfl, by simp⟩)
      · rw [findFrom, findAt_lf hc]
        exact nextLine_lf it (fun after h => hc (List.cons.inj h).1) (by simp)

/-- In a text that begins with a `"\r\n"`, `findFrom` finds what `NextLine` says. -/
theorem nextLine_findFrom_crlf (cut : Bool) (it : ℕ) (rest : List UInt8) :
    NextLine cut it (cr :: lf :: rest) (findFrom cut httpLineEndians it (cr :: lf :: rest)) := by
  match rest with
  | [] =>
      rw [findFrom, findAt_crlf_nil]
      cases cut with
      | true =>
          refine .fault rfl (not_firstLineDecided_of_short (Or.inr (Or.inl rfl))) ?_
          rw [hasBlankLine_crlf_iff (by simp)]
          exact not_hasBlankLine_of_notMem (by simp)
      | false => exact nextLine_crlf it (by simp) (by simp)
  | [d] =>
      by_cases hd : d = cr
      · -- One more character could make it an empty line.
        subst hd
        rw [findFrom, findAt_crlf_cr_nil]
        cases cut with
        | true =>
            refine .fault rfl (not_firstLineDecided_of_short (Or.inr (Or.inr rfl))) ?_
            rw [hasBlankLine_crlf_iff (by simp)]
            exact not_hasBlankLine_of_notMem (by simp)
        | false => exact nextLine_crlf it (by simp) (by simp)
      · rw [findFrom, findAt_crlf hd]
        exact nextLine_crlf it (by simp) (by simp [hd])
  | d :: e :: rest =>
      by_cases hd : d = cr
      · subst hd
        by_cases he : e = lf
        · subst he
          rw [findFrom, findAt_crlf_crlf]
          exact .blank 1 [] [cr, lf, cr, lf] rest rfl (by simp) (Or.inl rfl) (Or.inl rfl)
        · rw [findFrom, findAt_crlf_cr he]
          exact nextLine_crlf it (by simp [he]) (by simp)
      · rw [findFrom, findAt_crlf hd]
        exact nextLine_crlf it (by simp [hd]) (by simp)

/-- In any text, `findFrom` finds what `NextLine` says. -/
theorem nextLine_findFrom (cut : Bool) (it : ℕ) (text : List UInt8) :
    NextLine cut it text (findFrom cut httpLineEndians it text) := by
  induction text generalizing it with
  | nil =>
      cases cut with
      | true => exact .fault rfl (by rintro ⟨line, after, h, -⟩; simp at h)
                  (not_hasBlankLine_of_notMem (by simp))
      | false => exact .absent rfl (not_hasBlankLine_of_notMem (by simp))
  | cons b rest ih =>
      have hskip : findAt cut (b :: rest) 0 httpLineEndians = some none → b ≠ lf →
          (b = cr → ∀ after, rest ≠ lf :: after) →
          NextLine cut it (b :: rest) (findFrom cut httpLineEndians it (b :: rest)) := by
        intro hat hlf hcr
        rw [findFrom, hat]
        exact (ih (it + 1)).cons hlf hcr
      by_cases hlf : b = lf
      · subst hlf
        exact nextLine_findFrom_lf cut it rest
      · by_cases hcr : b = cr
        · subst hcr
          match rest with
          | [] =>
              cases cut with
              | true =>
                  rw [findFrom, findAt_cr_nil]
                  refine .fault rfl ?_ (not_hasBlankLine_of_notMem (by simp))
                  rintro ⟨line, after, h, -⟩
                  rcases line with - | ⟨x, line⟩ <;> simp at h
              | false => exact hskip (by rw [findAt_cr_nil]; rfl) hlf (by simp)
          | c :: rest =>
              by_cases hc : c = lf
              · subst hc
                exact nextLine_findFrom_crlf cut it rest
              · -- A lone carriage return is an ordinary character.
                exact hskip (findAt_cr hc) hlf fun _ after h => hc (List.cons.inj h).1
        · exact hskip (findAt_other hcr hlf) hlf fun h => absurd h hcr

end Http

end NavekFiber
