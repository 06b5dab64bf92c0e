import NavekFiber.Net.HttpLines

/-! # Empty lines, whatever their line ends

A line ends with a line feed or with `"\r\n"`. `HasEmptyLine` asks for a line end right behind the line
feed of another one, be they alike or not; `HasBlankLine` is the same for two line ends that are alike.

* `LineEnd`: the two line ends, and texts of lines that all end with one of them.
* `FirstEnd`, `FirstEmptyLine`: where the first empty line ends.
* `not_hasEmptyLine_take`: lines that are not empty are followed by an empty one only at the end. -/

namespace NavekFiber

open Utils

namespace Http

variable {b : UInt8} {text rest : List UInt8} {n stop : ℕ}

/-- The text has a line without bytes: a line end behind the line feed of another one. -/
def HasEmptyLine (text : List UInt8) : Prop :=
  ∃ before after, text = before ++ lf :: lf :: after ∨ text = before ++ lf :: cr :: lf :: after

/-- The rest of a text begins with an empty line. -/
def BeginsEmpty (rest : List UInt8) : Prop := [lf] <+: rest ∨ [cr, lf] <+: rest

instance (rest : List UInt8) : Decidable (BeginsEmpty rest) := inferInstanceAs (Decidable (_ ∨ _))

/-- An empty line of a text is one behind its first character, or one of the rest. -/
theorem hasEmptyLine_cons_iff :
    HasEmptyLine (b :: rest) ↔ b = lf ∧ BeginsEmpty rest ∨ HasEmptyLine rest := by
  constructor
  · rintro ⟨before, after, h⟩
    cases before with
    | nil =>
        refine Or.inl ?_
        rcases h with h | h
        · obtain ⟨rfl, rfl⟩ := List.cons.inj h
          exact ⟨rfl, Or.inl ⟨after, rfl⟩⟩
        · obtain ⟨rfl, rfl⟩ := List.cons.inj h
          exact ⟨rfl, Or.inr ⟨after, rfl⟩⟩
    | cons c before =>
        refine Or.inr ⟨before, after, ?_⟩
        rcases h with h | h
        · exact Or.inl (List.cons.inj h).2
        · exact Or.inr (List.cons.inj h).2
  · rintro (⟨rfl, ⟨after, rfl⟩ | ⟨after, rfl⟩⟩ | ⟨before, after, h⟩)
    · exact ⟨[], after, Or.inl rfl⟩
    · exact ⟨[], after, Or.inr rfl⟩
    · refine ⟨b :: before, after, ?_⟩
      rcases h with rfl | rfl
      · exact Or.inl rfl
      · exact Or.inr rfl

/-- The empty text has no empty line. -/
theorem not_hasEmptyLine_nil : ¬ HasEmptyLine [] := by
  rintro ⟨before, after, h | h⟩ <;> simp at h

instance decidableHasEmptyLine : DecidablePred HasEmptyLine
  | [] => isFalse not_hasEmptyLine_nil
  | b :: rest =>
      have := decidableHasEmptyLine rest
      decidable_of_iff (b = lf ∧ BeginsEmpty rest ∨ HasEmptyLine rest) hasEmptyLine_cons_iff.symm

/-- A character in front that is no line feed does not change whether a text has an empty line. -/
theorem hasEmptyLine_cons_of_ne (hb : b ≠ lf) : HasEmptyLine (b :: rest) ↔ HasEmptyLine rest := by
  rw [hasEmptyLine_cons_iff]
  simp [hb]

/-- A text in front that has no line feeds does not change whether a text has an empty line. -/
theorem hasEmptyLine_append_iff {line : List UInt8} (hline : lf ∉ line) :
    HasEmptyLine (line ++ rest) ↔ HasEmptyLine rest := by
  induction line with
  | nil => rfl
  | cons b line ih =>
      rw [List.cons_append, hasEmptyLine_cons_of_ne fun h => hline (h ▸ List.mem_cons_self)]
      exact ih fun h => hline (List.mem_cons_of_mem b h)

/-- A text has an empty line when a text that it begins with has one. -/
theorem HasEmptyLine.of_isPrefix {before : List UInt8} (h : HasEmptyLine before) (hpre : before <+: text) :
    HasEmptyLine text := by
  obtain ⟨more, rfl⟩ := hpre
  obtain ⟨line, after, rfl | rfl⟩ := h
  · exact ⟨line, after ++ more, Or.inl (by simp)⟩
  · exact ⟨line, after ++ more, Or.inr (by simp)⟩

/-- A line end that is followed by the same one makes an empty line. -/
theorem HasBlankLine.hasEmptyLine (h : HasBlankLine text) : HasEmptyLine text := by
  obtain ⟨before, after, rfl | ⟨rfl, -⟩⟩ := h
  · exact ⟨before ++ [cr], after, Or.inr (by simp)⟩
  · exact ⟨before, after, Or.inl rfl⟩

/-! ### The first empty line -/

/-- The first text with the property, of those that the text begins with, ends at `stop`. -/
structure FirstEnd (p : List UInt8 → Prop) (text : List UInt8) (stop : ℕ) : Prop where
  /-- The text up to `stop` has the property. -/
  ends : p (text.take stop)
  /-- No shorter beginning of the text has the property. -/
  first : ∀ n < stop, ¬ p (text.take n)

/-- No other text with the property ends before the `FirstEnd`. -/
theorem FirstEnd.le {p : List UInt8 → Prop} (h : FirstEnd p text stop) (hn : p (text.take n)) : stop ≤ n := by
  by_contra hlt
  exact h.first n (not_le.mp hlt) hn

/-- The first empty line ends at `stop`. -/
abbrev FirstEmptyLine (text : List UInt8) (stop : ℕ) : Prop := FirstEnd HasEmptyLine text stop

/-- A text with an empty line has a first one. -/
theorem HasEmptyLine.exists_first (h : HasEmptyLine text) : ∃ stop, FirstEmptyLine text stop := by
  have hlength : ∃ n, HasEmptyLine (text.take n) := ⟨text.length, by rwa [List.take_length]⟩
  exact ⟨Nat.find hlength, Nat.find_spec hlength, fun n hn => Nat.find_min hlength hn⟩

/-- A text with a `FirstEmptyLine` has an empty line. -/
theorem FirstEnd.hasEmptyLine (h : FirstEmptyLine text stop) : HasEmptyLine text :=
  h.ends.of_isPrefix (List.take_prefix _ _)

/-- The `FirstEmptyLine` of a text ends within the text. -/
theorem FirstEnd.le_length (h : FirstEmptyLine text stop) : stop ≤ text.length :=
  h.le (by rw [List.take_length]; exact h.hasEmptyLine)

/-- The text ends with two line ends that are alike. -/
def EndsAlike (text : List UInt8) : Prop :=
  ∃ line, text = line ++ [cr, lf, cr, lf] ∨ text = line ++ [lf, lf] ∧ line.getLast? ≠ some cr

/-- A text up to its first empty line ends with two line ends that are alike exactly when it has two such line ends in
a row at all. -/
theorem FirstEnd.endsAlike_iff (h : FirstEmptyLine text stop) :
    EndsAlike (text.take stop) ↔ HasBlankLine (text.take stop) := by
  constructor
  · rintro ⟨line, heq⟩
    exact ⟨line, [], heq⟩
  · rintro ⟨line, after, heq⟩
    -- Whatever follows would do so behind an earlier empty line.
    have hnil : ∀ marker : List UInt8, text.take stop = line ++ marker ++ after →
        HasEmptyLine (line ++ marker) → after = [] := by
      intro marker hsplit hempty
      have hlen := congrArg List.length hsplit
      rw [List.length_take, Nat.min_eq_left h.le_length, List.length_append] at hlen
      have hpre : text.take (line ++ marker).length = line ++ marker := by
        have htake : (text.take stop).take (line ++ marker).length = line ++ marker := by
          rw [hsplit, List.take_left]
        rwa [List.take_take, Nat.min_eq_left (by omega)] at htake
      have hle := h.le (hpre.symm ▸ hempty)
      exact List.eq_nil_of_length_eq_zero (by omega)
    refine ⟨line, heq.imp (fun heq => ?_) fun heq => ⟨?_, heq.2⟩⟩
    · rw [heq, hnil [cr, lf, cr, lf] (by rw [heq, List.append_assoc]; rfl) ⟨line ++ [cr], [], Or.inr (by simp)⟩]
    · rw [heq.1, hnil [lf, lf] (by rw [heq.1, List.append_assoc]; rfl) ⟨line, [], Or.inl rfl⟩]

/-! ### Texts of lines -/

/-- The two line ends. -/
inductive LineEnd
  /-- A line feed. -/
  | lineFeed
  /-- A carriage return and a line feed. -/
  | crLf
  deriving DecidableEq, Repr

namespace LineEnd

/-- The bytes of a line end. -/
def bytes : LineEnd → List UInt8
  | lineFeed => [lf]
  | crLf => [cr, lf]

/-- A text of lines, each with its line end, and an empty line behind them. -/
def lines (eol : LineEnd) (texts : List (List UInt8)) : List UInt8 :=
  texts.flatMap (· ++ eol.bytes) ++ eol.bytes

@[simp] theorem lines_nil (eol : LineEnd) : eol.lines [] = eol.bytes := rfl

@[simp] theorem lines_cons (eol : LineEnd) (line : List UInt8) (texts : List (List UInt8)) :
    eol.lines (line :: texts) = line ++ eol.bytes ++ eol.lines texts := by
  simp [lines]

/-- `lines` of one line are the line and two line ends. -/
theorem lines_singleton (eol : LineEnd) (line : List UInt8) :
    eol.lines [line] = line ++ (eol.bytes ++ eol.bytes) := by
  rw [lines_cons, lines_nil, List.append_assoc]

theorem length_lines_cons (eol : LineEnd) (line : List UInt8) (texts : List (List UInt8)) :
    (eol.lines (line :: texts)).length = line.length + eol.bytes.length + (eol.lines texts).length := by
  rw [lines_cons, List.length_append, List.length_append]

/-- A text of `lines` is at least as long as there are lines, since each has a line end. -/
theorem length_le (eol : LineEnd) (texts : List (List UInt8)) : texts.length ≤ (eol.lines texts).length := by
  induction texts with
  | nil => exact Nat.zero_le _
  | cons line texts ih =>
      have hpos : 0 < eol.bytes.length := by cases eol <;> decide
      rw [length_lines_cons, List.length_cons]
      omega

/-- A text of `lines` is at least as long as a line end, since it ends with one. -/
theorem length_bytes_le (eol : LineEnd) (texts : List (List UInt8)) :
    eol.bytes.length ≤ (eol.lines texts).length := by
  rw [lines, List.length_append]
  omega

end LineEnd

variable {eol : LineEnd} {texts : List (List UInt8)}

/-- The lines are not empty, and nothing in them ends a line. -/
def PlainLines (texts : List (List UInt8)) : Prop :=
  ∀ line ∈ texts, line ≠ [] ∧ ∀ b ∈ line, b ≠ cr ∧ b ≠ lf

/-- A text of lines that are not empty, cut short, does not begin with an empty line. -/
theorem not_beginsEmpty_take (htexts : PlainLines texts) (hn : n < (eol.lines texts).length) :
    ¬ BeginsEmpty ((eol.lines texts).take n) := by
  cases texts with
  | nil =>
      -- The text is cut within the empty line.
      intro h
      rw [LineEnd.lines_nil] at hn h
      cases eol with
      | lineFeed =>
          obtain rfl : n = 0 := by simpa [LineEnd.bytes] using hn
          rcases h with h | h <;> simp at h
      | crLf =>
          have hshort : n = 0 ∨ n = 1 := by
            simp only [LineEnd.bytes, List.length_cons, List.length_nil] at hn
            omega
          rcases hshort with rfl | rfl <;> rcases h with h | h <;> simp [LineEnd.bytes] at h
  | cons line texts =>
      obtain ⟨hne, hline⟩ := htexts line List.mem_cons_self
      obtain ⟨b, more, rfl⟩ := List.exists_cons_of_ne_nil hne
      obtain ⟨hcr, hlf⟩ := hline b List.mem_cons_self
      rw [LineEnd.lines_cons]
      cases n with
      | zero => rintro (h | h) <;> simp at h
      | succ n => rintro (h | h) <;> simp [List.cons_prefix_cons, hcr.symm, hlf.symm] at h

/-- A line end is a line feed, and what may stand in front of it. -/
theorem LineEnd.exists_bytes_eq (eol : LineEnd) : ∃ before, eol.bytes = before ++ [lf] ∧ lf ∉ before := by
  cases eol with
  | lineFeed => exact ⟨[], rfl, by simp⟩
  | crLf => exact ⟨[cr], rfl, by simp⟩

/-- A text of lines that are not empty, cut short, has no empty line. -/
theorem not_hasEmptyLine_take (htexts : PlainLines texts) (hn : n < (eol.lines texts).length) :
    ¬ HasEmptyLine ((eol.lines texts).take n) := by
  obtain ⟨before, hbytes, hbefore⟩ := eol.exists_bytes_eq
  have hshort : ∀ {line : List UInt8} {m : ℕ}, lf ∉ line → ¬ HasEmptyLine (line.take m) := by
    intro line m hline h
    have hmem : lf ∉ line.take m := fun hmem => hline (List.mem_of_mem_take hmem)
    rw [← List.append_nil (line.take m), hasEmptyLine_append_iff hmem] at h
    exact not_hasEmptyLine_nil h
  induction texts generalizing n with
  | nil =>
      rw [LineEnd.lines_nil, hbytes] at hn ⊢
      rw [List.length_append, List.length_singleton] at hn
      rw [List.take_append_of_le_length (by omega)]
      exact hshort hbefore
  | cons line texts ih =>
      have hline : lf ∉ line ++ before := by
        rw [List.mem_append]
        rintro (h | h)
        · exact ((htexts line List.mem_cons_self).2 lf h).2 rfl
        · exact hbefore h
      have hrest : PlainLines texts := fun other hother => htexts other (List.mem_cons_of_mem line hother)
      have hsplit : eol.lines (line :: texts) = (line ++ before) ++ lf :: eol.lines texts := by
        rw [LineEnd.lines_cons, hbytes]
        simp
      rw [hsplit] at hn ⊢
      by_cases hle : n ≤ (line ++ before).length
      · rw [List.take_append_of_le_length hle]
        exact hshort hline
      · -- The text goes on behind the line feed, where it does not begin with an empty line.
        obtain ⟨k, rfl⟩ : ∃ k, n = (line ++ before).length + (k + 1) :=
          ⟨n - (line ++ before).length - 1, by omega⟩
        have hk : k < (eol.lines texts).length := by
          simp only [List.length_append, List.length_cons] at hn
          omega
        rw [List.take_length_add_append, hasEmptyLine_append_iff hline, List.take_succ_cons,
          hasEmptyLine_cons_iff]
        rintro (⟨-, h⟩ | h)
        · exact not_beginsEmpty_take hrest hk h
        · exact ih hrest hk h

/-- A text of `lines` ends with two line ends that are alike, so that it has a blank line. -/
theorem hasBlankLine_lines (htexts : PlainLines texts) (hne : texts ≠ []) : HasBlankLine (eol.lines texts) := by
  induction texts with
  | nil => exact absurd rfl hne
  | cons line texts ih =>
      rw [LineEnd.lines_cons]
      by_cases hnil : texts = []
      · subst hnil
        cases eol with
        | lineFeed =>
            refine ⟨line, [], Or.inr ⟨by simp [LineEnd.bytes], fun h => ?_⟩⟩
            exact ((htexts line List.mem_cons_self).2 cr (List.mem_of_getLast? h)).1 rfl
        | crLf => exact ⟨line, [], Or.inl (by simp [LineEnd.bytes])⟩
      · refine (ih (fun other hother => htexts other (List.mem_cons_of_mem line hother)) hnil).append_left ?_
        cases eol <;> simp [LineEnd.bytes]

end Http

end NavekFiber
