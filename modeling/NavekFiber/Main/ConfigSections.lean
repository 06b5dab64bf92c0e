import NavekFiber.Main.ConfigLookup
import Mathlib.Data.List.TakeWhile

/-! # How the sections of a configuration are nested

The brackets of a header give its level, and a section is meant to lie in the nearest section before it with
a smaller level. `initConfig` compares the level with the number of names in its path instead, which is the
same while no level is left out (`nestsByLevel_iff`).

* `SectionHeader.around`: the sections around a header, by the levels.
* `SectionHeader.NestsByLevel`: what is opened where, in a sequence of headers. -/

namespace NavekFiber

/-- A header with its level and its name. -/
structure SectionHeader where
  /-- The number of brackets. -/
  level : ℕ
  /-- A header has a level. -/
  level_pos : 0 < level
  /-- The name. -/
  node : Text

namespace SectionHeader

open ConfigBuilder

/-- A header as a line of the file. -/
def line (header : SectionHeader) : ConfigLine := .header header.level header.level_pos header.node

/-- The sections around a header, the outermost first: the nearest section before it with a smaller level,
and those around that one. The headers before it are given with the nearest one first. -/
def around : ℕ → List SectionHeader → List SectionHeader
  | _, [] => []
  | level, header :: before =>
      if header.level < level then around header.level before ++ [header] else around level before

/-- The names of the sections around a header that stands behind the given ones. -/
def parentPath (front : List SectionHeader) (header : SectionHeader) : List Text :=
  (around header.level front.reverse).map node

/-- What `initConfig` has read behind the given headers. -/
def read (headers : List SectionHeader) : Option ConfigBuilder :=
  (headers.map line).foldlM configLine ⟨[], ∅⟩

/-- Each header opens its section as a child of the nearest section before it with a smaller level, of the
root if there is none. -/
def NestsByLevel (headers : List SectionHeader) : Prop :=
  ∀ front header back, headers = front ++ header :: back →
    ∃ b, read front = some b ∧
      b.configLine header.line = some (openSection (parentPath front header) b.config header.node)

/-- A header is deeper than the one before it, or no level above it is left out: as many sections lie around it as
there are smaller levels. -/
def SkipsNoLevel (front : List SectionHeader) (header : SectionHeader) : Prop :=
  (∀ last ∈ front.getLast?, last.level < header.level) ∨
    (around header.level front.reverse).length + 1 = header.level

/-! ### The sections that are open -/

/-- The sections that are open behind the given headers, the nearest of which comes first. -/
def opened : List SectionHeader → List SectionHeader
  | [] => []
  | header :: before => around header.level before ++ [header]

variable {header last : SectionHeader} {front back headers before : List SectionHeader} {level : ℕ}

/-- The sections around a header have smaller levels. -/
theorem level_lt_of_mem_around : ∀ outer ∈ around level before, outer.level < level := by
  induction before generalizing level with
  | nil => exact fun _ hmem => absurd hmem List.not_mem_nil
  | cons header before ih =>
      intro outer hmem
      rw [around] at hmem
      split at hmem
      · rename_i hlt
        rcases List.mem_append.mp hmem with hmem | hmem
        · exact (ih outer hmem).trans hlt
        · rwa [List.mem_singleton.mp hmem]
      · exact ih outer hmem

/-- Fewer sections lie around a header than it has levels. -/
theorem length_around_lt (before : List SectionHeader) (hlevel : 0 < level) :
    (around level before).length < level := by
  induction before generalizing level with
  | nil => exact hlevel
  | cons header before ih =>
      rw [around]
      split
      · rename_i hlt
        have := ih header.level_pos
        rw [List.length_append, List.length_singleton]
        omega
      · exact ih hlevel

/-- The sections around a header are the open ones up to the first that is not less deep. -/
theorem around_eq_takeWhile (level : ℕ) (before : List SectionHeader) :
    around level before = (opened before).takeWhile fun outer => decide (outer.level < level) := by
  induction before generalizing level with
  | nil => rfl
  | cons header before ih =>
      rw [around, opened]
      by_cases hlt : header.level < level
      · -- All open sections are less deep.
        rw [if_pos hlt, List.takeWhile_eq_self_iff.mpr]
        intro outer hmem
        rw [decide_eq_true_eq]
        rcases List.mem_append.mp hmem with hmem | hmem
        · exact (level_lt_of_mem_around outer hmem).trans hlt
        · rwa [List.mem_singleton.mp hmem]
      · -- The header is closed, and some of the sections around it may be.
        have hboth : (fun outer : SectionHeader => decide (outer.level < header.level ∧ outer.level < level))
            = fun outer => decide (outer.level < level) := by
          funext outer
          exact decide_eq_decide.mpr ⟨And.right, fun h => ⟨by omega, h⟩⟩
        have hrest : (around header.level before).takeWhile (fun outer => decide (outer.level < level)) =
            around level before := by
          rw [ih header.level, List.takeWhile_takeWhile, ih level, ← hboth]
          congr 1
          funext outer
          simp [Bool.and_comm]
        rw [if_neg hlt, ← hrest, List.takeWhile_append]
        split
        · rename_i hall
          rw [List.takeWhile_cons_of_neg (by simpa using hlt), List.append_nil]
          exact (List.takeWhile_prefix _).eq_of_length hall
        · rfl

/-! ### Behind one more header -/

theorem opened_concat (front : List SectionHeader) (last : SectionHeader) :
    opened (front ++ [last]).reverse = around last.level front.reverse ++ [last] := by
  rw [List.reverse_append]
  rfl

theorem around_concat (level : ℕ) (front : List SectionHeader) (last : SectionHeader) :
    around level (front ++ [last]).reverse =
      if last.level < level then opened (front ++ [last]).reverse else around level front.reverse := by
  rw [List.reverse_append]
  rfl

/-- Behind a header, the open sections are those around it and its own. -/
theorem map_opened_concat (front : List SectionHeader) (header : SectionHeader) :
    (opened (front ++ [header]).reverse).map node = parentPath front header ++ [header.node] := by
  rw [opened_concat, List.map_append]
  rfl

/-- Behind a header, no more sections are open than it has levels. -/
theorem length_opened_concat_le (front : List SectionHeader) (last : SectionHeader) :
    (opened (front ++ [last]).reverse).length ≤ last.level := by
  have := length_around_lt front.reverse last.level_pos
  rw [opened_concat, List.length_append, List.length_singleton]
  omega

/-- A header that is not deeper than the last one closes its section: fewer sections lie around it than were open. -/
theorem length_around_concat_lt (h : ¬ last.level < level) :
    (around level (front ++ [last]).reverse).length < (opened (front ++ [last]).reverse).length := by
  rw [around_eq_takeWhile]
  apply lt_of_le_of_ne (List.takeWhile_prefix _).length_le
  intro heq
  have hmem : last ∈ opened (front ++ [last]).reverse := by
    rw [opened_concat]
    exact List.mem_append_right _ (List.mem_singleton_self last)
  rw [← (List.takeWhile_prefix _).eq_of_length heq] at hmem
  exact h (by simpa using List.mem_takeWhile_imp hmem)

/-- The path that `initConfig` cuts and that of the sections around a header are first parts of what is open, so
their lengths decide. -/
theorem take_opened_eq_iff_length (front : List SectionHeader) (header : SectionHeader) :
    ((opened front.reverse).map node).take (header.level - 1) = parentPath front header ↔
      min (header.level - 1) (opened front.reverse).length = (around header.level front.reverse).length := by
  have hfirst : parentPath front header = ((opened front.reverse).map node).take
      (around header.level front.reverse).length := by
    rw [parentPath, ← List.map_take, around_eq_takeWhile]
    exact congrArg _ (List.prefix_iff_eq_take.mp (List.takeWhile_prefix _))
  have hle : (around header.level front.reverse).length ≤ (opened front.reverse).length := by
    rw [around_eq_takeWhile]
    exact (List.takeWhile_prefix _).length_le
  rw [hfirst]
  constructor
  · intro heq
    have hlength := congrArg List.length heq
    rwa [List.length_take, List.length_take, List.length_map, min_eq_left hle] at hlength
  · intro heq
    rw [← heq, List.take_eq_take_min, List.length_map]

/-- The path that `initConfig` cuts for a header is that of the sections around it exactly when the header skips no
level. -/
theorem take_opened_eq_iff (front : List SectionHeader) (header : SectionHeader) :
    ((opened front.reverse).map node).take (header.level - 1) = parentPath front header ↔
      SkipsNoLevel front header := by
  have hlevel := header.level_pos
  have hlt := length_around_lt front.reverse hlevel
  rw [take_opened_eq_iff_length, SkipsNoLevel]
  rcases List.eq_nil_or_concat' front with rfl | ⟨front, last, rfl⟩
  · -- Nothing is open.
    apply iff_of_true (by simp [around, opened])
    exact Or.inl (by simp)
  · have hopened := length_opened_concat_le front last
    simp only [List.getLast?_concat, Option.mem_some_iff, forall_eq']
    by_cases hdeeper : last.level < header.level
    · -- Everything that is open lies around the header.
      refine iff_of_true ?_ (Or.inl hdeeper)
      rw [around_concat, if_pos hdeeper]
      omega
    · have hclosed : (around header.level (front ++ [last]).reverse).length < _ := length_around_concat_lt hdeeper
      constructor
      · exact fun h => Or.inr (by omega)
      · rintro (h | h)
        · exact absurd h hdeeper
        · omega

/-! ### Reading headers -/

/-- `configLine` reads a header in the current path, cut to the names in front of its level. -/
theorem configLine_line (b : ConfigBuilder) (header : SectionHeader) :
    b.configLine header.line = some (openSection (b.path.take (header.level - 1)) b.config header.node) :=
  configLine_header header.level_pos

/-- Reading headers and one more is reading them and then the line of that one. -/
theorem read_concat (front : List SectionHeader) (header : SectionHeader) :
    read (front ++ [header]) = (read front).bind fun b => b.configLine header.line := by
  rw [read, List.map_append, List.foldlM_append]
  refine bind_congr fun b => ?_
  rw [List.map_singleton, List.foldlM_cons]
  exact bind_pure _

/-- While no level is skipped, the path has the names of the sections that are open. -/
theorem exists_read_of_skipsNoLevel (front : List SectionHeader)
    (hskips : ∀ before header behind, front = before ++ header :: behind → SkipsNoLevel before header) :
    ∃ b, read front = some b ∧ b.path = (opened front.reverse).map node := by
  induction front using List.reverseRecOn with
  | nil => exact ⟨⟨[], ∅⟩, rfl, rfl⟩
  | append_singleton front header ih =>
      obtain ⟨b, hread, hpath⟩ := ih fun before outer behind hsplit =>
        hskips before outer (behind ++ [header]) (by rw [hsplit]; simp)
      have hcut := (take_opened_eq_iff front header).mpr (hskips front header [] rfl)
      refine ⟨openSection (b.path.take (header.level - 1)) b.config header.node, ?_, ?_⟩
      · rw [read_concat, hread, Option.bind_some, configLine_line]
      · rw [hpath, hcut, List.reverse_append]
        show parentPath front header ++ [header.node] = (around header.level front.reverse ++ [header]).map node
        rw [List.map_append]
        rfl

/-- While headers are nested by their levels, the path has the names of the sections that are open. -/
theorem path_of_nestsByLevel {b : ConfigBuilder} (hnests : NestsByLevel headers)
    (hsplit : headers = front ++ header :: back) (hread : read front = some b) :
    b.path = (opened front.reverse).map node := by
  rcases List.eq_nil_or_concat' front with rfl | ⟨front, last, rfl⟩
  · obtain rfl : ⟨[], ∅⟩ = b := Option.some.inj hread
    rfl
  · obtain ⟨before, hbefore, hline⟩ := hnests front last (header :: back) (by rw [hsplit]; simp)
    rw [read_concat, hbefore, Option.bind_some, hline] at hread
    obtain rfl := Option.some.inj hread
    rw [map_opened_concat]
    rfl

/-- Sections are nested by their levels exactly when no header skips a level. -/
theorem nestsByLevel_iff (headers : List SectionHeader) :
    NestsByLevel headers ↔
      ∀ front header back, headers = front ++ header :: back → SkipsNoLevel front header := by
  constructor
  · intro h front header back hsplit
    obtain ⟨b, hread, hline⟩ := h front header back hsplit
    rw [configLine_line] at hline
    have hpaths := congrArg ConfigBuilder.path (Option.some.inj hline)
    have hcut : b.path.take (header.level - 1) = parentPath front header := List.append_cancel_right hpaths
    rw [path_of_nestsByLevel h hsplit hread] at hcut
    exact (take_opened_eq_iff front header).mp hcut
  · intro h front header back hsplit
    obtain ⟨b, hread, hpath⟩ := exists_read_of_skipsNoLevel front fun before outer behind hfront =>
      h before outer (behind ++ header :: back) (by rw [hsplit, hfront]; simp)
    refine ⟨b, hread, ?_⟩
    rw [configLine_line, hpath, (take_opened_eq_iff front header).mpr (h front header back hsplit)]

/-- Three headers of which the second leaves a level out. -/
def skipping : List SectionHeader :=
  [⟨1, Nat.succ_pos 0, bytes "a"⟩, ⟨3, Nat.succ_pos 2, bytes "b"⟩, ⟨3, Nat.succ_pos 2, bytes "c"⟩]

/-- Among the headers `skipping`, the third becomes a child of the second although the first is the nearest with a
smaller level. -/
theorem not_nestsByLevel_of_skipping : ¬ ∀ headers : List SectionHeader, NestsByLevel headers := by
  intro h
  obtain ⟨b, hread, hline⟩ := h skipping (skipping.take 2) ⟨3, Nat.succ_pos 2, bytes "c"⟩ [] rfl
  have hpath : b.path = [bytes "a", bytes "b"] :=
    congrArg (fun read => (read.map ConfigBuilder.path).getD []) hread.symm
  rw [configLine_line, hpath] at hline
  have hpaths : [bytes "a", bytes "b", bytes "c"] =
      parentPath (skipping.take 2) ⟨3, Nat.succ_pos 2, bytes "c"⟩ ++ [bytes "c"] :=
    congrArg ConfigBuilder.path (Option.some.inj hline)
  exact absurd hpaths (by decide)

end SectionHeader

end NavekFiber
