import Mathlib.Logic.Relation
import Mathlib.Order.Bounds.Basic
import NavekFiber.Utils.FindLoop
import NavekFiber.Utils.Transform

/-! # `zcstring::explode`

`zcstring::explode` searches with `utils::find`, which keeps the addresses of its needles in a static table. That
table is filled by the first call of its instance, and no call after it changes it: each later one compares with
what stands, by then, where the delimiter of the first one has been. Letters are compared without their case, and
a text that ends with the delimiter has no empty last piece. In a history of calls all of them give the pieces of
`utils::explode` exactly when the searches, with the needle at the first address, find what `string::find` finds,
and something is left behind the last delimiter (`run_eq_iff`). -/

namespace NavekFiber

open Utils

namespace ZcString

/-- The loop of `explode` on what is left of the text, which begins at `start`. Before each turn there is a
search, with the needle `needleAt turn`, also before the one that the limit ends. -/
def explodeFrom (needleAt : ℕ → List UInt8) (delimiter : Delimiter) (turn : ℕ) (limit : ℤ) (start : ℕ)
    (rest : List UInt8) : Option (List (List UInt8)) :=
  match _hfind : findValuesLoop start rest [needleAt turn] with
  | none => none
  | some part =>
      if _hpart : limit - 1 ≠ 0 ∧ part.result ≠ 0 then
        (explodeFrom needleAt delimiter (turn + 1) (limit - 1) (part.start + delimiter.text.length)
          (rest.drop (part.start + delimiter.text.length - start))).map (rest.take (part.start - start) :: ·)
      else some (if rest ≠ [] then [rest] else [])
termination_by rest.length
decreasing_by
  have hlt := findLoop_start_lt _hfind _hpart.2
  have hpos := List.length_pos_iff.mpr delimiter.ne_nil
  rw [List.length_drop]
  omega

/-- A call of `zcstring::explode`, with what it finds in memory. -/
structure ExplodeCall where
  /-- The text. -/
  text : List UInt8
  /-- `delimiter`. -/
  delimiter : Delimiter
  /-- `limit`. -/
  limit : ℤ
  /-- Where the characters of the call's copy of the delimiter are. -/
  buffer : ℕ
  /-- At each search, the characters from an address on. -/
  memory : ℕ → ℕ → List UInt8
  /-- The delimiter stays in its place, with a zero behind it. -/
  memory_buffer : ∀ turn, memory turn buffer = delimiter.text ++ [0]
  /-- Behind every address there is a zero in memory. -/
  zero_mem : ∀ turn needle, 0 ∈ (memory turn needle).tail

/-- The static tables of the instances of `find` and `match` with one needle of type `const char*`: the address
that an instance was called with first. -/
structure NeedleTables where
  /-- `needle_values` of `find`. -/
  findTable : Option ℕ
  /-- `needle_values` of `match`. -/
  matchTable : Option ℕ
  deriving DecidableEq, Repr

/-- A call of an instance of `find` or `match`, or of `explode`. -/
inductive Call
  /-- `utils::find` with the needle at an address. -/
  | find (needle : ℕ)
  /-- `utils::match`. -/
  | matching (needle : ℕ)
  /-- `zcstring::explode`. -/
  | explode (call : ExplodeCall)

/-- The tables after a call. -/
def NeedleTables.after (tables : NeedleTables) : Call → NeedleTables
  | .find needle => { tables with findTable := some (tables.findTable.getD needle) }
  | .matching needle => { tables with matchTable := some (tables.matchTable.getD needle) }
  | .explode call => { tables with findTable := some (tables.findTable.getD call.buffer) }

/-- `zcstring::explode`. -/
def explode (tables : NeedleTables) (call : ExplodeCall) : Option (List (List UInt8)) :=
  explodeFrom (fun turn => call.memory turn (tables.findTable.getD call.buffer)) call.delimiter 0 call.limit 0
    call.text

/-- What the calls of `explode` in a history give. -/
def run : NeedleTables → List Call → List (Option (List (List UInt8)))
  | _, [] => []
  | tables, .explode call :: calls => explode tables call :: run (tables.after (.explode call)) calls
  | tables, call :: calls => run (tables.after call) calls

/-- The call of `explode` that a call is, if it is one. -/
def Call.explode? : Call → Option ExplodeCall
  | .explode call => some call
  | _ => none

/-- The address that a call of `find` has for the table. -/
def Call.needle? : Call → Option ℕ
  | .find needle => some needle
  | .matching _ => none
  | .explode call => some call.buffer

/-! ### When the pieces are the same -/

/-- A search of `utils::explode`: its number, the limit, and what is left of the text. -/
structure Search where
  /-- The number of searches before this one. -/
  turn : ℕ
  /-- The limit on the number of pieces. -/
  limit : ℤ
  /-- The text that is searched. -/
  rest : List UInt8

/-- The search of `utils::explode` that follows another one: it begins behind the first delimiter. -/
inductive Cuts (delimiter : Delimiter) : Search → Search → Prop
  /-- The limit allows one piece more. -/
  | cut {turn : ℕ} {limit : ℤ} {rest : List UInt8} {stop : ℕ} (hlimit : limit ≠ 1)
      (hstop : IsLeast {p | delimiter.text <+: rest.drop p} stop) :
      Cuts delimiter ⟨turn, limit, rest⟩ ⟨turn + 1, limit - 1, rest.drop (stop + delimiter.text.length)⟩

/-- Wherever `utils::explode` searches, and the limit allows a cut, the first place where the needle stands, up to
the case of letters, is the first one where the delimiter stands. And something is left behind the last
delimiter. -/
structure Agrees (needleAt : ℕ → List UInt8) (delimiter : Delimiter) (first : Search) : Prop where
  /-- The places. -/
  found : ∀ search, Relation.ReflTransGen (Cuts delimiter) first search → search.limit ≠ 1 → ∀ stop,
    IsLeast {p | FoldPrefix (needleOf (needleAt search.turn)) (search.rest.drop p)} stop ↔
      IsLeast {p | delimiter.text <+: search.rest.drop p} stop
  /-- The last piece. -/
  last : first.rest ≠ [] → ∀ search, Relation.ReflTransGen (Cuts delimiter) first search → search.rest ≠ []

variable {needleAt : ℕ → List UInt8} {delimiter : Delimiter} {turn start stop : ℕ} {limit : ℤ}
  {rest needle text : List UInt8}

/-- `string::find` finds the first place where the needle stands. -/
theorem isLeast_of_findText (h : findText needle text = some stop) :
    IsLeast {p | needle <+: text.drop p} stop :=
  ⟨findText_isPrefix h, fun _ hq => not_lt.mp fun hlt => not_isPrefix_of_lt h hlt hq⟩

/-- `string::find` finds a place exactly when it is the first one where the needle stands. -/
theorem findText_eq_some_iff : findText needle text = some stop ↔ IsLeast {p | needle <+: text.drop p} stop := by
  refine ⟨isLeast_of_findText, fun h => ?_⟩
  cases hfind : findText needle text with
  | none => exact absurd (h.1.isInfix.trans (List.drop_suffix stop text).isInfix) (not_isInfix_of_findText hfind)
  | some stop' => rw [(isLeast_of_findText hfind).unique h]

/-- A search of `utils::explode` has a next one when the limit allows a cut and the delimiter is found, and the next
one is behind it. -/
theorem cuts_iff {next : Search} : Cuts delimiter ⟨turn, limit, rest⟩ next ↔
    limit ≠ 1 ∧ ∃ stop, findText delimiter.text rest = some stop ∧
      next = ⟨turn + 1, limit - 1, rest.drop (stop + delimiter.text.length)⟩ := by
  constructor
  · rintro ⟨hlimit, hstop⟩
    exact ⟨hlimit, _, findText_eq_some_iff.mpr hstop, rfl⟩
  · rintro ⟨hlimit, stop, hfind, rfl⟩
    exact .cut hlimit (findText_eq_some_iff.mp hfind)

/-- A search `Agrees` when needle and delimiter stand at the same first place, and the search behind it has a text
left and `Agrees`. -/
theorem agrees_iff (hrest : rest ≠ []) : Agrees needleAt delimiter ⟨turn, limit, rest⟩ ↔
    (limit ≠ 1 → ∀ stop, IsLeast {p | FoldPrefix (needleOf (needleAt turn)) (rest.drop p)} stop ↔
      findText delimiter.text rest = some stop) ∧
    ∀ next, Cuts delimiter ⟨turn, limit, rest⟩ next → next.rest ≠ [] ∧ Agrees needleAt delimiter next := by
  simp only [findText_eq_some_iff]
  constructor
  · intro h
    refine ⟨h.found _ .refl, fun next hcut => ⟨h.last hrest next (.single hcut), ?_, ?_⟩⟩
    · intro search hreach
      exact h.found search (.head hcut hreach)
    · intro _ search hreach
      exact h.last hrest search (.head hcut hreach)
  · rintro ⟨hfound, hnext⟩
    constructor
    · intro search hreach
      rcases Relation.ReflTransGen.cases_head_iff.mp hreach with rfl | ⟨next, hcut, hreach⟩
      · exact hfound
      · exact (hnext next hcut).2.found search hreach
    · intro _ search hreach
      rcases Relation.ReflTransGen.cases_head_iff.mp hreach with rfl | ⟨next, hcut, hreach⟩
      · exact hrest
      · exact (hnext next hcut).2.last (hnext next hcut).1 search hreach

/-- A search in which needle and delimiter stand at the same first place `Agrees` exactly when something is left
behind it, and the next search `Agrees`. -/
theorem agrees_of_found (hlimit : limit ≠ 1)
    (hstop : IsLeast {p | FoldPrefix (needleOf (needleAt turn)) (rest.drop p)} stop)
    (hfind : findText delimiter.text rest = some stop) (hrest : rest ≠ []) :
    Agrees needleAt delimiter ⟨turn, limit, rest⟩ ↔
      rest.drop (stop + delimiter.text.length) ≠ [] ∧
        Agrees needleAt delimiter ⟨turn + 1, limit - 1, rest.drop (stop + delimiter.text.length)⟩ := by
  rw [agrees_iff hrest]
  constructor
  · intro h
    exact h.2 _ (cuts_iff.mpr ⟨hlimit, stop, hfind, rfl⟩)
  · intro h
    refine ⟨fun _ other => ?_, fun next hcut => ?_⟩
    · rw [hfind, Option.some.injEq]
      exact ⟨fun hother => hstop.unique hother, fun heq => heq ▸ hstop⟩
    · obtain ⟨-, other, hother, rfl⟩ := cuts_iff.mp hcut
      obtain rfl := Option.some.inj (hfind.symm.trans hother)
      exact h

/-- When its search finds nothing, `explodeFrom` takes what is left, if anything, as the last piece. -/
theorem explodeFrom_of_fail (h : findValuesLoop start rest [needleAt turn] = some .fail) :
    explodeFrom needleAt delimiter turn limit start rest = some (if rest ≠ [] then [rest] else []) := by
  rw [explodeFrom, h]
  exact dif_neg fun hpart => hpart.2 rfl

theorem explodeFrom_of_found {after : ℕ}
    (h : findValuesLoop start rest [needleAt turn] = some ⟨1, start + stop, after⟩) :
    explodeFrom needleAt delimiter turn limit start rest =
      if limit ≠ 1 then
        (explodeFrom needleAt delimiter (turn + 1) (limit - 1) (start + stop + delimiter.text.length)
          (rest.drop (stop + delimiter.text.length))).map (rest.take stop :: ·)
      else some (if rest ≠ [] then [rest] else []) := by
  rw [explodeFrom, h]
  by_cases hlimit : limit = 1
  · rw [if_neg (not_not.mpr hlimit)]
    exact dif_neg fun hpart => hpart.1 (sub_eq_zero.mpr hlimit)
  · have hstop : start + stop - start = stop := Nat.add_sub_cancel_left start stop
    have hbehind : start + stop + delimiter.text.length - start = stop + delimiter.text.length := by omega
    rw [if_pos hlimit]
    simp only
    rw [dif_pos ⟨sub_ne_zero.mpr hlimit, one_ne_zero⟩, hstop, hbehind]

/-- `explodeFrom` of a text that is used up has no pieces. -/
theorem explodeFrom_nil : explodeFrom needleAt delimiter turn limit start [] = some [] := by
  have hfind : findValuesLoop start [] [needleAt turn] = some .fail := by
    rw [findValuesLoop, findLoop]
    exact if_neg (Nat.not_lt_zero 0)
  rw [explodeFrom_of_fail hfind, if_neg (not_not.mpr rfl)]

/-- A needle that is not empty stands in front of the end of the text. -/
theorem lt_length_of_foldPrefix (hne : needle ≠ []) (h : FoldPrefix needle (rest.drop stop)) :
    stop < rest.length := by
  have hlength := h.length_le
  have hpos := List.length_pos_iff.mpr hne
  rw [List.length_drop] at hlength
  omega

/-- Pieces of a text that end at different places are different. -/
theorem take_ne_take {place : ℕ} (hplace : place < rest.length) (hstop : stop ≤ rest.length) (hne : place ≠ stop) :
    rest.take place ≠ rest.take stop := by
  intro h
  have hlength := congrArg List.length h
  rw [List.length_take, List.length_take] at hlength
  omega

/-- The last piece that the limit allows is what is left of the text. -/
theorem explodeFrom_one (hzero : 0 ∈ (needleAt turn).tail) (hrest : rest ≠ []) :
    explodeFrom needleAt delimiter turn 1 start rest = some [rest] := by
  rcases findValuesLoop_singleton hzero start rest with ⟨hfind, -⟩ | ⟨stop, -, hfind⟩
  · rw [explodeFrom_of_fail hfind, if_pos hrest]
  · rw [explodeFrom_of_found hfind, if_neg (not_not.mpr rfl), if_pos hrest]

/-- From any search on, the pieces are those of `utils::explode` exactly when the search `Agrees`. -/
theorem explodeFrom_eq_iff (hzero : ∀ turn, 0 ∈ (needleAt turn).tail) (hrest : rest ≠ []) :
    explodeFrom needleAt delimiter turn limit start rest = some (Utils.explodeFrom delimiter limit rest) ↔
      Agrees needleAt delimiter ⟨turn, limit, rest⟩ := by
  induction limit, rest using Utils.explodeFrom.induct delimiter generalizing turn start with
  | case1 limit rest stop hfind hlimit ih =>
      have hlimit' : limit ≠ 1 := sub_ne_zero.mp hlimit
      rw [agrees_iff hrest, explodeFrom_of_some hfind, if_pos hlimit]
      rcases findValuesLoop_singleton (hzero turn) start rest with ⟨hfail, hnowhere⟩ | ⟨place, hplace, hfound⟩
      · -- The delimiter stands there, but the needle does not.
        rw [explodeFrom_of_fail hfail, if_pos hrest]
        refine iff_of_false (fun h => ?_) fun h => hnowhere stop ((h.1 hlimit' stop).mpr hfind).1
        exact explodeFrom_ne_nil _ _ _ (List.cons.inj (Option.some.inj h)).2.symm
      · rw [explodeFrom_of_found hfound, if_pos hlimit']
        have hlt := lt_length_of_foldPrefix (needleOf_ne_nil (hzero turn)) hplace.1
        rcases eq_or_ne place stop with rfl | hne
        · rw [← agrees_iff hrest, agrees_of_found hlimit' hplace hfind hrest, ← Option.map_some,
            (Option.map_injective List.cons_injective).eq_iff]
          by_cases hbehind : rest.drop (place + delimiter.text.length) = []
          · -- There is an empty piece more in one case, and none in the other one.
            refine iff_of_false (fun h => ?_) fun h => h.1 hbehind
            rw [hbehind, explodeFrom_nil] at h
            exact explodeFrom_ne_nil _ _ _ (Option.some.inj h).symm
          · rw [ih hbehind]
            exact (and_iff_right hbehind).symm
        · -- The first pieces end at different places.
          refine iff_of_false (fun h => ?_) fun h => ?_
          · obtain ⟨pieces, -, hcons⟩ := Option.map_eq_some_iff.mp h
            have hle := findText_add_length_le hfind
            exact take_ne_take hlt (by omega) hne (List.cons.inj hcons).1
          · exact hne (Option.some.inj (((h.1 hlimit' place).mp hplace).symm.trans hfind))
  | case2 limit rest stop hfind hlimit =>
      obtain rfl : limit = 1 := sub_eq_zero.mp (not_not.mp hlimit)
      rw [agrees_iff hrest, explodeFrom_one (hzero turn) hrest, Utils.explodeFrom_one]
      exact iff_of_true rfl ⟨fun h => absurd rfl h, fun next hcut => absurd rfl (cuts_iff.mp hcut).1⟩
  | case3 limit rest hfind =>
      have hlast : ∀ next, Cuts delimiter ⟨turn, limit, rest⟩ next →
          next.rest ≠ [] ∧ Agrees needleAt delimiter next := by
        intro next hcut
        obtain ⟨-, stop, hstop, -⟩ := cuts_iff.mp hcut
        cases hfind.symm.trans hstop
      rw [agrees_iff hrest, explodeFrom_of_none hfind]
      rcases eq_or_ne limit 1 with rfl | hlimit
      · rw [explodeFrom_one (hzero turn) hrest]
        exact iff_of_true rfl ⟨fun h => absurd rfl h, hlast⟩
      · rcases findValuesLoop_singleton (hzero turn) start rest with ⟨hfail, hnowhere⟩ | ⟨place, hplace, hfound⟩
        · rw [explodeFrom_of_fail hfail, if_pos hrest]
          refine iff_of_true rfl ⟨fun _ stop => iff_of_false (fun h => hnowhere stop h.1) fun h => ?_, hlast⟩
          cases hfind.symm.trans h
        · -- The needle stands there, but the delimiter does not.
          rw [explodeFrom_of_found hfound, if_pos hlimit]
          refine iff_of_false (fun h => ?_) fun h => ?_
          · obtain ⟨pieces, -, hcons⟩ := Option.map_eq_some_iff.mp h
            have hlt := lt_length_of_foldPrefix (needleOf_ne_nil (hzero turn)) hplace.1
            exact take_ne_take hlt le_rfl hlt.ne ((List.cons.inj hcons).1.trans List.take_length.symm)
          · cases hfind.symm.trans ((h.1 hlimit place).mp hplace)

/-- A search in an empty text `Agrees`, since nothing is found in it. -/
theorem agrees_nil (hzero : ∀ turn, 0 ∈ (needleAt turn).tail) : Agrees needleAt delimiter ⟨turn, limit, []⟩ := by
  have hnone : ∀ stop, ¬ IsLeast {p | delimiter.text <+: ([] : List UInt8).drop p} stop := by
    intro stop h
    have hprefix : delimiter.text <+: ([] : List UInt8).drop stop := h.1
    rw [List.drop_nil] at hprefix
    exact delimiter.ne_nil (List.prefix_nil.mp hprefix)
  constructor
  · intro search hreach _ stop
    rcases Relation.ReflTransGen.cases_head_iff.mp hreach with rfl | ⟨next, hcut, -⟩
    · refine iff_of_false (fun h => ?_) (hnone stop)
      exact absurd (lt_length_of_foldPrefix (needleOf_ne_nil (hzero turn)) h.1) (Nat.not_lt_zero stop)
    · obtain ⟨-, stop, hstop, -⟩ := cuts_iff.mp hcut
      exact absurd (findText_eq_some_iff.mp hstop) (hnone stop)
  · exact fun h => absurd rfl h

/-- A call of `explode` gives the pieces of `utils::explode` exactly when its first search `Agrees`, with the needle
that the table has, or gets. -/
theorem explode_eq_iff (tables : NeedleTables) (call : ExplodeCall) :
    explode tables call = some (Utils.explode call.delimiter call.text call.limit) ↔
      Agrees (fun turn => call.memory turn (tables.findTable.getD call.buffer)) call.delimiter
        ⟨0, call.limit, call.text⟩ := by
  have hzero : ∀ turn, 0 ∈ (call.memory turn (tables.findTable.getD call.buffer)).tail :=
    fun turn => call.zero_mem turn _
  rw [explode, Utils.explode]
  by_cases htext : call.text = []
  · rw [if_neg (not_not.mpr htext), htext, explodeFrom_nil]
    exact iff_of_true rfl (agrees_nil hzero)
  · rw [if_pos htext]
    exact explodeFrom_eq_iff hzero htext

/-! ### Histories -/

/-- No call changes the address that the calls after it compare with: the one in the table, or that of the first call
to fill it. -/
theorem findTable_after (tables : NeedleTables) (call : Call) (calls : List Call) :
    (tables.after call).findTable.or (calls.findSome? Call.needle?) =
      tables.findTable.or ((call :: calls).findSome? Call.needle?) := by
  rw [List.findSome?_cons]
  cases call with
  | find needle =>
      rw [NeedleTables.after, Option.some_or]
      cases tables.findTable <;> rfl
  | matching needle => rfl
  | explode call =>
      rw [NeedleTables.after, Option.some_or]
      cases tables.findTable <;> rfl

/-- From any tables on, all calls of `explode` in a history give the pieces of `utils::explode` exactly when they
agree with it, with the needle that the table has, or gets. -/
theorem run_eq_iff_of_tables (tables : NeedleTables) (calls : List Call) :
    run tables calls = (calls.filterMap Call.explode?).map
        (fun call => some (Utils.explode call.delimiter call.text call.limit)) ↔
      ∀ call ∈ calls.filterMap Call.explode?, ∀ needle ∈ tables.findTable.or (calls.findSome? Call.needle?),
        Agrees (fun turn => call.memory turn needle) call.delimiter ⟨0, call.limit, call.text⟩ := by
  induction calls generalizing tables with
  | nil => simp [run]
  | cons call calls ih =>
      rw [← findTable_after]
      cases call with
      | find needle => exact ih _
      | matching needle => exact ih _
      | explode call =>
          have hneedle : ((tables.after (.explode call)).findTable.or (calls.findSome? Call.needle?)) =
              some (tables.findTable.getD call.buffer) := rfl
          have hcalls : (Call.explode call :: calls).filterMap Call.explode? =
              call :: calls.filterMap Call.explode? := List.filterMap_cons_some rfl
          rw [run, hcalls, List.map_cons, List.cons.injEq, ih, explode_eq_iff, List.forall_mem_cons]
          simp only [hneedle, Option.mem_some_iff, forall_eq']

/-- In a history of calls, the first one of which fills the table of `find`, all calls of `explode` give the
pieces of `utils::explode` exactly when all of them agree with it, with the characters that they find at the
address of the first needle. -/
theorem run_eq_iff (calls : List Call) :
    run ⟨none, none⟩ calls = (calls.filterMap Call.explode?).map
        (fun call => some (Utils.explode call.delimiter call.text call.limit)) ↔
      ∀ call ∈ calls.filterMap Call.explode?, ∀ needle ∈ calls.findSome? Call.needle?,
        Agrees (fun turn => call.memory turn needle) call.delimiter ⟨0, call.limit, call.text⟩ := by
  rw [run_eq_iff_of_tables, Option.none_or]

/-- A call in a memory that has the same characters at all other addresses. -/
def ExplodeCall.among (others : List UInt8) (hothers : 0 ∈ others.tail) (text : List UInt8) (delimiter : Delimiter)
    (limit : ℤ) (buffer : ℕ) : ExplodeCall where
  text := text
  delimiter := delimiter
  limit := limit
  buffer := buffer
  memory := fun _ needle => if needle = buffer then delimiter.text ++ [0] else others
  memory_buffer := fun _ => if_pos rfl
  zero_mem := by
    intro _ needle
    split
    · exact zero_mem_tail delimiter.ne_nil
    · exact hothers

/-- The pieces are not those of `utils::explode` for a second call, in a memory where the delimiter of the first one
still stands, for a text that ends with the delimiter, and for a letter that is the delimiter but for its case. -/
theorem run_ne_explode :
    run ⟨none, none⟩ [.explode (.among [44, 0] (by decide) (bytes "a,b") .comma (-1) 0),
          .explode (.among [44, 0] (by decide) (bytes "c;d") ⟨[59], by decide⟩ (-1) 1)] ≠
        [some (Utils.explode .comma (bytes "a,b") (-1)),
          some (Utils.explode ⟨[59], by decide⟩ (bytes "c;d") (-1))] ∧
      run ⟨none, none⟩ [.explode (.among [44, 0] (by decide) (bytes "a,") .comma (-1) 0)] ≠
        [some (Utils.explode .comma (bytes "a,") (-1))] ∧
      run ⟨none, none⟩ [.explode (.among [44, 0] (by decide) (bytes "aXb") ⟨[120], by decide⟩ (-1) 0)] ≠
        [some (Utils.explode ⟨[120], by decide⟩ (bytes "aXb") (-1))] := by
  refine ⟨fun h => ?_, fun h => ?_, fun h => ?_⟩
  · have hagrees := (run_eq_iff_of_tables _ _).mp h _ (List.mem_cons_of_mem _ (List.mem_singleton_self _)) 0 rfl
    have hleast : IsLeast {p | [59] <+: (bytes "c;d").drop p} 1 := findText_eq_some_iff.mp (by decide)
    -- There is no comma.
    exact absurd ((hagrees.found _ .refl (by decide) 1).mpr hleast).1 (by decide)
  · have hagrees := (run_eq_iff_of_tables _ _).mp h _ (List.mem_singleton_self _) 0 rfl
    have hleast : IsLeast {p | [44] <+: (bytes "a,").drop p} 1 := findText_eq_some_iff.mp (by decide)
    exact hagrees.last (by decide) _ (.single (.cut (by decide) hleast)) (by decide)
  · have hagrees := (run_eq_iff_of_tables _ _).mp h _ (List.mem_singleton_self _) 0 rfl
    have hleast : IsLeast {p | FoldPrefix [120] ((bytes "aXb").drop p)} 1 := by
      refine ⟨by decide, fun q hq => Nat.one_le_iff_ne_zero.mpr ?_⟩
      rintro rfl
      exact absurd hq (by decide)
    -- The letter is another one.
    exact absurd ((hagrees.found _ .refl (by decide) 1).mp hleast).1 (by decide)

end ZcString

end NavekFiber
