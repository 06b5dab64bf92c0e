import Mathlib.Data.List.TakeWhile
import NavekFiber.Net.HttpLineEnds

/-! # The query of a request target

The search for the question mark is given the empty range behind the path, so it never finds one: `Params`
stays empty, and the URI that routes are looked up by has the query (`splitsTarget_iff`). -/

namespace NavekFiber

open Utils Proto

namespace Http

variable {data : ReadBufferImpl} {request : Request}

/-- The question mark. -/
abbrev question : UInt8 := 63

/-- The path is the target up to its first question mark, and the query is what stands behind it. -/
structure SplitsTarget (request : Request) (answer : Parsed) : Prop where
  /-- The path ends in front of the question mark, if there is one. -/
  uri : answer.uri = some (request.target.takeWhile (· ≠ question))
  /-- The query begins behind it, and is empty without one. -/
  params : answer.params.getD [] = (request.target.dropWhile (· ≠ question)).tail
  /-- The path that routes are looked up by has no query. -/
  plain : ∀ uri ∈ answer.uri, question ∉ uri

/-- The search for the query is given an empty range: the target of a request with headers is split only
when there is nothing to be split, and the window shows the request line. -/
theorem splitsTarget_iff (h : data.received = request.text) (hheaders : request.headers ≠ []) :
    (∃ answer, parsed data = some answer ∧ SplitsTarget request answer) ↔
      question ∉ request.target ∧ request.line.length + 2 ≤ data.dataPartLength := by
  obtain ⟨code, req, -, hparsed⟩ := (receivedAs_crLf h).parsed_eq
  constructor
  · rintro ⟨answer, hanswer, hsplits⟩
    obtain rfl := Option.some.inj (hparsed.symm.trans hanswer)
    have huri := hsplits.uri
    have hplain := hsplits.plain
    simp only at huri hplain
    split at huri
    · rename_i hshown
      rw [if_pos hshown] at hplain
      exact ⟨hplain _ rfl, hshown.1⟩
    · exact absurd huri (by simp)
  · rintro ⟨hplain, hshown⟩
    have hall : ∀ b ∈ request.target, decide (b ≠ question) = true := fun b hb =>
      decide_eq_true fun heq => hplain (heq ▸ hb)
    have hread : request.line.length + LineEnd.crLf.bytes.length ≤ data.dataPartLength ∧
        (request.headers = [] → data.dataPartLength < (LineEnd.crLf.lines request.lines).length) :=
      ⟨hshown, fun hnil => absurd hnil hheaders⟩
    refine ⟨_, hparsed, ?_, ?_, ?_⟩
    · rw [List.takeWhile_eq_self_iff.mpr hall]
      exact if_pos hread
    · rw [List.dropWhile_eq_nil_iff.mpr hall]
      rfl
    · simp only [if_pos hread, Option.mem_some_iff, forall_eq']
      exact hplain

/-- The target of the request `getWithHeader`, which has no query, is the path. -/
theorem splitsTarget_iff_get :
    ∃ answer, parsed (holding getWithHeader.text) = some answer ∧ SplitsTarget getWithHeader answer :=
  (splitsTarget_iff (received_holding _) (by decide)).mpr ⟨by decide, by decide⟩

/-- The query of a request stays in the path. -/
theorem not_splitsTarget_of_query :
    ¬ ∀ (request : Request) (data : ReadBufferImpl), data.received = request.text → request.headers ≠ [] →
      ∃ answer, parsed data = some answer ∧ SplitsTarget request answer := by
  intro h
  obtain ⟨answer, hanswer, hsplits⟩ := h getWithQuery _ (received_holding _) (by decide)
  have huri : (parsed (holding getWithQuery.text)).map Parsed.uri = some (some (bytes "/a?b")) := by
    decide +kernel
  rw [hanswer, Option.map_some, hsplits.uri] at huri
  exact absurd (Option.some.inj huri) (by decide)

end Http

end NavekFiber
