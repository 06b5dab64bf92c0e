import NavekFiber.Main.PathOverlap
import NavekFiber.Main.RouteTable

/-! # Wildcards in a request

`compare` treats its two paths alike, so a `*` or a `?` of the request is a wildcard, too. Up to its first
wildcard a request is taken literally; behind it, the request is a pattern that a route without wildcards
may fit (`selects_plain_iff`).

* `CPathString.Fits`: what a request, read as a pattern, stands for.
* `CPathString.compare_iff_fits`: against a path without wildcards, `compare` asks just that. -/

namespace NavekFiber

namespace CPathString

variable {uri text x y : CPathString} {c : UInt8}

/-- A path, read as a pattern, fits a text. Where one of them ends, the rest of the other one does not
matter. -/
inductive Fits : CPathString → List UInt8 → Prop
  /-- The pattern ends. -/
  | patternEnds (text : List UInt8) : Fits [] text
  /-- The text ends. -/
  | textEnds (path : CPathString) : Fits path []
  /-- A `*` takes whatever follows. -/
  | anything (path : CPathString) (text : List UInt8) : Fits (star :: path) text
  /-- A `?` takes what is left of a segment. -/
  | segment {path : CPathString} {text : List UInt8} (taken : List UInt8) (hslash : slash ∉ taken)
      (hrest : Fits path (slash :: text)) : Fits (question :: path) (taken ++ slash :: text)
  /-- A `?` takes what is left of the last segment. -/
  | lastSegment {text : List UInt8} (path : CPathString) (hslash : slash ∉ text) :
      Fits (question :: path) text
  /-- Any other byte takes itself. -/
  | byte {b : UInt8} {path : CPathString} {text : List UInt8} (hb : b ≠ question)
      (hrest : Fits path text) : Fits (b :: path) (b :: text)

/-- The part of a request in front of its first wildcard. -/
def plainPart (uri : CPathString) : CPathString := uri.takeWhile fun c => c ≠ question ∧ c ≠ star

/-- The part of a request from its first wildcard on. -/
def wildPart (uri : CPathString) : CPathString := uri.dropWhile fun c => c ≠ question ∧ c ≠ star

/-- A request is its `plainPart` and its `wildPart`. -/
theorem plainPart_append_wildPart (uri : CPathString) : plainPart uri ++ wildPart uri = uri :=
  List.takeWhile_append_dropWhile

/-- The `plainPart` of a request has no wildcard. -/
theorem plain_plainPart (uri : CPathString) : Plain (plainPart uri) := by
  intro c hc
  simpa using List.mem_takeWhile_imp hc

/-- The `wildPart` of a request begins with a wildcard, unless it is empty. -/
theorem not_plain_head_wildPart {rest : CPathString} (h : wildPart uri = c :: rest) :
    ¬ (c ≠ question ∧ c ≠ star) := by
  have hhead := List.head?_dropWhile_not (fun c => decide (c ≠ question ∧ c ≠ star)) uri
  rw [wildPart] at h
  rw [h] at hhead
  simpa using hhead

/-- A path without wildcards has none behind its first byte. -/
theorem Plain.tail (h : Plain (c :: x)) : Plain x := fun d hd => h d (List.mem_cons_of_mem c hd)

/-! ### Patterns -/

/-- When a pattern that begins with a `?` fits a text, it fits the text with one byte more in front, unless that is a
`/`. -/
theorem Fits.question_cons (hc : c ≠ slash) (h : Fits (question :: uri) text) :
    Fits (question :: uri) (c :: text) := by
  have hne : slash ≠ c := hc.symm
  cases h with
  | textEnds => exact .lastSegment uri (by simpa using hne)
  | segment taken hslash hrest => exact .segment (c :: taken) (by simp [hne, hslash]) hrest
  | lastSegment _ hslash => exact .lastSegment uri (by simp [hne, hslash])
  | byte hquestion _ => exact absurd rfl hquestion

/-- `compare` lets a `?` take the bytes of a path in front of its next `/`. -/
theorem compare_question_segment (htaken : slash ∉ x) (hplain : Plain x) :
    compare (question :: uri) (x ++ slash :: y) = compare uri (slash :: y) := by
  induction x with
  | nil =>
      rw [List.nil_append, compare]
      simp [show question ≠ slash by decide]
  | cons c x ih =>
      have hc : c ≠ slash := fun h => htaken (h ▸ List.mem_cons_self)
      have hne : question ≠ c := (hplain c List.mem_cons_self).1.symm
      rw [List.cons_append, compare, if_pos hne, if_pos rfl, if_pos hc]
      exact ih (fun h => htaken (List.mem_cons_of_mem c h)) hplain.tail

/-- `compare` lets a `?` take all the bytes of a last segment. -/
theorem compare_question_lastSegment (htaken : slash ∉ x) (hplain : Plain x) :
    compare (question :: uri) x = true := by
  induction x with
  | nil => simp
  | cons c x ih =>
      have hc : c ≠ slash := fun h => htaken (h ▸ List.mem_cons_self)
      have hne : question ≠ c := (hplain c List.mem_cons_self).1.symm
      rw [compare, if_pos hne, if_pos rfl, if_pos hc]
      exact ih (fun h => htaken (List.mem_cons_of_mem c h)) hplain.tail

/-- `compare` holds of a request and a path without wildcards exactly when the request, read as a pattern, `Fits` the
path. -/
theorem compare_iff_fits (hplain : Plain text) : compare uri text = true ↔ Fits uri text := by
  constructor
  · intro h
    induction uri, text using compare.induct with
    | case1 text => exact .patternEnds text
    | case2 c uri => exact .textEnds (c :: uri)
    | case3 lit r rit hr hne ih =>
        rw [compare, if_pos hne, if_pos rfl, if_pos hr] at h
        exact (ih hplain.tail h).question_cons hr
    | case4 lit r rit hr hne ih =>
        obtain rfl : r = slash := not_not.mp hr
        rw [compare, if_pos hne, if_pos rfl, if_neg hr] at h
        exact .segment [] (by simp) (ih hplain h)
    -- The path has no wildcard.
    | case5 l lit rit => exact absurd rfl (hplain question List.mem_cons_self).1
    | case6 l lit rit => exact absurd rfl (hplain question List.mem_cons_self).1
    | case7 l lit r rit hne hl hr =>
        rw [compare, if_pos hne, if_neg hl, if_neg hr, decide_eq_true_eq] at h
        obtain rfl : l = star := h.resolve_right (hplain r List.mem_cons_self).2
        exact .anything lit (r :: rit)
    | case8 l lit r rit heq ih =>
        obtain rfl : l = r := not_not.mp heq
        rw [compare_cons_self] at h
        exact .byte (hplain l List.mem_cons_self).1 (ih hplain.tail h)
  · intro h
    induction h with
    | patternEnds text => exact compare_nil
    | textEnds path => exact compare_nil_right
    | anything path text =>
        cases text with
        | nil => exact compare_nil_right
        | cons c rest =>
            obtain ⟨hquestion, hstar⟩ := hplain c List.mem_cons_self
            exact compare_star_left hstar hquestion
    | segment taken hslash _ ih =>
        have htaken : Plain taken := fun c hc => hplain c (List.mem_append_left _ hc)
        rw [compare_question_segment hslash htaken]
        exact ih fun c hc => hplain c (List.mem_append_right taken hc)
    | lastSegment path hslash => exact compare_question_lastSegment hslash hplain
    | byte _ _ ih =>
        rw [compare_cons_self]
        exact ih hplain.tail

/-- `compare` takes a beginning without wildcards literally: a path without wildcards ends within it, or goes on
behind it with what the rest compares equal to. -/
theorem compare_append_iff (hstart : Plain x) (hplain : Plain text) :
    compare (x ++ y) text = true ↔ text <+: x ∨ ∃ rest, text = x ++ rest ∧ compare y rest = true := by
  induction x generalizing text with
  | nil =>
      constructor
      · exact fun h => Or.inr ⟨text, rfl, h⟩
      · rintro (h | ⟨rest, rfl, h⟩)
        · rw [List.prefix_nil.mp h, compare_nil_right]
        · exact h
  | cons c x ih =>
      cases text with
      | nil => simp
      | cons d text =>
          rw [List.cons_append]
          by_cases heq : c = d
          · subst heq
            rw [compare_cons_self, ih hstart.tail hplain.tail]
            simp
          · obtain ⟨hcq, hcs⟩ := hstart c List.mem_cons_self
            obtain ⟨hdq, hds⟩ := hplain d List.mem_cons_self
            have hne : ¬ d = c := fun h => heq h.symm
            rw [compare, if_pos heq, if_neg hcq, if_neg hdq]
            simp [hcs, hds, hne]

end CPathString

namespace RouteList

open CPathString

variable {μ : Type} {routes : RouteList μ} {uri : CPathString} {route : CPathString × μ}

/-- A path without wildcards begins a request exactly when it begins the `plainPart` of the request. -/
theorem isPrefix_iff_plainPart (hroute : Plain route.1) : route.1 <+: uri ↔ route.1 <+: plainPart uri := by
  constructor
  · intro h
    rcases List.prefix_or_prefix_of_prefix h (List.takeWhile_prefix _) with hprefix | ⟨rest, hrest⟩
    · exact hprefix
    · have hrest' : plainPart uri ++ rest <+: plainPart uri ++ wildPart uri := by
        rw [plainPart_append_wildPart]
        exact hrest ▸ h
      obtain ⟨after, hafter⟩ := (List.prefix_append_right_inj _).mp hrest'
      cases rest with
      | nil =>
          rw [← hrest, List.append_nil]
          exact List.prefix_rfl
      | cons c rest =>
          -- The path would go on with the wildcard.
          refine absurd (hroute c ?_) (not_plain_head_wildPart hafter.symm)
          rw [← hrest]
          exact List.mem_append_right _ List.mem_cons_self
  · exact fun h => h.trans (List.takeWhile_prefix _)

/-- Wildcards of a request are wildcards. A route without wildcards is selected for a request if and only if
it has the hash of the request and its path begins the request, or goes on behind the part in front of the
first wildcard with a text that the rest of the request fits. -/
theorem selects_plain_iff (routes : RouteList μ) (uri : CPathString) (route : CPathString × μ)
    (hroute : Plain route.1) :
    routes.Selects uri route ↔
      route ∈ routes ∧ CPathString.hash uri = CPathString.hash route.1 ∧
        (route.1 <+: uri ∨ ∃ rest, route.1 = plainPart uri ++ rest ∧ Fits (wildPart uri) rest) := by
  rw [selects_iff, Matches, isPrefix_iff_plainPart hroute]
  refine and_congr_right fun _ => and_congr_right fun _ => ?_
  conv_lhs => rw [← plainPart_append_wildPart uri]
  rw [compare_append_iff (plain_plainPart uri) hroute]
  refine or_congr_right (exists_congr fun rest => and_congr_right fun heq => ?_)
  refine compare_iff_fits fun c hc => hroute c ?_
  rw [heq]
  exact List.mem_append_right _ hc

/-- A request for every channel of a gate, `/sms-gate/*`, is dispatched to one of them. -/
theorem selects_plain_iff_star :
    RouteList.Selects [(bytes "/sms-gate/abc/", 0)] (bytes "/sms-gate/*") (bytes "/sms-gate/abc/", 0) := by
  refine (selects_plain_iff _ _ _ (by decide +kernel)).mpr ⟨List.mem_cons_self, by decide +kernel, Or.inr ?_⟩
  have hwild : wildPart (bytes "/sms-gate/*") = [star] := by decide +kernel
  rw [hwild]
  exact ⟨bytes "abc/", by decide +kernel, .anything [] (bytes "abc/")⟩

/-- Not every route that is selected for a request with wildcards begins the request: the one selected for
`/sms-gate/*` does not. -/
theorem not_selects_literally_of_star :
    ¬ ∀ (routes : RouteList ℕ) (uri : CPathString) (route : CPathString × ℕ), ¬ Plain uri → Plain route.1 →
      routes.find uri = some route → withoutSlash route.1 <+: uri := by
  intro h
  have hfind : RouteList.find [(bytes "/sms-gate/abc/", 0)] (bytes "/sms-gate/*")
      = some (bytes "/sms-gate/abc/", 0) := by
    decide +kernel
  exact absurd (h _ _ _ (by decide +kernel) (by decide +kernel) hfind) (by decide +kernel)

end RouteList

end NavekFiber
