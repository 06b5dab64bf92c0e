import NavekFiber.Main.PathString
import Mathlib.Data.List.Perm.Basic

/-! # The route table of `RouterImpl`

`Routes` is an `unordered_multimap` whose keys are hashed with `cpathstring::hash` and compared with
`cpathstring::compare`. A lookup therefore meets only the routes with the hash of the request path,
and two paths that compare equal need not have one hash.

* `find_iff_scan_iff`: when the lookup and a scan of all routes agree.
* `selects_prefix_iff`: when every route the lookup can select is named in full by the request. -/

namespace NavekFiber

/-- The entries of `Routes` in their order of iteration, which the hash table chooses. -/
abbrev RouteList (μ : Type) := List (CPathString × μ)

namespace RouteList

open CPathString

variable {μ : Type} {routes : RouteList μ} {uri : CPathString} {route : CPathString × μ}

/-- The table's test of an entry: the stored hash first, the key only if the hash is the same. -/
def Matches (uri : CPathString) (route : CPathString × μ) : Prop :=
  CPathString.hash uri = CPathString.hash route.1 ∧ CPathString.compare uri route.1 = true

instance : Decidable (Matches uri route) := inferInstanceAs (Decidable (_ ∧ _))

/-- `Routes.find`: the first matching entry; `none` for `end()`. -/
def find (routes : RouteList μ) (uri : CPathString) : Option (CPathString × μ) :=
  routes.find? fun route => decide (Matches uri route)

/-- A scan of all routes with `compare` alone. -/
def scan (routes : RouteList μ) (uri : CPathString) : Option (CPathString × μ) :=
  routes.find? fun route => CPathString.compare uri route.1

/-- The lookup selects the route in some order of iteration. -/
def Selects (routes : RouteList μ) (uri : CPathString) (route : CPathString × μ) : Prop :=
  ∃ order : RouteList μ, order.Perm routes ∧ order.find uri = some route

/-- `Routes.find` finds something exactly when some route matches. -/
theorem isSome_find : (routes.find uri).isSome ↔ ∃ route ∈ routes, Matches uri route := by
  simp [find]

/-- `scan` finds something exactly when `compare` holds of the request and some route. -/
theorem isSome_scan :
    (routes.scan uri).isSome ↔ ∃ route ∈ routes, CPathString.compare uri route.1 = true := by
  simp [scan]

/-- The lookup can select exactly the routes that match the request. -/
theorem selects_iff : routes.Selects uri route ↔ route ∈ routes ∧ Matches uri route := by
  constructor
  · rintro ⟨order, hperm, hfind⟩
    refine ⟨hperm.mem_iff.mp (List.mem_of_find?_eq_some hfind), ?_⟩
    simpa using List.find?_some hfind
  · rintro ⟨hmem, hmatches⟩
    obtain ⟨before, after, rfl⟩ := List.append_of_mem hmem
    refine ⟨route :: (before ++ after), List.perm_middle.symm, ?_⟩
    rw [find, List.find?_cons_of_pos (by simpa using hmatches)]

/-- `Routes.find` finds a route whenever `scan` does exactly when, if `compare` holds of any route, it holds of one
that agrees with the request in the bytes that the hash keeps. -/
theorem find_iff_scan_iff (routes : RouteList μ) (uri : CPathString) :
    ((routes.find uri).isSome ↔ (routes.scan uri).isSome) ↔
      ((∃ route ∈ routes, CPathString.compare uri route.1 = true) →
        ∃ route ∈ routes, CPathString.compare uri route.1 = true ∧
          keptBytes uri = keptBytes route.1) := by
  have hsome : (routes.find uri).isSome ↔
      ∃ route ∈ routes, CPathString.compare uri route.1 = true ∧
        keptBytes uri = keptBytes route.1 := by
    rw [isSome_find]
    refine exists_congr fun route => and_congr_right fun _ => ?_
    rw [Matches, hash_eq_iff, and_comm]
  rw [hsome, isSome_scan]
  constructor
  · intro h
    exact h.mpr
  · intro h
    refine ⟨?_, h⟩
    rintro ⟨route, hmem, hcompare, -⟩
    exact ⟨route, hmem, hcompare⟩

/-- A route with a wildcard first segment is hashed by the wildcard itself, and the root route by
nothing: requests that they compare equal to are not found. -/
theorem not_find_of_wildcard :
    ¬ ((∀ (routes : RouteList Unit) (uri : CPathString),
        (routes.find uri).isSome ↔ (routes.scan uri).isSome) ∧
      ∀ a b : CPathString, CPathString.compare a b = true → CPathString.hash a = CPathString.hash b) := by
  rintro ⟨hfind, -⟩
  have hscan : RouteList.scan [(bytes "/*/", ())] (bytes "/abc/") = some (bytes "/*/", ()) := by
    decide +kernel
  have hnone : RouteList.find [(bytes "/*/", ())] (bytes "/abc/") = none := by
    decide +kernel
  have h := hfind [(bytes "/*/", ())] (bytes "/abc/")
  rw [hscan, hnone] at h
  simp at h

/-! ### Routes that a request names only in part -/

/-- A channel path without its trailing `/`. -/
def withoutSlash (path : CPathString) : CPathString :=
  if path.getLast? = some slash then path.dropLast else path

/-- A path that goes on after the request is named by it in full only if it goes on with a single
`/`. -/
theorem withoutSlash_append_prefix_iff (uri rest : CPathString) :
    withoutSlash (uri ++ rest) <+: uri ↔ rest = [] ∨ rest = [slash] := by
  rcases List.eq_nil_or_concat' rest with rfl | ⟨front, last, rfl⟩
  · have hprefix : withoutSlash uri <+: uri := by
      unfold withoutSlash
      split
      · exact List.dropLast_prefix uri
      · exact List.prefix_rfl
    simpa using hprefix
  · rw [withoutSlash, ← List.append_assoc, List.getLast?_concat, List.dropLast_concat]
    constructor
    · intro h
      have hlen := h.length_le
      split at hlen
      · rename_i hlast
        have hfront : front = [] := by
          rw [List.length_append] at hlen
          exact List.eq_nil_of_length_eq_zero (by omega)
        rw [hfront, Option.some.inj hlast]
        exact Or.inr rfl
      · rw [List.length_append, List.length_append, List.length_singleton] at hlen
        omega
    · rintro (h | h)
      · exact absurd h (by simp)
      · have hsplit : front ++ [last] = [] ++ [slash] := h
        obtain ⟨rfl, hlast⟩ := List.append_inj' hsplit rfl
        obtain rfl : last = slash := List.head_eq_of_cons_eq hlast
        simp

/-- Without wildcards, every route that the lookup can select is named in full by the request exactly
when no route with the request's hash goes on after it with more than a single `/`. -/
theorem selects_prefix_iff (routes : RouteList μ) (uri : CPathString)
    (hroutes : ∀ route ∈ routes, Plain route.1) (huri : Plain uri) :
    (∀ route, routes.Selects uri route → withoutSlash route.1 <+: uri) ↔
      ∀ route ∈ routes, CPathString.hash uri = CPathString.hash route.1 → uri <+: route.1 →
        route.1 = uri ∨ route.1 = uri ++ [slash] := by
  constructor
  · rintro h route hmem hhash ⟨rest, hrest⟩
    have hcompare : CPathString.compare uri route.1 = true :=
      (compare_iff_isPrefix huri (hroutes route hmem)).mpr (Or.inl ⟨rest, hrest⟩)
    have hprefix := h route (selects_iff.mpr ⟨hmem, hhash, hcompare⟩)
    rw [← hrest] at hprefix ⊢
    rcases (withoutSlash_append_prefix_iff uri rest).mp hprefix with rfl | rfl
    · exact Or.inl (List.append_nil uri)
    · exact Or.inr rfl
  · intro h route hselects
    obtain ⟨hmem, hhash, hcompare⟩ := selects_iff.mp hselects
    rcases (compare_iff_isPrefix huri (hroutes route hmem)).mp hcompare with hprefix | hprefix
    · rcases h route hmem hhash hprefix with heq | heq
      · rw [heq]
        simpa using (withoutSlash_append_prefix_iff uri []).mpr (Or.inl rfl)
      · rw [heq]
        exact (withoutSlash_append_prefix_iff uri [slash]).mpr (Or.inr rfl)
    · refine List.IsPrefix.trans ?_ hprefix
      simpa using (withoutSlash_append_prefix_iff route.1 []).mpr (Or.inl rfl)

/-- A request below the endpoint of one channel, with another channel next to it, is dispatched to the channel that it
names. -/
theorem selects_prefix_iff_below :
    RouteList.Selects [(bytes "/sms-gate/", 0), (bytes "/sms-mail/", 1)] (bytes "/sms-gate/send")
        (bytes "/sms-gate/", 0) ∧
      withoutSlash (bytes "/sms-gate/") <+: bytes "/sms-gate/send" := by
  have hall := (selects_prefix_iff [(bytes "/sms-gate/", 0), (bytes "/sms-mail/", 1)]
    (bytes "/sms-gate/send") (by decide +kernel) (by decide +kernel)).mpr (by decide +kernel)
  have hselects : RouteList.Selects [(bytes "/sms-gate/", 0), (bytes "/sms-mail/", 1)]
      (bytes "/sms-gate/send") (bytes "/sms-gate/", 0) :=
    selects_iff.mpr ⟨List.mem_cons_self, by decide +kernel, by decide +kernel⟩
  exact ⟨hselects, hall _ hselects⟩

/-- A request for `/sms-gate/` is dispatched to a channel at `/sms-gate/abc/`. -/
theorem not_selects_prefix_of_longer_route :
    ¬ ∀ (routes : RouteList ℕ) (uri : CPathString),
      (∀ route ∈ routes, Plain route.1) → Plain uri →
        ∀ route, routes.find uri = some route → withoutSlash route.1 <+: uri := by
  intro h
  have hfind : RouteList.find [(bytes "/sms-gate/abc/", 0)] (bytes "/sms-gate/")
      = some (bytes "/sms-gate/abc/", 0) := by
    decide +kernel
  exact absurd (h _ _ (by decide +kernel) (by decide +kernel) _ hfind) (by decide +kernel)

end RouteList

end NavekFiber
