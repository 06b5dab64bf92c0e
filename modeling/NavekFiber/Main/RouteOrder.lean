import NavekFiber.Main.PathOverlap
import NavekFiber.Main.RouteTable

/-! # When the order of registration does not matter

`compare` is not transitive and does not imply one hash, so it does not sort the keys of the table into
classes, as `unordered_multimap` needs it. A request is dispatched alike in every order of the routes
exactly when it never fits two of them, which is when different routes have different hashes
(`dispatchedAlike_iff`), apart from paths that begin with a `?` that the hash keeps. -/

namespace NavekFiber

namespace RouteList

open CPathString

variable {μ : Type} {routes order : RouteList μ} {uri : CPathString} {route : CPathString × μ}

/-- Every request is dispatched to one channel, or to none, in whatever order the routes are found. -/
def DispatchedAlike (routes : RouteList μ) : Prop :=
  ∀ (uri : CPathString) (order order' : RouteList μ), order.Perm routes → order'.Perm routes →
    order.find uri = order'.find uri

/-- A route that is the only one to match a request is found by `Routes.find` in every order of the routes. -/
theorem find_eq_some_of_unique (hperm : order.Perm routes) (hmem : route ∈ routes)
    (hmatches : Matches uri route)
    (hunique : ∀ other ∈ routes, Matches uri other → other = route) : order.find uri = some route := by
  have hsome : (order.find uri).isSome := isSome_find.mpr ⟨route, hperm.mem_iff.mpr hmem, hmatches⟩
  obtain ⟨found, hfound⟩ := Option.isSome_iff_exists.mp hsome
  obtain ⟨hin, hfits⟩ := selects_iff.mp ⟨order, hperm, hfound⟩
  rw [hfound, hunique found hin hfits]

/-- The routes are `DispatchedAlike` exactly when no request matches two of them. -/
theorem dispatchedAlike_iff_unique :
    routes.DispatchedAlike ↔ ∀ (uri : CPathString), ∀ a ∈ routes, ∀ b ∈ routes,
      Matches uri a → Matches uri b → a = b := by
  constructor
  · intro halike uri a ha b hb hmatchesA hmatchesB
    -- Each of two matching routes comes first in some order.
    obtain ⟨order, hperm, hfind⟩ := selects_iff.mpr ⟨ha, hmatchesA⟩
    obtain ⟨order', hperm', hfind'⟩ := selects_iff.mpr ⟨hb, hmatchesB⟩
    have heq := halike uri order order' hperm hperm'
    rw [hfind, hfind'] at heq
    exact Option.some.inj heq
  · intro hunique uri order order' hperm hperm'
    by_cases hsome : ∃ route ∈ routes, Matches uri route
    · obtain ⟨route, hmem, hmatches⟩ := hsome
      have hone : ∀ other ∈ routes, Matches uri other → other = route := fun other hother hfits =>
        hunique uri other hother route hmem hfits hmatches
      rw [find_eq_some_of_unique hperm hmem hmatches hone,
        find_eq_some_of_unique hperm' hmem hmatches hone]
    · have hnone : ∀ o : RouteList μ, o.Perm routes → o.find uri = none := by
        intro o ho
        rw [← Option.not_isSome_iff_eq_none, isSome_find]
        rintro ⟨route, hmem, hmatches⟩
        exact hsome ⟨route, ho.mem_iff.mp hmem, hmatches⟩
      rw [hnone order hperm, hnone order' hperm']

/-- Every request is dispatched alike in every order of the routes if and only if different routes have
different hashes; a route that begins with a `?` that the hash keeps may share its hash with another one
that the hash has read differently, if none of the requests of up to nine bytes fits both. -/
theorem dispatchedAlike_iff (routes : RouteList μ) :
    routes.DispatchedAlike ↔ ∀ a ∈ routes, ∀ b ∈ routes, a ≠ b →
      CPathString.hash a.1 ≠ CPathString.hash b.1 ∨
        Questioned a.1 b.1 ∧
          ∀ uri : CPathString, uri.length ≤ 9 → ¬ (Matches uri a ∧ Matches uri b) := by
  rw [dispatchedAlike_iff_unique]
  constructor
  · intro hunique a ha b hb hne
    have hnone : ¬ Overlap a.1 b.1 := by
      rintro ⟨uri, hmatchesA, hmatchesB⟩
      exact hne (hunique uri a ha b hb hmatchesA hmatchesB)
    by_cases hhash : CPathString.hash a.1 = CPathString.hash b.1
    · refine Or.inr ⟨?_, fun uri _ hboth => hnone ⟨uri, hboth.1, hboth.2⟩⟩
      -- One hash and no `?` to keep them apart: some request fits both.
      by_contra hnot
      exact hnone (overlap_of_keptBytes_eq (hash_eq_iff.mp hhash) hnot)
    · exact Or.inl hhash
  · intro hcond uri a ha b hb hmatchesA hmatchesB
    by_contra hne
    rcases hcond a ha b hb hne with hhash | ⟨-, hshort⟩
    · exact hhash (hmatchesA.1.symm.trans hmatchesB.1)
    -- What the hash reads of a request for both is a request for both.
    · obtain ⟨uri', hlength, hboth⟩ := overlap_iff_short.mp ⟨uri, hmatchesA, hmatchesB⟩
      exact hshort uri' hlength hboth

/-- Two channels below one first segment are not `DispatchedAlike`: a request for that segment goes to the one found
first. -/
theorem not_dispatchedAlike_of_one_segment :
    ¬ ∀ routes : RouteList ℕ, (routes.map Prod.fst).Nodup →
      (∀ route ∈ routes, route.1.getLast? = some slash) → routes.DispatchedAlike := by
  intro hclaim
  have halike := hclaim [(bytes "/sms-gate/a/", 0), (bytes "/sms-gate/b/", 1)] (by decide) (by decide)
    (bytes "/sms-gate/") [(bytes "/sms-gate/a/", 0), (bytes "/sms-gate/b/", 1)]
    [(bytes "/sms-gate/b/", 1), (bytes "/sms-gate/a/", 0)] (List.Perm.refl _) (List.Perm.swap _ _ _)
  exact absurd halike (by decide +kernel)

end RouteList

end NavekFiber
