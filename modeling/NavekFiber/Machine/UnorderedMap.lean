import Mathlib.Data.List.AList

/-! # `std::unordered_map` as an association list

`UnorderedMap κ ν` is Mathlib's `AList`: a list of entries that carries the proof that its keys are
pairwise distinct, so a map with a repeated key cannot be built. The operations follow the standard
library: `emplace` refuses a key that is present, `atKey` has no value where `at` throws
`std::out_of_range`, `erase` of an absent key does nothing. Iteration order is not modelled. -/

universe u v

/-- A hash map with unique keys. -/
abbrev UnorderedMap (κ : Type u) (ν : Type v) := AList fun _ : κ => ν

namespace UnorderedMap

variable {κ : Type u} {ν : Type v} [DecidableEq κ]

/-- `emplace(k, v)`: the map afterwards, and whether the entry was inserted (`.second`). -/
def emplace (m : UnorderedMap κ ν) (k : κ) (v : ν) : UnorderedMap κ ν × Bool :=
  if k ∈ m then (m, false) else (m.insert k v, true)

/-- `at(k)`; `none` where the source throws `std::out_of_range`. -/
def atKey (m : UnorderedMap κ ν) (k : κ) : Option ν := m.lookup k

/-- `find(k)`; `none` for `end()`. -/
def find (m : UnorderedMap κ ν) (k : κ) : Option ν := m.lookup k

/-- Change the value that an iterator to the key points to. -/
def modify (m : UnorderedMap κ ν) (k : κ) (f : ν → ν) : UnorderedMap κ ν :=
  match m.find k with
  | some v => m.insert k (f v)
  | none => m

/-- `size()`. -/
def size (m : UnorderedMap κ ν) : ℕ := m.keys.length

/-- The entries, as an iteration meets them in some order. -/
def pairs (m : UnorderedMap κ ν) : List (κ × ν) := m.entries.map fun entry => (entry.1, entry.2)

variable {m : UnorderedMap κ ν} {k : κ} {v : ν}

/-- An iteration meets an entry exactly when `find` finds its value under its key. -/
theorem mem_pairs : (k, v) ∈ m.pairs ↔ m.find k = some v := by
  rw [find, ← Option.mem_def, AList.mem_lookup_iff, pairs, List.mem_map]
  constructor
  · rintro ⟨entry, hmem, hentry⟩
    obtain ⟨rfl, rfl⟩ := Prod.mk.inj hentry
    exact hmem
  · intro h
    exact ⟨⟨k, v⟩, h, rfl⟩

/-- An absent key is inserted. -/
theorem emplace_of_notMem (h : k ∉ m) : m.emplace k v = (m.insert k v, true) := if_neg h

/-- A present key is refused and the map is left alone. -/
theorem emplace_of_mem (h : k ∈ m) : m.emplace k v = (m, false) := if_pos h

/-- `at` has a value exactly for the keys of the map. -/
theorem isSome_atKey : (m.atKey k).isSome ↔ k ∈ m := AList.lookup_isSome

/-- A value that `find` returns belongs to a key of the map. -/
theorem mem_of_find_eq_some (h : m.find k = some v) : k ∈ m :=
  AList.lookup_isSome.mp (Option.isSome_iff_exists.mpr ⟨v, h⟩)

/-- After `erase` the other keys keep their values. -/
theorem find_erase_eq_some {k' : κ} :
    find (m.erase k) k' = some v ↔ k' ≠ k ∧ m.find k' = some v := by
  by_cases hk : k' = k
  · subst hk
    simp [find]
  · simp [find, AList.lookup_erase_ne hk, hk]

/-- A value stored before `emplace` is still stored after it. -/
theorem find_emplace_of_find {k' : κ} {v' : ν} (h : m.find k' = some v') :
    find (m.emplace k v).1 k' = some v' := by
  by_cases hk : k ∈ m
  · rwa [emplace_of_mem hk]
  · have hne : k' ≠ k := fun heq => hk (heq ▸ mem_of_find_eq_some h)
    rw [emplace_of_notMem hk]
    exact (AList.lookup_insert_ne hne).trans h

/-- A value stored after `emplace` is the new one under the new key, or was stored before. -/
theorem find_of_find_emplace {k' : κ} {v' : ν} (h : find (m.emplace k v).1 k' = some v') :
    (k' = k ∧ v' = v) ∨ m.find k' = some v' := by
  by_cases hk : k ∈ m
  · rw [emplace_of_mem hk] at h
    exact Or.inr h
  · rw [emplace_of_notMem hk] at h
    by_cases hne : k' = k
    · subst hne
      have hval : (m.insert k' v).lookup k' = some v' := h
      rw [AList.lookup_insert] at hval
      exact Or.inl ⟨rfl, (Option.some.inj hval).symm⟩
    · exact Or.inr ((AList.lookup_insert_ne hne).symm.trans h)

/-- After `emplace`, the key has the value it had before, or else the new one, and the other keys keep theirs. -/
theorem find_emplace {k' : κ} :
    find (m.emplace k v).1 k' = if k' = k then some ((m.find k).getD v) else m.find k' := by
  by_cases hk : k ∈ m
  · rw [emplace_of_mem hk]
    obtain ⟨old, hold⟩ := Option.isSome_iff_exists.mp (AList.lookup_isSome.mpr hk)
    split
    · rename_i heq
      rw [heq]
      simp [find, hold]
    · rfl
  · rw [emplace_of_notMem hk]
    split
    · rename_i heq
      rw [heq]
      simp [find, AList.lookup_eq_none.mpr hk]
    · rename_i hne
      exact AList.lookup_insert_ne hne

/-- After a value has been changed in place, its key has the changed value, and the other keys keep theirs. -/
theorem find_modify {f : ν → ν} {k' : κ} :
    find (m.modify k f) k' = if k' = k then (m.find k).map f else m.find k' := by
  unfold modify
  split
  · rename_i old hold
    split
    · rename_i heq
      rw [heq, hold]
      exact AList.lookup_insert m
    · rename_i hne
      exact AList.lookup_insert_ne hne
  · rename_i hnone
    split
    · rename_i heq
      rw [heq, hnone]
      rfl
    · rfl

/-- After entries have been put in one after the other, a key has the value it had before, or else that of the first
entry with this key. -/
theorem find_foldl_emplace (entries : List (κ × ν)) (m : UnorderedMap κ ν) (k : κ) :
    find (entries.foldl (fun m entry => (m.emplace entry.1 entry.2).1) m) k =
      (m.find k).or ((entries.find? fun entry => entry.1 = k).map Prod.snd) := by
  induction entries generalizing m with
  | nil => exact Option.or_none.symm
  | cons entry entries ih =>
      rw [List.foldl_cons, ih, find_emplace, List.find?_cons]
      by_cases hk : k = entry.1
      · subst hk
        cases find m entry.1 <;> simp
      · simp [hk, Ne.symm hk]

end UnorderedMap
