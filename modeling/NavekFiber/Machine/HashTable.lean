import Mathlib.Data.List.Basic

/-! # Hash tables with a hash and an equality of their own

`std::unordered_map` takes a hash and an equality as parameters and relies on the two fitting together.
`Hashing` is such a pair, `Hashing.Lawful` what the table relies on. The table is the list of its entries;
a lookup meets only the entries with the hash of the key and asks the equality about these.

* `HashTable.find`, `HashTable.emplace`: the operations, for any pair.
* `HashTable.find_ofList`: with a lawful pair, a table filled by `emplace` finds the first entry whose key is
  equal to the one looked up. -/

universe u v

/-- A hash and an equality. -/
structure Hashing (κ : Type u) where
  /-- The hash. -/
  hash : κ → UInt64
  /-- The equality. -/
  equal : κ → κ → Bool

namespace Hashing

variable {κ : Type u}

/-- The equality is an equivalence, and equal keys have one hash. -/
structure Lawful (hashing : Hashing κ) : Prop where
  /-- The equality is an equivalence. -/
  equivalence : Equivalence fun a b => hashing.equal a b = true
  /-- Equal keys have one hash. -/
  hash_eq : ∀ a b, hashing.equal a b = true → hashing.hash a = hashing.hash b

end Hashing

/-- The entries of a table in their order of insertion. -/
abbrev HashTable (κ : Type u) (ν : Type v) := List (κ × ν)

namespace HashTable

variable {κ : Type u} {ν : Type v} {hashing : Hashing κ} {table : HashTable κ ν} {key key' : κ} {value : ν}

/-- `find`: the entry with the hash of the key that is equal to it. -/
def find (hashing : Hashing κ) (table : HashTable κ ν) (key : κ) : Option (κ × ν) :=
  table.find? fun entry => hashing.hash key = hashing.hash entry.1 && hashing.equal key entry.1

/-- `emplace`: an entry whose key is in the table already is dropped. -/
def emplace (hashing : Hashing κ) (table : HashTable κ ν) (key : κ) (value : ν) : HashTable κ ν :=
  if (table.find hashing key).isSome then table else table ++ [(key, value)]

/-- A new table into which entries are put one after the other. -/
def ofList (hashing : Hashing κ) (entries : List (κ × ν)) : HashTable κ ν :=
  entries.foldl (fun table entry => table.emplace hashing entry.1 entry.2) []

/-- With a lawful pair, a lookup asks for the equality alone. -/
theorem find_eq (hlawful : hashing.Lawful) (table : HashTable κ ν) (key : κ) :
    table.find hashing key = table.find? fun entry => hashing.equal key entry.1 := by
  refine congrArg (List.find? · table) (funext fun entry => ?_)
  cases hequal : hashing.equal key entry.1 with
  | false => rw [Bool.and_false]
  | true => simp [hlawful.hash_eq key entry.1 hequal]

/-- A key that is equal to one in the table is found. -/
theorem isSome_find_of_equal (hlawful : hashing.Lawful) (hequal : hashing.equal key' key = true)
    (h : (table.find hashing key).isSome) : (table.find hashing key').isSome := by
  rw [find_eq hlawful, List.find?_isSome] at h ⊢
  obtain ⟨entry, hmem, hentry⟩ := h
  exact ⟨entry, hmem, hlawful.equivalence.trans hequal hentry⟩

/-- After `emplace`, a key finds the entry it found before, and else the new entry when its key is equal. -/
theorem find_emplace (hlawful : hashing.Lawful) (table : HashTable κ ν) (key : κ) (value : ν) (key' : κ) :
    (table.emplace hashing key value).find hashing key' =
      (table.find hashing key').or (if hashing.equal key' key then some (key, value) else none) := by
  rw [emplace]
  split
  · rename_i hsome
    by_cases hequal : hashing.equal key' key = true
    · obtain ⟨entry, hentry⟩ := Option.isSome_iff_exists.mp (isSome_find_of_equal hlawful hequal hsome)
      rw [hentry, Option.some_or]
    · rw [if_neg hequal, Option.or_none]
  · rw [find_eq hlawful, find_eq hlawful, List.find?_append, List.find?_singleton]

/-- After entries have been put one after the other into a table, a key finds what it found before, and else the first
of the entries whose key is equal. -/
theorem find_foldl_emplace (hlawful : hashing.Lawful) (entries : List (κ × ν)) (table : HashTable κ ν)
    (key : κ) :
    (entries.foldl (fun table entry => table.emplace hashing entry.1 entry.2) table).find hashing key =
      (table.find hashing key).or (entries.find? fun entry => hashing.equal key entry.1) := by
  induction entries generalizing table with
  | nil => exact (Option.or_none).symm
  | cons entry entries ih =>
      rw [List.foldl_cons, ih, find_emplace hlawful, Option.or_assoc, List.find?_cons]
      congr 1
      cases hashing.equal key entry.1 <;> rfl

/-- A table filled from a list finds the first entry whose key is equal to the one looked up. -/
theorem find_ofList (hlawful : hashing.Lawful) (entries : List (κ × ν)) (key : κ) :
    (ofList hashing entries).find hashing key =
      entries.find? fun entry => hashing.equal key entry.1 := by
  rw [ofList, find_foldl_emplace hlawful]
  rfl

end HashTable
