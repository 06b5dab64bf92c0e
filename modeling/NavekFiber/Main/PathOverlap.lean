import Mathlib.Data.List.TakeWhile
import NavekFiber.Main.PathString

/-! # When one request fits two paths

The hash keeps seven bytes of the first segment, and `compare` is content with the shorter path. So two
paths with one hash usually have a request in common that has their hash and compares equal to both
(`overlap_of_keptBytes_eq`): what the hash has seen of them, or these seven bytes behind a wildcard. The
exception is a `?` at the start of a path that is among the kept bytes (`Questioned`): there it depends
on how the wildcards meet. -/

namespace NavekFiber

namespace CPathString

variable {path a b uri x y : CPathString} {kept start cs : List UInt8} {c : UInt8} {n : ℕ}

/-! ### What the hash has seen of a path -/

/-- The leading `/` of a path, if there is one. -/
def lead (path : CPathString) : CPathString := if path.head? = some slash then [slash] else []

/-- What the hash has read: the leading `/` and at most eight bytes of the first segment. -/
def hashedHead (path : CPathString) : CPathString := lead path ++ (firstSegment path).take 8

/-- A path is its `lead` and what `dropSlash` leaves. -/
theorem lead_append_dropSlash (path : CPathString) : lead path ++ dropSlash path = path := by
  cases path with
  | nil => rfl
  | cons c rest =>
      by_cases hc : c = slash
      · simp [lead, dropSlash, hc]
      · simp [lead, dropSlash, hc]

/-- The first segment of a path has no `/`. -/
theorem slash_notMem_firstSegment (path : CPathString) : slash ∉ firstSegment path := by
  intro hmem
  have := List.mem_takeWhile_imp hmem
  simp at this

/-- A path of one segment, with or without the leading `/`, is its own first segment. -/
theorem firstSegment_of_notMem (hx : slash ∉ x) : firstSegment (lead path ++ x) = x := by
  have htake : x.takeWhile (· ≠ slash) = x := by
    rw [List.takeWhile_eq_self_iff]
    intro b hb
    have hne : b ≠ slash := fun h => hx (h ▸ hb)
    simpa using hne
  have hdrop : dropSlash (lead path ++ x) = x := by
    unfold lead
    split
    · simp [dropSlash]
    · cases x with
      | nil => rfl
      | cons c rest =>
          have hc : c ≠ slash := fun h => hx (h ▸ List.mem_cons_self)
          simp [dropSlash, hc]
  rw [firstSegment, hdrop, htake]

/-- The `hashedHead` of a path is where the path begins. -/
theorem hashedHead_isPrefix (path : CPathString) : hashedHead path <+: path := by
  conv_rhs => rw [← lead_append_dropSlash path]
  exact (List.prefix_append_right_inj _).mpr
    ((List.take_prefix 8 _).trans (List.takeWhile_prefix _))

/-- The bytes that the hash keeps of a path are those it keeps of its `hashedHead`. -/
theorem keptBytes_hashedHead (path : CPathString) : keptBytes (hashedHead path) = keptBytes path := by
  have hnot : slash ∉ (firstSegment path).take 8 := fun h =>
    slash_notMem_firstSegment path (List.mem_of_mem_take h)
  rw [keptBytes, hashedHead, firstSegment_of_notMem hnot, List.take_take, Nat.min_self, keptBytes]

/-- The `hashedHead` of a path has at most nine bytes. -/
theorem length_hashedHead_le (path : CPathString) : (hashedHead path).length ≤ 9 := by
  have hlead : (lead path).length ≤ 1 := by
    unfold lead
    split <;> simp
  rw [hashedHead, List.length_append, List.length_take]
  omega

/-! ### Entering the kept bytes again -/

/-- Bytes as the hash keeps them, newest first: behind one above the ASCII range all are `0xff`. -/
def Kept : List UInt8 → Prop
  | [] => True
  | c :: older => (c < 0x80 ∨ older = List.replicate older.length 0xff) ∧ Kept older

/-- Bytes that are all `0xff` are `Kept`. -/
theorem kept_replicate_ones (n : ℕ) : Kept (List.replicate n 0xff) := by
  induction n with
  | zero => trivial
  | succ n ih => exact ⟨Or.inr (by simp), ih⟩

/-- The newest of some `Kept` bytes are `Kept`. -/
theorem Kept.take (h : Kept kept) (n : ℕ) : Kept (kept.take n) := by
  induction kept generalizing n with
  | nil => simpa using h
  | cons c older ih =>
      cases n with
      | zero => trivial
      | succ n =>
          -- What was filled with sign bytes is filled with them after cutting, too.
          refine ⟨h.1.imp_right fun hones => ?_, ih h.2 n⟩
          rw [List.length_take]
          conv_lhs => rw [hones]
          rw [List.take_replicate]

/-- Entering a byte with `keepByte` leaves `Kept` bytes. -/
theorem Kept.keepByte (h : Kept kept) (c : UInt8) : Kept (keepByte kept c) := by
  unfold CPathString.keepByte
  split
  · rename_i hc
    exact ⟨Or.inl hc, h.take 6⟩
  · exact ⟨Or.inr (by simp), kept_replicate_ones 6⟩

/-- Entering bytes one after the other leaves `Kept` bytes. -/
theorem Kept.foldl (h : Kept kept) (cs : List UInt8) : Kept (cs.foldl CPathString.keepByte kept) := by
  induction cs generalizing kept with
  | nil => exact h
  | cons c cs ih => exact ih (h.keepByte c)

/-- The `keptBytes` of every path are `Kept`. -/
theorem kept_keptBytes (path : CPathString) : Kept (keptBytes path) := by
  have hzeros : Kept (List.replicate 7 0) := by
    simp [Kept, List.replicate]
  exact hzeros.foldl _

/-- When `Kept` bytes are entered once more, they are kept again, whatever was kept before. -/
theorem take_foldl_keepByte (h : Kept kept) (hlength : kept.length ≤ 7) (hstart : start.length = 7) :
    (kept.reverse.foldl keepByte start).take kept.length = kept ∧
      (kept.reverse.foldl keepByte start).length = 7 := by
  induction kept with
  | nil => exact ⟨rfl, hstart⟩
  | cons c older ih =>
      have holder : older.length ≤ 6 := Nat.le_of_succ_le_succ hlength
      obtain ⟨htake, hlen⟩ := ih h.2 (by omega)
      rw [List.reverse_cons, List.foldl_append, List.foldl_cons, List.foldl_nil, List.length_cons]
      refine ⟨?_, length_keepByte c hlen⟩
      -- A byte above the ASCII range overwrites the older ones, which were sign bytes before.
      by_cases hc : c < 0x80
      · rw [keepByte, if_pos hc, List.take_succ_cons, List.take_take, Nat.min_eq_left holder, htake]
      · rw [keepByte, if_neg hc, List.take_succ_cons, List.take_replicate, Nat.min_eq_left holder,
          ← h.1.resolve_left hc]

/-- The hash keeps no `/` of a path. -/
theorem slash_notMem_keptBytes (path : CPathString) : slash ∉ keptBytes path := by
  have hfold : ∀ cs kept : List UInt8, slash ∉ cs → slash ∉ kept → slash ∉ cs.foldl keepByte kept := by
    intro cs
    induction cs with
    | nil => exact fun _ _ hkept => hkept
    | cons c cs ih =>
        intro kept hcs hkept
        refine ih _ (fun h => hcs (List.mem_cons_of_mem _ h)) ?_
        have hc : slash ≠ c := fun h => hcs (h ▸ List.mem_cons_self)
        unfold keepByte
        split
        · intro h
          rcases List.mem_cons.mp h with h | h
          · exact hc h
          · exact hkept (List.mem_of_mem_take h)
        · intro h
          rcases List.mem_cons.mp h with h | h
          · exact hc h
          · exact absurd (List.eq_of_mem_replicate h) (by decide)
  refine hfold _ _ (fun h => slash_notMem_firstSegment path (List.mem_of_mem_take h)) (by decide)

/-- A request of any byte and, behind it, the `keptBytes` of a path has the same `keptBytes`, with or without a
leading `/`. -/
theorem keptBytes_cons_reverse (path a : CPathString) (hc : c ≠ slash) :
    keptBytes (lead path ++ c :: (keptBytes a).reverse) = keptBytes a := by
  have hlength : (keptBytes a).length = 7 := (toNat_hash a).2
  have hnot : slash ∉ c :: (keptBytes a).reverse := by
    intro h
    rcases List.mem_cons.mp h with h | h
    · exact hc h.symm
    · exact slash_notMem_keptBytes a (List.mem_reverse.mp h)
  -- Eight bytes: all are read, and the first one is shifted out again.
  have hall : (c :: (keptBytes a).reverse).take 8 = c :: (keptBytes a).reverse :=
    List.take_of_length_le (by simp [hlength])
  rw [keptBytes, firstSegment_of_notMem hnot, hall, List.foldl_cons]
  have hstart : (keepByte (List.replicate 7 0) c).length = 7 := length_keepByte c rfl
  obtain ⟨htake, hlen⟩ := take_foldl_keepByte (kept_keptBytes a) hlength.le hstart
  rwa [hlength, List.take_of_length_le hlen.le] at htake

/-! ### Comparisons that succeed -/

/-- `compare` holds of the empty path and any other. -/
@[simp] theorem compare_nil : compare [] x = true := by simp [compare]

/-- `compare` holds of any path and the empty one. -/
@[simp] theorem compare_nil_right : compare x [] = true := by
  cases x <;> simp [compare]

/-- `compare` passes over a byte that both paths begin with. -/
@[simp] theorem compare_cons_self : compare (c :: x) (c :: y) = compare x y := by
  conv_lhs => rw [compare]
  simp

/-- `compare` passes over the common beginning of two paths. -/
theorem compare_append_append (start x y : CPathString) :
    compare (start ++ x) (start ++ y) = compare x y := by
  induction start with
  | nil => rfl
  | cons c start ih => rw [List.cons_append, List.cons_append, compare_cons_self, ih]

/-- `compare` holds of a path and every path that begins with it. -/
theorem compare_of_isPrefix (h : x <+: y) : compare x y = true := by
  obtain ⟨rest, rfl⟩ := h
  have hnil := compare_append_append x [] rest
  rw [List.append_nil] at hnil
  rw [hnil, compare_nil]

/-- `compare` ends with `true` where the first path has a `*` and the second an ordinary byte. -/
theorem compare_star_left (hstar : c ≠ star) (hquestion : c ≠ question) :
    compare (star :: x) (c :: y) = true := by
  rw [compare]
  simp [hstar.symm, hquestion, show star ≠ question by decide]

/-- `compare` ends with `true` where the first path has an ordinary byte and the second a `*`. -/
theorem compare_star_right (hstar : c ≠ star) (hquestion : c ≠ question) :
    compare (c :: x) (star :: y) = true := by
  rw [compare]
  simp [hstar, hquestion, show star ≠ question by decide]

/-- `compare` holds of bytes within one segment, without a `?`, and a path that begins with a `?`. -/
theorem compare_question_right (hquestion : question ∉ x) (hslash : slash ∉ x) :
    compare x (question :: y) = true := by
  induction x with
  | nil => simp
  | cons c x ih =>
      have hc : c ≠ question := fun h => hquestion (h ▸ List.mem_cons_self)
      have hc' : c ≠ slash := fun h => hslash (h ▸ List.mem_cons_self)
      rw [compare, if_pos hc, if_neg hc, if_pos rfl, if_pos hc']
      exact ih (fun h => hquestion (List.mem_cons_of_mem _ h)) fun h => hslash (List.mem_cons_of_mem _ h)

/-- When `compare` holds of a request and a path, it holds of every beginning of the request and the path. -/
theorem compare_of_append {rest : CPathString} (h : compare (x ++ rest) y = true) :
    compare x y = true := by
  induction x, y using compare.induct with
  | case1 y => simp
  | case2 l lit => simp
  | case3 r rit lit hne hr ih =>
      -- A `?` of the request takes a byte of the path.
      rw [List.cons_append, compare, if_pos hne, if_pos rfl, if_pos hr] at h
      rw [compare, if_pos hne, if_pos rfl, if_pos hr]
      exact ih h
  | case4 lit r rit hr hne ih =>
      rw [List.cons_append, compare, if_pos hne, if_pos rfl, if_neg hr] at h
      rw [compare, if_pos hne, if_pos rfl, if_neg hr]
      exact ih h
  | case5 l lit rit hl hslash hne ih =>
      -- A `?` of the path takes a byte of the request.
      rw [List.cons_append, compare, if_pos hne, if_neg hl, if_pos rfl, if_pos hslash] at h
      rw [compare, if_pos hne, if_neg hl, if_pos rfl, if_pos hslash]
      exact ih h
  | case6 l lit rit hl hslash hne ih =>
      rw [List.cons_append, compare, if_pos hne, if_neg hl, if_pos rfl, if_neg hslash] at h
      rw [compare, if_pos hne, if_neg hl, if_pos rfl, if_neg hslash]
      exact ih h
  | case7 l lit r rit hne hl hr =>
      -- What ends the comparison does not depend on what follows.
      rw [List.cons_append, compare, if_pos hne, if_neg hl, if_neg hr] at h
      rwa [compare, if_pos hne, if_neg hl, if_neg hr]
  | case8 l lit r rit heq ih =>
      rw [List.cons_append, compare, if_neg heq] at h
      rw [compare, if_neg heq]
      exact ih h

/-! ### A request for two paths -/

/-- Some request has the hash of both paths and compares equal to both. -/
def Overlap (a b : CPathString) : Prop :=
  ∃ uri, (hash uri = hash a ∧ compare uri a = true) ∧ hash uri = hash b ∧ compare uri b = true

/-- One of the paths begins with a `?`, behind its leading `/`, one is among the bytes that the hash
keeps, and the hash has not read the same of both paths. -/
def Questioned (a b : CPathString) : Prop :=
  ((dropSlash a).head? = some question ∨ (dropSlash b).head? = some question) ∧
    question ∈ keptBytes a ∧ hashedHead a ≠ hashedHead b

/-- Two paths overlap in either order. -/
theorem Overlap.symm (h : Overlap a b) : Overlap b a := by
  obtain ⟨uri, ha, hb⟩ := h
  exact ⟨uri, hb, ha⟩

/-- Two paths with one hash overlap when a request that makes the hash keep the same bytes compares equal to both. -/
theorem Overlap.intro (hab : keptBytes a = keptBytes b) (huri : keptBytes uri = keptBytes a)
    (ha : compare uri a = true) (hb : compare uri b = true) : Overlap a b :=
  ⟨uri, ⟨hash_eq_iff.mpr huri, ha⟩, hash_eq_iff.mpr (huri.trans hab), hb⟩

/-- Two paths with one hash overlap when the second compares equal to the `hashedHead` of the first. -/
theorem Overlap.of_head (hab : keptBytes a = keptBytes b) (hb : compare (hashedHead a) b = true) :
    Overlap a b :=
  Overlap.intro hab (keptBytes_hashedHead a) (compare_of_isPrefix (hashedHead_isPrefix a)) hb

/-- Two paths overlap exactly when a request of at most nine bytes shows it. -/
theorem overlap_iff_short :
    Overlap a b ↔ ∃ uri : CPathString, uri.length ≤ 9 ∧
      (hash uri = hash a ∧ compare uri a = true) ∧ hash uri = hash b ∧ compare uri b = true := by
  constructor
  · rintro ⟨uri, ⟨hasha, ha⟩, hashb, hb⟩
    have hhash : hash (hashedHead uri) = hash uri := hash_eq_iff.mpr (keptBytes_hashedHead uri)
    obtain ⟨rest, hrest⟩ := hashedHead_isPrefix uri
    rw [← hrest] at ha hb
    exact ⟨hashedHead uri, length_hashedHead_le uri, ⟨hhash.trans hasha, compare_of_append ha⟩,
      hhash.trans hashb, compare_of_append hb⟩
  · rintro ⟨uri, -, huri⟩
    exact ⟨uri, huri⟩

section Heads

variable {c₁ c₂ : UInt8} {t₁ t₂ : List UInt8}

/-- A `*` in front of bytes of one segment fits every path that does not begin with `*`, unless a `?` of
the path could meet one of the bytes. -/
theorem compare_star_cons (hstar : c ≠ star) (hquestion : c = question → question ∉ x)
    (hslash : slash ∉ x) : compare (star :: x) (c :: y) = true := by
  by_cases hc : c = question
  · subst hc
    refine compare_question_right ?_ ?_
    · simpa [show question ≠ star by decide] using hquestion rfl
    · simpa [show slash ≠ star by decide] using hslash
  · exact compare_star_left hstar hc

/-- A letter in front of bytes of one segment fits every path that begins with a wildcard, unless a `?`
of the path could meet one of the bytes. -/
theorem compare_letter_cons (hwild : c = star ∨ c = question) (hquestion : c = question → question ∉ x)
    (hslash : slash ∉ x) : compare ('a'.toUInt8 :: x) (c :: y) = true := by
  rcases hwild with rfl | rfl
  · exact compare_star_right (by decide) (by decide)
  · refine compare_question_right ?_ ?_
    · simpa [show question ≠ 'a'.toUInt8 by decide] using hquestion rfl
    · simpa [show slash ≠ 'a'.toUInt8 by decide] using hslash

/-- Two paths with one hash and the same leading `/` overlap when both compare equal to some byte with the kept bytes
behind it. -/
theorem Overlap.of_reverse (hab : keptBytes a = keptBytes b) (hlead : lead a = lead b)
    (ha : dropSlash a = c₁ :: t₁) (hb : dropSlash b = c₂ :: t₂) (hc : c ≠ slash)
    (h₁ : compare (c :: (keptBytes a).reverse) (c₁ :: t₁) = true)
    (h₂ : compare (c :: (keptBytes a).reverse) (c₂ :: t₂) = true) : Overlap a b := by
  refine Overlap.intro hab (keptBytes_cons_reverse a a hc) ?_ ?_
  · rw [← ha] at h₁
    rw [← compare_append_append (lead a), lead_append_dropSlash] at h₁
    exact h₁
  · rw [← hb] at h₂
    rw [← compare_append_append (lead a), hlead, lead_append_dropSlash] at h₂
    rwa [hlead]

/-- A path that begins with `*` fits what the hash has seen of one that begins with an ordinary byte. -/
theorem compare_head_star (hlead : lead a = lead b) (ha : dropSlash a = c₁ :: t₁)
    (hb : dropSlash b = star :: t₂) (hslash : c₁ ≠ slash) (hstar : c₁ ≠ star) (hquestion : c₁ ≠ question) :
    compare (hashedHead a) b = true := by
  have hfirst : (firstSegment a).take 8 = c₁ :: (t₁.takeWhile (· ≠ slash)).take 7 := by
    rw [firstSegment, ha, List.takeWhile_cons_of_pos (by simpa using hslash), List.take_succ_cons]
  have hself : lead b ++ star :: t₂ = b := by
    rw [← hb]
    exact lead_append_dropSlash b
  have hcompare : compare (lead b ++ c₁ :: (t₁.takeWhile (· ≠ slash)).take 7) (lead b ++ star :: t₂) = true := by
    rw [compare_append_append]
    exact compare_star_right hstar hquestion
  rw [hself] at hcompare
  rwa [hashedHead, hfirst, hlead]

/-- Two paths with one hash, the same leading `/` and first segments that are not empty overlap, unless they are
`Questioned`. -/
theorem overlap_of_bodies (hab : keptBytes a = keptBytes b) (hlead : lead a = lead b)
    (ha : dropSlash a = c₁ :: t₁) (hb : dropSlash b = c₂ :: t₂) (hc₁ : c₁ ≠ slash) (hc₂ : c₂ ≠ slash)
    (hquestion : c₁ = question ∨ c₂ = question → question ∉ keptBytes a) : Overlap a b := by
  have hslash : slash ∉ (keptBytes a).reverse := fun h =>
    slash_notMem_keptBytes a (List.mem_reverse.mp h)
  have hq₁ : c₁ = question → question ∉ (keptBytes a).reverse := fun h hmem =>
    hquestion (Or.inl h) (List.mem_reverse.mp hmem)
  have hq₂ : c₂ = question → question ∉ (keptBytes a).reverse := fun h hmem =>
    hquestion (Or.inr h) (List.mem_reverse.mp hmem)
  -- Without a `*` in front, a `*` in front of the kept bytes meets both paths.
  by_cases hstar : c₁ ≠ star ∧ c₂ ≠ star
  · exact Overlap.of_reverse hab hlead ha hb (c := star) (by decide)
      (compare_star_cons hstar.1 hq₁ hslash) (compare_star_cons hstar.2 hq₂ hslash)
  · by_cases hwild : (c₁ = star ∨ c₁ = question) ∧ (c₂ = star ∨ c₂ = question)
    · exact Overlap.of_reverse hab hlead ha hb (c := 'a'.toUInt8) (by decide)
        (compare_letter_cons hwild.1 hq₁ hslash) (compare_letter_cons hwild.2 hq₂ hslash)
    · -- One of them begins with `*` and the other one with an ordinary byte.
      by_cases hfirst : c₁ = star
      · subst hfirst
        have hne : c₂ ≠ star ∧ c₂ ≠ question := by simpa using hwild
        exact (Overlap.of_head hab.symm
          (compare_head_star hlead.symm hb ha hc₂ hne.1 hne.2)).symm
      · have hsecond : c₂ = star := by simpa [hfirst] using hstar
        subst hsecond
        have hne : c₁ ≠ question := by simpa [hfirst] using hwild
        exact Overlap.of_head hab (compare_head_star hlead ha hb hc₁ hfirst hne)

/-- A path with a leading `/` and one without overlap when they have one hash, unless the second begins with a `?` and
the hash keeps one. -/
theorem overlap_of_lead_ne (hab : keptBytes a = keptBytes b) (ha : a.head? = some slash)
    (hb : b.head? ≠ some slash)
    (hquestion : (dropSlash b).head? = some question → question ∉ keptBytes a) : Overlap a b := by
  obtain ⟨t₁, rfl⟩ : ∃ t₁, a = slash :: t₁ := by
    cases a with
    | nil => exact absurd ha (by simp)
    | cons c rest => exact ⟨rest, by rw [Option.some.inj ha]⟩
  cases b with
  | nil => exact Overlap.of_head hab compare_nil_right
  | cons c₂ t₂ =>
      have hc₂ : c₂ ≠ slash := fun h => hb (by simp [h])
      have hdrop : dropSlash (c₂ :: t₂) = c₂ :: t₂ := if_neg hc₂
      rw [hdrop] at hquestion
      by_cases hstar : c₂ = star
      · -- The `*` fits the `/` already.
        subst hstar
        refine Overlap.of_head hab ?_
        exact compare_star_right (by decide) (by decide)
      · have hslash : slash ∉ (keptBytes (slash :: t₁)).reverse := fun h =>
          slash_notMem_keptBytes _ (List.mem_reverse.mp h)
        have huri : keptBytes (star :: (keptBytes (slash :: t₁)).reverse) = keptBytes (slash :: t₁) :=
          keptBytes_cons_reverse [] _ (by decide)
        -- The `*` of the request meets the `/` of the one path and the first byte of the other.
        refine Overlap.intro hab huri (compare_star_left (by decide) (by decide)) ?_
        refine compare_star_cons hstar (fun h hmem => ?_) hslash
        exact hquestion (by simp [h]) (List.mem_reverse.mp hmem)

/-- A path with an empty first segment overlaps every path with the same hash and the same leading `/`. -/
theorem overlap_of_firstSegment_nil (hab : keptBytes a = keptBytes b) (hlead : lead a = lead b)
    (hnil : firstSegment a = []) : Overlap a b := by
  refine Overlap.of_head hab ?_
  rw [hashedHead, hnil, List.take_nil, List.append_nil, hlead]
  refine compare_of_isPrefix ?_
  conv_rhs => rw [← lead_append_dropSlash b]
  exact List.prefix_append _ _

/-- A path whose first segment is not empty has, behind its leading `/`, a first byte that is no `/`. -/
theorem exists_dropSlash_eq_cons (hne : firstSegment path ≠ []) :
    ∃ c rest, dropSlash path = c :: rest ∧ c ≠ slash := by
  rw [firstSegment] at hne
  cases hdrop : dropSlash path with
  | nil => simp [hdrop] at hne
  | cons c rest =>
      refine ⟨c, rest, rfl, fun hc => ?_⟩
      simp [hdrop, hc] at hne

/-- Two paths with one hash overlap, unless they are `Questioned`. -/
theorem overlap_of_keptBytes_eq (hab : keptBytes a = keptBytes b) (hnot : ¬ Questioned a b) :
    Overlap a b := by
  by_cases hhead : hashedHead a = hashedHead b
  · refine Overlap.of_head hab ?_
    -- The hash has read the same of both: this is a request for both.
    rw [hhead]
    exact compare_of_isPrefix (hashedHead_isPrefix b)
  · have hquestion : (dropSlash a).head? = some question ∨ (dropSlash b).head? = some question →
        question ∉ keptBytes a := fun hfirst hmem => hnot ⟨hfirst, hmem, hhead⟩
    by_cases hlead : lead a = lead b
    · by_cases hnilA : firstSegment a = []
      · exact overlap_of_firstSegment_nil hab hlead hnilA
      · by_cases hnilB : firstSegment b = []
        · exact (overlap_of_firstSegment_nil hab.symm hlead.symm hnilB).symm
        · obtain ⟨c₁, t₁, ha, hc₁⟩ := exists_dropSlash_eq_cons hnilA
          obtain ⟨c₂, t₂, hb, hc₂⟩ := exists_dropSlash_eq_cons hnilB
          rw [ha, hb] at hquestion
          exact overlap_of_bodies hab hlead ha hb hc₁ hc₂ (by simpa using hquestion)
    · by_cases hslash : a.head? = some slash
      · refine overlap_of_lead_ne hab hslash (fun hb => hlead ?_) fun h => hquestion (Or.inr h)
        rw [lead, lead, if_pos hslash, if_pos hb]
      · have hb : b.head? = some slash := by
          by_contra hb
          exact hlead (by rw [lead, lead, if_neg hslash, if_neg hb])
        refine (overlap_of_lead_ne hab.symm hb hslash fun h => ?_).symm
        rw [← hab]
        exact hquestion (Or.inl h)

end Heads

end CPathString

end NavekFiber
