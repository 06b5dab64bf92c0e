import NavekFiber.Utils.Options

/-! # Lists of numbers and ranges

A list of cores is written as numbers and ranges with commas between them, and with white space wherever a
number begins or ends. `expand` takes the text apart at the commas and the hyphens, and reads the numbers:
it gives those that the items stand for, and no others (`expand_intercalate`). -/

namespace NavekFiber

namespace Utils

/-- An item of the list. -/
inductive Item
  /-- One number. -/
  | number (n : UInt64)
  /-- The numbers from `a` to `b`. -/
  | range (a b : UInt64) (hle : a ≤ b)
  /-- Nothing between two commas. -/
  | empty

/-- A text with white space around it. -/
def Padded (inner text : List UInt8) : Prop := ∃ w w', Blank w ∧ Blank w' ∧ text = w ++ (inner ++ w')

namespace Item

/-- A number is one of those that the item stands for. -/
def Has : Item → UInt64 → Prop
  | .number n, x => x = n
  | .range a b _, x => a ≤ x ∧ x ≤ b
  | .empty, _ => False

/-- The text of the item; there may be white space around each number. -/
def Renders : Item → List UInt8 → Prop
  | .number n, text => Padded (numberText n.toNat) text
  | .range a b _, text => ∃ first last, Padded (numberText a.toNat) first ∧ Padded (numberText b.toNat) last ∧
      text = first ++ 45 :: last
  | .empty, text => Blank text

end Item

variable {inner text result : List UInt8} {c : UInt8} {item : Item} {items : List Item}
  {texts : List (List UInt8)}

/-! ### White space around numbers -/

theorem trim_padded (h : Padded inner text) : trim text = trim inner := by
  obtain ⟨w, w', hw, hw', rfl⟩ := h
  exact trim_blanks hw hw'

/-- A character of a padded text that is no white space stands in the text inside. -/
theorem mem_of_mem_padded (h : Padded inner text) (hc : isSpace c ≠ true) (hmem : c ∈ text) : c ∈ inner := by
  obtain ⟨w, w', hw, hw', rfl⟩ := h
  rcases List.mem_append.mp hmem with hmem | hmem
  · exact absurd (hw c hmem) hc
  · exact (List.mem_append.mp hmem).resolve_right fun hmem => hc (hw' c hmem)

/-- A padded number has no character in it that is neither white space nor a digit. -/
theorem not_mem_padded {n : ℕ} (h : Padded (numberText n) text) (hspace : isSpace c ≠ true)
    (hdigit : isDigit c = false) : c ∉ text :=
  fun hmem => not_mem_numberText hdigit (mem_of_mem_padded h hspace hmem)

theorem trim_blank (h : Blank text) : trim text = [] := by
  rw [trim, List.dropWhile_eq_nil_iff.mpr h]
  rfl

/-- `trim` of a text is not changed by cutting off the white space in front of it. -/
theorem trim_dropWhile (text : List UInt8) : trim (text.dropWhile isSpace) = trim text := by
  rw [trim, trim, List.dropWhile_idempotent]

theorem trim_rdropWhile (text : List UInt8) : trim (text.rdropWhile isSpace) = trim text := by
  have hblank : Blank (text.rtakeWhile isSpace) := fun b hb => List.mem_rtakeWhile_imp hb
  have htrim := trim_blanks (u := text.rdropWhile isSpace) (w := []) (fun b hb => by cases hb) hblank
  rw [List.nil_append, List.rdropWhile_append_rtakeWhile] at htrim
  exact htrim.symm

/-! ### One item -/

/-- `expandItem` reads a number and adds it. -/
theorem expandItem_number {n : UInt64} (h : Padded (numberText n.toNat) text) (result : List UInt64) :
    expandItem result (trim text) = .ok (result ++ [n]) := by
  have hhyphen : 45 ∉ numberText n.toNat := not_mem_numberText (by decide)
  rw [trim_padded h, trim_numberText, expandItem, explode, if_pos (numberText_ne_nil _),
    explodeFrom_of_notMem rfl hhyphen, List.map_singleton, trim_numberText]
  simp only [stoul_numberText]
  rfl

/-- `expandItem` reads a range as its bounds, and adds the row from the first to the second. -/
theorem expandItem_range {a b : UInt64} {first last : List UInt8} (hfirst : Padded (numberText a.toNat) first)
    (hlast : Padded (numberText b.toNat) last) (result : List UInt64) :
    expandItem result (trim (first ++ 45 :: last)) = .ok (result ++ (countUp a (b - a).toNat ++ [b])) := by
  have hnot : ∀ {n : ℕ} {text : List UInt8}, Padded (numberText n) text → 45 ∉ text :=
    fun h => not_mem_padded h (by decide) (by decide)
  have hfront : 45 ∉ first.dropWhile isSpace :=
    fun hmem => hnot hfirst ((List.dropWhile_suffix isSpace).subset hmem)
  have hback : 45 ∉ last.rdropWhile isSpace :=
    fun hmem => hnot hlast ((List.rdropWhile_prefix isSpace last).subset hmem)
  have hpieces : explode .hyphen (trim (first ++ 45 :: last)) (-1) =
      [first.dropWhile isSpace, last.rdropWhile isSpace] := by
    rw [trim_append_cons (by decide), explode, if_pos (by simp), explodeFrom_append_cons rfl hfront (by decide),
      explodeFrom_of_notMem rfl hback]
  rw [expandItem, hpieces, List.map_cons, List.map_cons, List.map_nil, trim_dropWhile, trim_rdropWhile,
    trim_padded hfirst, trim_padded hlast, trim_numberText, trim_numberText]
  simp only [if_neg (numberText_ne_nil _), stoul_numberText]
  show Except.ok _ = Except.ok _
  rw [expandLoop_eq, List.append_assoc]

/-- The numbers of the row from `a` to `b` are those between the two. -/
theorem mem_countUp_concat {a b x : UInt64} (hle : a ≤ b) :
    x ∈ countUp a (b - a).toNat ++ [b] ↔ a ≤ x ∧ x ≤ b := by
  have hdistance : ∀ y : UInt64, (y - a).toNat = (2 ^ 64 - a.toNat + y.toNat) % 2 ^ 64 :=
    fun y => UInt64.toNat_sub y a
  have hb := b.toNat_lt
  have hx := x.toNat_lt
  rw [UInt64.le_iff_toNat_le] at hle
  rw [List.mem_append, List.mem_singleton, mem_countUp (b - a).toNat_lt.le, ← UInt64.toNat_inj,
    UInt64.le_iff_toNat_le, UInt64.le_iff_toNat_le, hdistance, hdistance]
  omega

/-- `expandItem` of the text of an item adds the numbers that the item stands for. -/
theorem expandItem_renders (hrenders : item.Renders text) (result : List UInt64) :
    ∃ added, expandItem result (trim text) = .ok (result ++ added) ∧ ∀ x, x ∈ added ↔ item.Has x := by
  cases item with
  | number n => exact ⟨[n], expandItem_number hrenders result, fun x => List.mem_singleton⟩
  | range a b hle =>
      obtain ⟨first, last, hfirst, hlast, rfl⟩ := hrenders
      exact ⟨_, expandItem_range hfirst hlast result, fun x => mem_countUp_concat hle⟩
  | empty =>
      refine ⟨[], ?_, fun x => iff_of_false List.not_mem_nil id⟩
      rw [trim_blank hrenders, List.append_nil]
      rfl

/-- The items of a list add their numbers one after the other. -/
theorem foldlM_expandItem (hrenders : List.Forall₂ Item.Renders items texts) (result : List UInt64) :
    ∃ added, (texts.map trim).foldlM expandItem result = .ok (result ++ added) ∧
      ∀ x, x ∈ added ↔ ∃ item ∈ items, item.Has x := by
  induction hrenders generalizing result with
  | nil => exact ⟨[], by rw [List.append_nil]; rfl, by simp⟩
  | cons hitem _ ih =>
      obtain ⟨first, hfirst, hmem⟩ := expandItem_renders hitem result
      obtain ⟨rest, hrest, hmem'⟩ := ih (result ++ first)
      refine ⟨first ++ rest, ?_, fun x => ?_⟩
      · rw [List.map_cons, List.foldlM_cons, hfirst, ← List.append_assoc]
        exact hrest
      · rw [List.mem_append, hmem, hmem', List.exists_mem_cons_iff]

/-! ### The whole list -/

/-- The text of an item has no comma in it. -/
theorem not_mem_renders (hrenders : item.Renders text) : 44 ∉ text := by
  cases item with
  | number n => exact not_mem_padded hrenders (by decide) (by decide)
  | range a b hle =>
      obtain ⟨first, last, hfirst, hlast, rfl⟩ := hrenders
      rw [List.mem_append, List.mem_cons, not_or, not_or]
      exact ⟨not_mem_padded hfirst (by decide) (by decide), by decide,
        not_mem_padded hlast (by decide) (by decide)⟩
  | empty => exact fun hmem => absurd (hrenders 44 hmem) (by decide)

theorem not_mem_texts (hrenders : List.Forall₂ Item.Renders items texts) : ∀ text ∈ texts, 44 ∉ text := by
  induction hrenders with
  | nil => exact fun text hmem => absurd hmem List.not_mem_nil
  | cons hitem _ ih => exact List.forall_mem_cons.mpr ⟨not_mem_renders hitem, ih⟩

/-- Texts joined by commas are empty only when there are none, or a single empty one. -/
theorem eq_nil_of_intercalate (h : [44].intercalate texts = []) : texts = [] ∨ texts = [[]] := by
  cases texts with
  | nil => exact Or.inl rfl
  | cons text texts =>
      rcases eq_or_ne texts [] with rfl | hne
      · rw [List.intercalate_singleton] at h
        exact Or.inr (by rw [h])
      · rw [List.intercalate_cons_of_ne_nil hne, List.append_assoc] at h
        exact absurd (List.append_eq_nil_iff.mp h).2 (List.cons_ne_nil 44 _)

/-- `expand` of the texts of some items, joined by commas, gives the numbers that the items stand for. -/
theorem expand_intercalate (hrenders : List.Forall₂ Item.Renders items texts) :
    ∃ numbers, expand ([44].intercalate texts) = .ok numbers ∧
      ∀ x, x ∈ numbers ↔ ∃ item ∈ items, item.Has x := by
  obtain ⟨added, hadded, hmem⟩ := foldlM_expandItem hrenders []
  rw [List.nil_append] at hadded
  refine ⟨added.toFinset, ?_, fun x => by rw [List.mem_toFinset, hmem]⟩
  unfold expand
  by_cases hnil : [44].intercalate texts = []
  · -- Then nothing has been added.
    have hnone : (texts.map trim).foldlM expandItem [] = .ok [] := by
      rcases eq_nil_of_intercalate hnil with rfl | rfl <;> rfl
    obtain rfl : added = [] := Except.ok.inj (hadded.symm.trans hnone)
    rw [if_pos hnil]
    rfl
  · have hne : texts ≠ [] := by
      rintro rfl
      exact hnil rfl
    rw [if_neg hnil, explode, if_pos hnil, explodeFrom_intercalate rfl hne (not_mem_texts hrenders) (by decide)]
    simp only [hadded]
    rfl

/-- `expand` reads a list with white space and an empty item. -/
theorem expand_intercalate_cores :
    ∃ numbers, expand ([44].intercalate [bytes " 2", bytes "", bytes "3 - 8 "]) = .ok numbers ∧
      ∀ x, x ∈ numbers ↔ ∃ item ∈ [Item.number 2, .empty, .range 3 8 (by decide)], item.Has x := by
  refine expand_intercalate (.cons ?_ (.cons ?_ (.cons ?_ .nil)))
  · exact ⟨[32], [], by decide, by decide, by decide⟩
  · exact fun b hb => absurd hb List.not_mem_nil
  · exact ⟨bytes "3 ", bytes " 8 ", ⟨[], [32], by decide, by decide, by decide⟩,
      ⟨[32], [32], by decide, by decide, by decide⟩, by decide⟩

end Utils

end NavekFiber
