import NavekFiber.Main.ConfigLookup

/-! # Sections of sections

`ConfigImpl::operator[]` puts the section in front of what is looked up; `GetConfigValue` takes a dotted
name apart at its last dot. Both assemble the key of the section from the same pieces, so a value can be
looked up from any section around it (`getConfigValue_chain`). Names may have dots anywhere. -/

namespace NavekFiber

namespace ConfigImpl

variable {self : ConfigImpl} {ns key propname propdefault : Text}

/-- A text with a dot is some text, its last dot, and a key without dots. -/
theorem exists_last_dot {text : Text} (h : dot ∈ text) :
    ∃ path key, text = path ++ dot :: key ∧ dot ∉ key := by
  obtain ⟨behind, front, hsplit, hbehind⟩ := List.eq_append_cons_of_mem (List.mem_reverse.mpr h)
  refine ⟨front.reverse, behind.reverse, ?_, fun hmem => hbehind (List.mem_reverse.mp hmem)⟩
  rw [← List.reverse_reverse text, hsplit]
  simp

/-- `GetConfigValue` of a name without dots looks it up in the section itself. -/
theorem getConfigValue_of_notMem (hkey : dot ∉ key) :
    self.getConfigValue key propdefault = (valueIn self.configValues self.space key).getD propdefault := by
  rw [getConfigValue, rfind_of_notMem hkey, valueIn]
  simp only
  cases self.configValues.find self.space <;> rfl

/-- `GetConfigValue` of a dotted name looks up what stands behind its last dot, in the section that stands in front of
it. -/
theorem getConfigValue_append (ns : Text) (hkey : dot ∉ key) :
    self.getConfigValue (ns ++ dot :: key) propdefault =
      (valueIn self.configValues ((if self.space ≠ [] then self.space ++ [dot] else self.space) ++ ns)
        key).getD propdefault := by
  have hvalue : (ns ++ dot :: key).drop (ns.length + 1) = key := by simp
  rw [getConfigValue, rfind_append hkey, valueIn]
  simp only [List.take_left, hvalue]
  cases self.configValues.find _ <;> rfl

/-- `operator[]` goes to the section whose dotted name is that of this one, a dot and the name given; from the root it
is the name given. -/
theorem space_index (self : ConfigImpl) (ns : Text) :
    (self.index ns).space = (if self.space ≠ [] then self.space ++ [dot] else self.space) ++ ns := by
  by_cases hroot : self.space = []
  · simp [index, hroot]
  · simp [index, hroot]

/-- What a section reads under a name, the one around it reads under the section and the name. -/
theorem getConfigValue_index (self : ConfigImpl) (hns : ns ≠ []) (propname propdefault : Text) :
    (self.index ns).getConfigValue propname propdefault =
      self.getConfigValue (ns ++ dot :: propname) propdefault := by
  by_cases hdot : dot ∈ propname
  · -- Both sides split the name at the same dot.
    obtain ⟨path, key, rfl, hkey⟩ := exists_last_dot hdot
    have hspace : (self.index ns).space ≠ [] := by
      rw [space_index]
      exact List.append_ne_nil_of_right_ne_nil _ hns
    have hsplit : ns ++ dot :: (path ++ dot :: key) = (ns ++ dot :: path) ++ dot :: key := by simp
    rw [hsplit, getConfigValue_append _ hkey, getConfigValue_append _ hkey, if_pos hspace, space_index]
    simp only [List.append_assoc, List.singleton_append]
    rfl
  · -- The dot behind the section is the last one.
    rw [getConfigValue_of_notMem hdot, getConfigValue_append _ hdot, space_index]
    rfl

/-- A chain of sections with names reads what the dotted path reads, from any section; names and keys may
have dots anywhere, and the key may be empty. -/
theorem getConfigValue_chain (self : ConfigImpl) (names : List Text) (hnames : ∀ name ∈ names, name ≠ [])
    (propname propdefault : Text) :
    (names.foldl index self).getConfigValue propname propdefault =
      self.getConfigValue (dotted (names ++ [propname])) propdefault := by
  induction names generalizing self with
  | nil => simp [dotted]
  | cons name names ih =>
      have hdotted : dotted (name :: names ++ [propname]) = name ++ dot :: dotted (names ++ [propname]) :=
        dotted_cons (by simp)
      rw [List.foldl_cons, ih _ fun name hmem => hnames name (List.mem_cons_of_mem _ hmem), hdotted]
      exact getConfigValue_index self (hnames name List.mem_cons_self) _ _

/-- Through two sections of `fiber`, a key with a dot in it is read as it is under its whole dotted path. -/
theorem getConfigValue_chain_pool :
    ([bytes "pool", bytes "a.b"].foldl index ⟨(UnorderedMap.emplace ∅ (bytes "fiber.pool.a.b.c")
        ⟨[], (UnorderedMap.emplace ∅ (bytes "d") (bytes "7")).1⟩).1, bytes "fiber"⟩).getConfigValue
      (bytes "c.d") (bytes "10") = bytes "7" :=
  (getConfigValue_chain _ [bytes "pool", bytes "a.b"] (by decide) _ _).trans (by decide)

end ConfigImpl

end NavekFiber
