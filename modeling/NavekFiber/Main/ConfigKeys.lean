import NavekFiber.Main.ConfigFile
import NavekFiber.Main.ConfigLookup

/-! # What a configuration has in its map

Each header enters its section, and the section around it, under their dotted names, and adds its name to the
children of the one around it. Everything that `initConfig` finds later, it finds there: a property needs
the section that it stands in (`isSome_readConfig_iff`), and `GetSections` lists a section as often as it has
been opened (`listsOnce_iff`). -/

namespace NavekFiber

/-- A section as a header opens it. -/
structure OpenedSection where
  /-- The names of the sections around the opened one. -/
  parent : List Text
  /-- The name of the opened section. -/
  node : Text
  deriving DecidableEq, Repr

namespace OpenedSection

/-- The dotted name of the section around an opened one. -/
def parentKey (opened : OpenedSection) : Text := dotted opened.parent

/-- The names that the header of an opened section enters into the map: that of the section around it and its own. -/
def Enters (opened : OpenedSection) (key : Text) : Prop :=
  implodeConfigPath opened.parent opened.node = key ∨ opened.parentKey = key

instance (opened : OpenedSection) (key : Text) : Decidable (opened.Enters key) :=
  inferInstanceAs (Decidable (_ ∨ _))

end OpenedSection

/-- The sections that are opened, in lines that are read in the section `path`. -/
def openedSections : List Text → List ConfigLine → List OpenedSection
  | _, [] => []
  | path, .header level _ node :: lines =>
      ⟨path.take (level - 1), node⟩ :: openedSections (path.take (level - 1) ++ [node]) lines
  | path, .property _ _ :: lines => openedSections path lines
  | path, .other :: lines => openedSections path lines

/-- The section that a line stands in, behind lines that are read in the section `path`. -/
def currentPath : List Text → List ConfigLine → List Text
  | path, [] => path
  | path, .header level _ node :: lines => currentPath (path.take (level - 1) ++ [node]) lines
  | path, .property _ _ :: lines => currentPath path lines
  | path, .other :: lines => currentPath path lines

/-- The names of the sections opened in a section, one for each header. -/
def childSections (space : Text) (opened : List OpenedSection) : List Text :=
  opened.filterMap fun child => if child.parentKey = space then some child.node else none

/-- The children that the map lists under a name. -/
def childrenIn (config : UnorderedMap Text ConfigValue) (space : Text) : List Text :=
  (ConfigImpl.mk config space).getSections

namespace ConfigBuilder

variable {b b' b₁ : ConfigBuilder} {path : List Text} {config : UnorderedMap Text ConfigValue}
  {line : ConfigLine} {lines front back : List ConfigLine} {node key space name value : Text}

/-! ### One line -/

/-- What reading lines does to the builder: the sections they open are entered and listed as children, and the last of
them is the current one. -/
structure Reads (b : ConfigBuilder) (lines : List ConfigLine) (b' : ConfigBuilder) : Prop where
  /-- The path behind the lines is that of the last section opened. -/
  path_eq : b'.path = currentPath b.path lines
  /-- The map has the names it had before and those that the headers enter. -/
  entered : ∀ key, (b'.config.find key).isSome ↔ (b.config.find key).isSome ∨
    ∃ opened ∈ openedSections b.path lines, opened.Enters key
  /-- The children listed are those from before and those that the headers add. -/
  children : ∀ space, childrenIn b'.config space =
    childrenIn b.config space ++ childSections space (openedSections b.path lines)

/-- After `openSection` the map has the names it had before and those that `Enters` gives for the header. -/
theorem isSome_find_openSection_iff :
    ((openSection path config node).config.find key).isSome ↔
      (config.find key).isSome ∨ OpenedSection.Enters ⟨path, node⟩ key := by
  rw [OpenedSection.Enters, OpenedSection.parentKey, ← implodeConfigPath_nil]
  simp only [openSection, UnorderedMap.find_modify, UnorderedMap.find_emplace]
  by_cases hparent : key = implodeConfigPath path []
  · simp [hparent]
  · by_cases hnode : key = implodeConfigPath path node
    · subst hnode
      simp [hparent]
    · simp [hparent, hnode, Ne.symm hparent, Ne.symm hnode]

/-- `openSection` adds the name of the section to the children of the section around it, and to no others. -/
theorem childrenIn_openSection :
    childrenIn (openSection path config node).config space =
      childrenIn config space ++ childSections space [⟨path, node⟩] := by
  have hemplace : ∀ (config : UnorderedMap Text ConfigValue) (k : Text),
      childrenIn (config.emplace k .empty).1 space = childrenIn config space := by
    intro config k
    simp only [childrenIn, ConfigImpl.getSections, UnorderedMap.find_emplace]
    by_cases heq : space = k
    · rw [if_pos heq, heq]
      cases config.find k <;> rfl
    · rw [if_neg heq]
  rw [← hemplace config (implodeConfigPath path node),
    ← hemplace (config.emplace (implodeConfigPath path node) .empty).1 (implodeConfigPath path [])]
  simp only [childrenIn, ConfigImpl.getSections, openSection, UnorderedMap.find_modify, childSections,
    OpenedSection.parentKey, ← implodeConfigPath_nil]
  by_cases heq : space = implodeConfigPath path []
  · -- The section has just been entered, so it is there.
    obtain ⟨v, hv⟩ : ∃ v, ((config.emplace (implodeConfigPath path node) .empty).1.emplace
        (implodeConfigPath path []) .empty).1.find (implodeConfigPath path []) = some v := by
      rw [UnorderedMap.find_emplace, if_pos rfl]
      exact ⟨_, rfl⟩
    simp [heq, hv]
  · simp [heq, Ne.symm heq]

/-- One turn of `configLine` reads its line, in the sense of `Reads`. -/
theorem reads_of_configLine (h : b.configLine line = some b') : Reads b [line] b' := by
  cases line with
  | header level hlevel node =>
      rw [configLine_header hlevel] at h
      obtain rfl := Option.some.inj h
      refine ⟨rfl, fun key => ?_, fun space => childrenIn_openSection⟩
      rw [isSome_find_openSection_iff]
      simp [openedSections]
  | property name value =>
      rw [configLine] at h
      cases hfind : b.config.find (implodeConfigPath b.path []) with
      | none =>
          rw [hfind] at h
          cases h
      | some v =>
          rw [hfind] at h
          obtain rfl := Option.some.inj h
          -- The section is there before and after, with the same children.
          refine ⟨rfl, fun key => ?_, fun space => ?_⟩
          · simp only [UnorderedMap.find_modify]
            by_cases heq : key = implodeConfigPath b.path []
            · simp [heq, hfind]
            · simp [heq, openedSections]
          · simp only [childrenIn, ConfigImpl.getSections, UnorderedMap.find_modify]
            by_cases heq : space = implodeConfigPath b.path []
            · simp [heq, hfind, openedSections, childSections]
            · simp [heq, openedSections, childSections]
  | other =>
      obtain rfl := Option.some.inj h
      exact ⟨rfl, fun key => by simp [openedSections], fun space => by simp [openedSections, childSections]⟩

/-- The sections opened in `front ++ back` are those of `front`, and those of `back` read in the section where `front`
ends. -/
theorem openedSections_append (path : List Text) (front back : List ConfigLine) :
    openedSections path (front ++ back) =
      openedSections path front ++ openedSections (currentPath path front) back := by
  induction front generalizing path with
  | nil => rfl
  | cons line front ih =>
      cases line with
      | header level hlevel node =>
          exact congrArg (_ :: ·) (ih _)
      | property name value => exact ih path
      | other => exact ih path

theorem currentPath_append (path : List Text) (front back : List ConfigLine) :
    currentPath path (front ++ back) = currentPath (currentPath path front) back := by
  induction front generalizing path with
  | nil => rfl
  | cons line front ih => cases line <;> exact ih _

/-- Reading some lines and then others is reading them together. -/
theorem Reads.append (h : Reads b front b₁) (h' : Reads b₁ back b') : Reads b (front ++ back) b' := by
  refine ⟨?_, fun key => ?_, fun space => ?_⟩
  · rw [h'.path_eq, h.path_eq, currentPath_append]
  · rw [h'.entered, h.entered, openedSections_append, h.path_eq, or_assoc]
    simp only [List.mem_append, or_and_right, exists_or]
  · rw [h'.children, h.children, openedSections_append, h.path_eq, childSections, childSections,
      childSections, List.filterMap_append, List.append_assoc]

/-- Reading lines one by one with `configLine` reads them, in the sense of `Reads`. -/
theorem reads_of_foldlM (h : lines.foldlM configLine b = some b') : Reads b lines b' := by
  induction lines generalizing b with
  | nil =>
      obtain rfl : b = b' := Option.some.inj h
      exact ⟨rfl, fun key => by simp [openedSections], fun space => by simp [openedSections, childSections]⟩
  | cons line lines ih =>
      rw [List.foldlM_cons] at h
      obtain ⟨b₁, hline, hrest⟩ := Option.bind_eq_some_iff.mp h
      exact (reads_of_configLine hline).append (ih hrest)

/-! ### Looking up the section of a property -/

/-- `currentPath` is the path of the last section that the lines open, or the path they start in when they open
none. -/
theorem currentPath_cases (path : List Text) (lines : List ConfigLine) :
    (openedSections path lines = [] ∧ currentPath path lines = path) ∨
      ∃ before opened, openedSections path lines = before ++ [opened] ∧
        currentPath path lines = opened.parent ++ [opened.node] := by
  induction lines generalizing path with
  | nil => exact Or.inl ⟨rfl, rfl⟩
  | cons line lines ih =>
      cases line with
      | header level hlevel node =>
          rw [openedSections, currentPath]
          rcases ih (path.take (level - 1) ++ [node]) with ⟨hnil, hpath⟩ | ⟨before, opened, hopened, hpath⟩
          · exact Or.inr ⟨[], ⟨path.take (level - 1), node⟩, by rw [hnil]; rfl, hpath⟩
          · exact Or.inr ⟨_ :: before, opened, by rw [hopened]; rfl, hpath⟩
      | property name value => exact ih path
      | other => exact ih path

/-- The current section is in the map: behind a header that gives it a name or stands at the outermost
level, and otherwise when some header has entered its dotted name. -/
def Placed (front : List ConfigLine) : Prop :=
  ∃ parent node, currentPath [] front = parent ++ [node] ∧
    (node ≠ [] ∨ parent = [] ∨
      ∃ opened ∈ openedSections [] front, opened.Enters (dotted (parent ++ [node])))

/-- A header that gives a name, or stands at the outermost level, enters the name of its section. -/
theorem enters_dotted {parent : List Text} (h : node ≠ [] ∨ parent = []) :
    OpenedSection.Enters ⟨parent, node⟩ (dotted (parent ++ [node])) := by
  rcases h with hnode | rfl
  · exact Or.inl (implodeConfigPath_of_ne_nil hnode)
  · exact Or.inl (by simp [implodeConfigPath, dotted])

/-- After lines that were read from an empty map, the map has the name of the current section exactly when the section
is `Placed`. -/
theorem Reads.isSome_find_iff (h : Reads ⟨[], ∅⟩ front b) :
    (b.config.find (dotted b.path)).isSome ↔ Placed front := by
  rw [h.entered, h.path_eq, Placed]
  have hempty : ¬ (UnorderedMap.find (∅ : UnorderedMap Text ConfigValue)
      (dotted (currentPath [] front))).isSome := by
    simp [UnorderedMap.find]
  rcases currentPath_cases [] front with ⟨hnil, hpath⟩ | ⟨before, opened, hopened, hpath⟩
  · -- No header has been read.
    refine iff_of_false ?_ ?_
    · rw [hnil]
      rintro (hsome | ⟨opened, hmem, -⟩)
      · exact hempty hsome
      · cases hmem
    · rintro ⟨parent, node, heq, -⟩
      rw [hpath] at heq
      exact absurd heq.symm (by simp)
  · constructor
    · rintro (hsome | ⟨entering, hmem, henters⟩)
      · exact absurd hsome hempty
      · rw [hpath] at henters
        exact ⟨opened.parent, opened.node, hpath, Or.inr (Or.inr ⟨entering, hmem, henters⟩)⟩
    · rintro ⟨parent, node, heq, hcases⟩
      rw [heq] at hpath ⊢
      obtain ⟨rfl, hnode⟩ := List.append_inj' hpath rfl
      obtain rfl := List.singleton_inj.mp hnode
      refine Or.inr ?_
      rcases or_assoc.mpr hcases with hown | hother
      · exact ⟨opened, by rw [hopened]; simp, enters_dotted hown⟩
      · exact hother

/-- `configLine` has a result unless the line is a property whose section is not in the map. -/
theorem isSome_configLine_iff (b : ConfigBuilder) (line : ConfigLine) :
    (b.configLine line).isSome ↔
      ∀ name value, line = .property name value → (b.config.find (dotted b.path)).isSome := by
  cases line with
  | header level hlevel node => exact iff_of_true (by rw [configLine_header hlevel]; rfl) (by simp)
  | property name value =>
      rw [configLine, implodeConfigPath_nil]
      cases b.config.find (dotted b.path) <;> simp
  | other => exact iff_of_true rfl (by simp)

/-- Lines are read to their end, without dereferencing the end of the map, exactly when each property has a section to
stand in. -/
theorem isSome_foldlM_iff (lines : List ConfigLine) :
    (lines.foldlM configLine ⟨[], ∅⟩).isSome ↔
      ∀ front name value back, lines = front ++ .property name value :: back → Placed front := by
  constructor
  · rintro h front name value back rfl
    obtain ⟨b', hb'⟩ := Option.isSome_iff_exists.mp h
    rw [List.foldlM_append] at hb'
    obtain ⟨b, hb, hrest⟩ := Option.bind_eq_some_iff.mp hb'
    rw [List.foldlM_cons] at hrest
    obtain ⟨b₁, hline, -⟩ := Option.bind_eq_some_iff.mp hrest
    exact (reads_of_foldlM hb).isSome_find_iff.mp
      ((isSome_configLine_iff b (.property name value)).mp (by rw [hline]; rfl) name value rfl)
  · induction lines using List.reverseRecOn with
    | nil => exact fun _ => rfl
    | append_singleton front line ih =>
        intro h
        obtain ⟨b, hb⟩ := Option.isSome_iff_exists.mp
          (ih fun before name value behind hfront => h before name value (behind ++ [line]) (by rw [hfront]; simp))
        have hline : (b.configLine line).isSome := by
          rw [isSome_configLine_iff]
          rintro name value rfl
          exact (reads_of_foldlM hb).isSome_find_iff.mpr (h front name value [] rfl)
        obtain ⟨b', hb'⟩ := Option.isSome_iff_exists.mp hline
        rw [List.foldlM_append, hb]
        show (List.foldlM configLine b [line]).isSome
        rw [List.foldlM_cons, hb']
        rfl

end ConfigBuilder

/-! ### Listing the children of a section -/

section Children

variable {lines : List ConfigLine} {config : UnorderedMap Text ConfigValue}

/-- `initConfig` gives a configuration exactly when each property has a section to stand in. -/
theorem isSome_initConfig_iff (lines : List ConfigLine) :
    (initConfig lines).isSome ↔
      ∀ front name value back, lines = front ++ .property name value :: back → ConfigBuilder.Placed front := by
  rw [initConfig, Option.isSome_map, ConfigBuilder.isSome_foldlM_iff]

/-- `GetSections` lists a name for each header that opens a section of this name there. -/
theorem getSections_of_initConfig (h : initConfig lines = some config) (space : Text) :
    (ConfigImpl.mk config space).getSections = childSections space (openedSections [] lines) := by
  rw [initConfig, Option.map_eq_some_iff] at h
  obtain ⟨b, hb, rfl⟩ := h
  exact (ConfigBuilder.reads_of_foldlM hb).children space

/-- A list of first appearances is a list without repetitions. -/
theorem eraseDups_eq_self_iff {names : List Text} : names.eraseDups = names ↔ names.Nodup := by
  induction names with
  | nil => simp
  | cons name names ih =>
      rw [List.eraseDups_cons, List.nodup_cons, List.cons_inj_right]
      have hkept : name ∉ names → (names.filter fun other => !other == name) = names := by
        intro hmem
        rw [List.filter_eq_self]
        intro other hother
        simpa using fun heq : other = name => hmem (heq ▸ hother)
      constructor
      · intro heq
        have hmem : name ∉ names := by
          intro hmem
          rw [← heq, List.mem_eraseDups, List.mem_filter] at hmem
          simp at hmem
        rw [hkept hmem] at heq
        exact ⟨hmem, ih.mp heq⟩
      · rintro ⟨hmem, hnodup⟩
        rw [hkept hmem]
        exact ih.mpr hnodup

/-- No section has a child twice exactly when no section is opened twice. -/
theorem nodup_childSections_iff (opened : List OpenedSection) :
    (∀ space, (childSections space opened).Nodup) ↔
      (opened.map fun child => (child.parentKey, child.node)).Nodup := by
  induction opened with
  | nil => simp [childSections]
  | cons first opened ih =>
      have hmem : (first.parentKey, first.node) ∈ opened.map (fun child => (child.parentKey, child.node))
          ↔ first.node ∈ childSections first.parentKey opened := by
        simp [childSections, List.mem_filterMap]
      have hcons : ∀ space, childSections space (first :: opened) =
          if first.parentKey = space then first.node :: childSections space opened
          else childSections space opened := by
        intro space
        rw [childSections, List.filterMap_cons]
        split <;> rename_i h <;> split at h <;> simp_all [childSections]
      rw [List.map_cons, List.nodup_cons, hmem, ← ih]
      constructor
      · intro h
        refine ⟨?_, fun space => ?_⟩
        · have hfirst := h first.parentKey
          rw [hcons, if_pos rfl] at hfirst
          exact (List.nodup_cons.mp hfirst).1
        · have hspace := h space
          rw [hcons] at hspace
          split at hspace
          · exact (List.nodup_cons.mp hspace).2
          · exact hspace
      · rintro ⟨hfirst, hrest⟩ space
        rw [hcons]
        split
        · rename_i heq
          exact List.nodup_cons.mpr ⟨heq ▸ hfirst, hrest space⟩
        · exact hrest space

end Children

/-! ### Files -/

section Files

variable {text : Text} {config : UnorderedMap Text ConfigValue}

/-- The lines of a file as `initConfig` classifies them. -/
def configLines (text : Text) : List ConfigLine := (logicalLines text).map lineOf

/-- A file is read to its end, without dereferencing a lookup that has failed, exactly when each property has
a section to stand in. -/
theorem isSome_readConfig_iff (text : Text) :
    (readConfig text).isSome ↔
      ∀ front name value back, configLines text = front ++ .property name value :: back →
        ConfigBuilder.Placed front := by
  rw [readConfig_eq]
  exact isSome_initConfig_iff _

/-- A file with a property in front of all headers is not read to its end. -/
theorem not_isSome_readConfig : ¬ ∀ text, (readConfig text).isSome := by
  intro h
  exact absurd (h (bytes "a=b")) (by decide +kernel)

/-- `GetSections` lists the children of each section once, in the order of the headers that open them first. -/
def ListsOnce (text : Text) (config : UnorderedMap Text ConfigValue) : Prop :=
  ∀ space, (ConfigImpl.mk config space).getSections =
    (childSections space (openedSections [] (configLines text))).eraseDups

/-- No header opens a section that has been opened before. -/
def OpensOnce (text : Text) : Prop :=
  ((openedSections [] (configLines text)).map fun child => (child.parentKey, child.node)).Nodup

/-- Each child is listed once exactly when no section is opened in two places. -/
theorem listsOnce_iff (h : readConfig text = some config) : ListsOnce text config ↔ OpensOnce text := by
  rw [readConfig_eq] at h
  rw [OpensOnce, ← nodup_childSections_iff]
  refine forall_congr' fun space => ?_
  rw [getSections_of_initConfig h space, ← eraseDups_eq_self_iff]
  exact eq_comm

/-- A file with one section in another lists each child once, and opens no section twice. -/
theorem listsOnce_iff_nested :
    ∃ config, readConfig (bytes "[a]\n[[b]]") = some config ∧
      (ListsOnce (bytes "[a]\n[[b]]") config ↔ OpensOnce (bytes "[a]\n[[b]]")) := by
  have hsome : (readConfig (bytes "[a]\n[[b]]")).isSome := by decide +kernel
  obtain ⟨config, h⟩ := Option.isSome_iff_exists.mp hsome
  exact ⟨config, h, listsOnce_iff h⟩

/-- A file that opens a section in two places. -/
def reopening : Text := bytes "[a]\n[b]\n[a]"

/-- The file `reopening` opens a section twice, and the section is listed twice among the children. -/
theorem not_listsOnce_of_reopening : ¬ ∀ text config, readConfig text = some config → ListsOnce text config := by
  intro h
  have hlisted : (readConfig reopening).map (fun config => (ConfigImpl.mk config []).getSections) =
      some [bytes "a", bytes "b", bytes "a"] := by decide +kernel
  have honce : (childSections [] (openedSections [] (configLines reopening))).eraseDups =
      [bytes "a", bytes "b"] := by decide +kernel
  obtain ⟨config, hread, hsections⟩ := Option.map_eq_some_iff.mp hlisted
  have heq := h reopening config hread []
  rw [hsections, honce] at heq
  exact absurd heq (by decide)

end Files

end NavekFiber
