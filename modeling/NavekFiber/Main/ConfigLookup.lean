import NavekFiber.Main.Config

/-! # Looking up what a configuration gives

The specification reads the file from top to bottom: a header of level `L` is in the section that the
first `L - 1` names around it make up, and a property belongs to the section of the last header. The
value of a key of a section is the first one given there (`firstValue`). When no header skips a level
and names have no dots, that is what `GetConfigValue` finds under the dotted name
(`getConfigValue_eq_firstValue`). -/

namespace NavekFiber

/-! ### Dotted names -/

section Dots

variable {names names' : List Text} {a key : Text} {c : UInt8}

/-- A name that a dotted name can be taken apart into: neither empty nor with a dot. -/
def IsName (name : Text) : Prop := name ≠ [] ∧ dot ∉ name

instance (name : Text) : Decidable (IsName name) := inferInstanceAs (Decidable (_ ∧ _))

/-- The dotted name of a section or of a value. -/
def dotted (names : List Text) : Text := [dot].intercalate names

@[simp] theorem dotted_nil : dotted [] = [] := rfl

/-- The dotted name of `name :: names` is `name`, a dot and the dotted name of `names`. -/
theorem dotted_cons {name : Text} (hne : names ≠ []) : dotted (name :: names) = name ++ dot :: dotted names := by
  rw [dotted, List.intercalate_cons_of_ne_nil hne]
  simp [dotted]

/-- The dotted name of `names ++ [key]` is that of `names`, a dot and `key`. -/
theorem dotted_concat (hne : names ≠ []) : dotted (names ++ [key]) = dotted names ++ dot :: key := by
  induction names with
  | nil => exact absurd rfl hne
  | cons name rest ih =>
      rw [List.cons_append, dotted_cons (by simp)]
      rcases eq_or_ne rest [] with rfl | hrest
      · simp [dotted]
      · rw [ih hrest, dotted_cons hrest, List.append_assoc, List.cons_append]

/-- The dotted name of one or more names is not empty. -/
theorem dotted_ne_nil (hnames : ∀ name ∈ names, IsName name) (hne : names ≠ []) : dotted names ≠ [] := by
  obtain ⟨name, rest, rfl⟩ := List.exists_cons_of_ne_nil hne
  have hname := (hnames name List.mem_cons_self).1
  rcases eq_or_ne rest [] with rfl | hrest
  · simpa [dotted] using hname
  · rw [dotted_cons hrest]
    simp

/-- Two lists of names with the same dotted name are the same. -/
theorem dotted_inj (hnames : ∀ name ∈ names, IsName name) (hnames' : ∀ name ∈ names', IsName name) :
    dotted names = dotted names' ↔ names = names' := by
  refine ⟨fun heq => ?_, fun heq => heq ▸ rfl⟩
  rcases eq_or_ne names [] with rfl | hne
  · by_contra hne'
    exact dotted_ne_nil hnames' (Ne.symm hne') heq.symm
  · rcases eq_or_ne names' [] with rfl | hne'
    · exact absurd heq (dotted_ne_nil hnames hne)
    -- Splitting at the dots gives the names back.
    · calc names = (dotted names).splitOn dot :=
            (List.splitOn_intercalate dot (fun name hmem => (hnames name hmem).2) hne).symm
        _ = (dotted names').splitOn dot := by rw [heq]
        _ = names' := List.splitOn_intercalate dot (fun name hmem => (hnames' name hmem).2) hne'

/-- The loop of `implode_config_path` joins the names to their dotted name. -/
theorem joinDots_eq (names : List Text) : joinDots names = dotted names := by
  induction names with
  | nil => rfl
  | cons name rest ih =>
      cases rest with
      | nil => simp [joinDots, dotted]
      | cons next rest =>
          rw [joinDots, ih]
          exact (dotted_cons (by simp)).symm

/-- `implode_config_path` without a key gives the dotted name of the current section, under which a property is looked
up. -/
theorem implodeConfigPath_nil (names : List Text) : implodeConfigPath names [] = dotted names := by
  unfold implodeConfigPath
  split
  · simp [joinDots_eq]
  · rename_i hnil
    rw [not_not.mp hnil]
    rfl

/-- `implode_config_path` with a key gives the dotted name of the new section, under which a header enters it. -/
theorem implodeConfigPath_of_ne_nil (hkey : key ≠ []) :
    implodeConfigPath names key = dotted (names ++ [key]) := by
  unfold implodeConfigPath
  split
  · rename_i hne
    rw [joinDots_eq, dotted_concat hne]
  · rename_i hnil
    rw [not_not.mp hnil]
    simp [dotted]

/-- `rfind` finds the last position of a byte: the one behind which it does not occur. -/
theorem rfind_append (hkey : c ∉ key) : rfind (a ++ c :: key) c = some a.length := by
  have hbehind : key.reverse.findIdx? (· == c) = none := by
    rw [List.findIdx?_eq_none_iff]
    intro b hb
    have hne : b ≠ c := fun heq => hkey (heq ▸ List.mem_reverse.mp hb)
    simpa using hne
  unfold rfind
  rw [List.reverse_append, List.reverse_cons, List.append_assoc, List.findIdx?_append, hbehind]
  simp only [List.singleton_append, List.findIdx?_cons]
  simp

/-- `rfind` does not find a byte that does not occur. -/
theorem rfind_of_notMem (hkey : c ∉ key) : rfind key c = none := by
  unfold rfind
  rw [Option.map_eq_none_iff, List.findIdx?_eq_none_iff]
  intro b hb
  have hne : b ≠ c := fun heq => hkey (heq ▸ List.mem_reverse.mp hb)
  simpa using hne

end Dots

/-! ### What a configuration gives -/

/-- The first value given to a key in some section, in lines that are read in the section `path`. -/
def firstValue (names : List Text) (key : Text) : List Text → List ConfigLine → Option Text
  | _, [] => none
  | path, .header level _ node :: lines => firstValue names key (path.take (level - 1) ++ [node]) lines
  | path, .property name value :: lines =>
      if path = names ∧ name = key then some value else firstValue names key path lines
  | path, .other :: lines => firstValue names key path lines

section FirstValue

variable {names path : List Text} {key name value node : Text} {level : ℕ} {hlevel : 0 < level}
  {lines : List ConfigLine}

@[simp] theorem firstValue_nil : firstValue names key path [] = none := rfl

@[simp] theorem firstValue_header :
    firstValue names key path (.header level hlevel node :: lines)
      = firstValue names key (path.take (level - 1) ++ [node]) lines := rfl

@[simp] theorem firstValue_property :
    firstValue names key path (.property name value :: lines)
      = if path = names ∧ name = key then some value else firstValue names key path lines := rfl

@[simp] theorem firstValue_other :
    firstValue names key path (.other :: lines) = firstValue names key path lines := rfl

end FirstValue

/-- No header skips a level, headers have names, and properties stand behind some header; `depth` is
the level of the last header read. -/
def WellNested : ℕ → List ConfigLine → Prop
  | _, [] => True
  | depth, .header level _ node :: lines => level ≤ depth + 1 ∧ IsName node ∧ WellNested level lines
  | depth, .property _ _ :: lines => 0 < depth ∧ WellNested depth lines
  | depth, .other :: lines => WellNested depth lines

instance decidableWellNested : ∀ depth lines, Decidable (WellNested depth lines)
  | _, [] => isTrue trivial
  | depth, .header level _ node :: lines =>
      have := decidableWellNested level lines
      inferInstanceAs (Decidable (level ≤ depth + 1 ∧ IsName node ∧ WellNested level lines))
  | depth, .property _ _ :: lines =>
      have := decidableWellNested depth lines
      inferInstanceAs (Decidable (0 < depth ∧ WellNested depth lines))
  | depth, .other :: lines => decidableWellNested depth lines

/-- The value stored under a key of a section. -/
def valueIn (config : UnorderedMap Text ConfigValue) (space key : Text) : Option Text :=
  (config.find space).bind fun v => v.second.find key

/-! ### What the builder does -/

namespace ConfigBuilder

variable {path : List Text} {config : UnorderedMap Text ConfigValue} {b : ConfigBuilder} {level : ℕ}
  {node name value space key : Text} {lines : List ConfigLine}

/-- Popping the path until it is shorter than the level leaves the sections around the new one. -/
theorem popPath_eq_take (hlevel : 0 < level) (hle : level ≤ path.length) :
    popPath level path.length path = path.take (level - 1) := by
  obtain ⟨fuel, hfuel⟩ : ∃ fuel, path.length = fuel := ⟨_, rfl⟩
  rw [hfuel] at hle ⊢
  induction fuel generalizing path with
  | zero => omega
  | succ fuel ih =>
      have hlength : path.dropLast.length = fuel := by
        rw [List.length_dropLast, hfuel]
        rfl
      unfold popPath
      simp only [hlength]
      split
      · rename_i hlt
        -- Still as long as the level: pop again.
        rw [ih hlt hlength, List.dropLast_eq_take, List.take_take, hfuel]
        congr 1
        omega
      · rw [List.dropLast_eq_take, hfuel]
        congr 1
        omega

/-- All branches of `configLine` for a header cut the path to the first `level - 1` sections and open the new one
there. -/
theorem configLine_header (hlevel : 0 < level) :
    b.configLine (.header level hlevel node)
      = some (openSection (b.path.take (level - 1)) b.config node) := by
  simp only [configLine]
  split_ifs with heq hlt
  -- A sibling section, one further out, and a child section.
  · rw [List.dropLast_eq_take, heq]
  · rw [popPath_eq_take hlevel hlt.le]
  · rw [List.take_of_length_le (by omega)]

/-- `openSection` changes no values. -/
theorem valueIn_openSection :
    valueIn (openSection path config node).config space key = valueIn config space key := by
  -- A new section is entered without values.
  have hemplace : ∀ (config : UnorderedMap Text ConfigValue) (k : Text),
      valueIn (config.emplace k .empty).1 space key = valueIn config space key := by
    intro config k
    unfold valueIn
    rw [UnorderedMap.find_emplace]
    split
    · rename_i heq
      rw [heq]
      cases config.find k with
      | none => rfl
      | some v => rfl
    · rfl
  rw [← hemplace config (implodeConfigPath path node),
    ← hemplace (config.emplace (implodeConfigPath path node) .empty).1 (implodeConfigPath path [])]
  unfold valueIn
  simp only [openSection, UnorderedMap.find_modify]
  split
  · rename_i heq
    rw [heq, Option.bind_map]
    rfl
  · rfl

/-- `openSection` enters its section into the map. -/
theorem isSome_find_openSection :
    ((openSection path config node).config.find (implodeConfigPath path node)).isSome := by
  simp only [openSection, UnorderedMap.find_modify, UnorderedMap.find_emplace]
  split
  · simp
  · simp

/-- A property gives its key a value in the current section, unless the key has one there, and no other value
changes. -/
theorem configLine_property (name value : Text) (hentered : (b.config.find (dotted b.path)).isSome) :
    ∃ b', b.configLine (.property name value) = some b' ∧ b'.path = b.path ∧
      (∀ k, (b.config.find k).isSome → (b'.config.find k).isSome) ∧
      ∀ space key, valueIn b'.config space key =
        if space = dotted b.path ∧ key = name then some ((valueIn b.config space key).getD value)
        else valueIn b.config space key := by
  obtain ⟨v, hv⟩ := Option.isSome_iff_exists.mp hentered
  unfold configLine
  simp only [implodeConfigPath_nil, hv]
  refine ⟨_, rfl, rfl, fun k hk => ?_, fun space key => ?_⟩
  · simp only [UnorderedMap.find_modify]
    split
    · simp [hv]
    · exact hk
  · unfold valueIn
    simp only [UnorderedMap.find_modify]
    -- Only the current section changes, and only where the key has no value yet.
    by_cases hspace : space = dotted b.path
    · subst hspace
      simp only [if_true, hv, Option.map_some, Option.bind_some, UnorderedMap.find_emplace, true_and]
      split
      · rename_i heq
        rw [heq]
      · rfl
    · simp [hspace]

/-- What holds of the builder between two lines. -/
structure Sound (b : ConfigBuilder) : Prop where
  /-- The path can be read off its dotted name. -/
  names : ∀ name ∈ b.path, IsName name
  /-- The current section is in the map. -/
  entered : b.path ≠ [] → (b.config.find (dotted b.path)).isSome

/-- The values of the builder, and behind them what the lines still to come give to keys without one. -/
def finalValue (b : ConfigBuilder) (lines : List ConfigLine) (names : List Text) (key : Text) :
    Option Text :=
  (valueIn b.config (dotted names) key).or (firstValue names key b.path lines)

/-- Reading a well nested header goes into its section, keeps `Sound` and leaves every `finalValue` alone. -/
theorem Sound.header {hlevel : 0 < level} (hb : Sound b)
    (hnested : WellNested b.path.length (.header level hlevel node :: lines)) :
    ∃ b', b.configLine (.header level hlevel node) = some b' ∧ Sound b' ∧
      WellNested b'.path.length lines ∧
      ∀ names key, b'.finalValue lines names key
        = b.finalValue (.header level hlevel node :: lines) names key := by
  obtain ⟨hle, hnode, hrest⟩ := hnested
  set path := b.path.take (level - 1) with hpath
  have hopen : (openSection path b.config node).path = path ++ [node] := rfl
  have hlength : (path ++ [node]).length = level := by
    simp [path]
    omega
  refine ⟨_, configLine_header hlevel, ⟨?_, ?_⟩, ?_, ?_⟩
  · intro name hmem
    rw [hopen] at hmem
    rcases List.mem_append.mp hmem with hold | hnew
    · exact hb.names name (List.mem_of_mem_take hold)
    · rw [List.mem_singleton.mp hnew]
      exact hnode
  · intro _
    rw [hopen, ← implodeConfigPath_of_ne_nil hnode.1]
    exact isSome_find_openSection
  · rwa [hopen, hlength]
  · intro names key
    rw [finalValue, finalValue, valueIn_openSection, hopen, firstValue_header]

/-- Reading a property keeps `Sound` and leaves every `finalValue` alone: a key without a value gets the one given
here. -/
theorem Sound.property (hb : Sound b)
    (hnested : WellNested b.path.length (.property name value :: lines)) :
    ∃ b', b.configLine (.property name value) = some b' ∧ Sound b' ∧
      WellNested b'.path.length lines ∧
      ∀ names key, (∀ name ∈ names, IsName name) →
        b'.finalValue lines names key = b.finalValue (.property name value :: lines) names key := by
  obtain ⟨hdepth, hrest⟩ := hnested
  have hentered := hb.entered (List.ne_nil_of_length_pos hdepth)
  obtain ⟨b', hline, hpath, hkept, hvalue⟩ := configLine_property name value hentered
  refine ⟨b', hline, ⟨?_, ?_⟩, ?_, ?_⟩
  · rw [hpath]
    exact hb.names
  · rw [hpath]
    exact fun _ => hkept _ hentered
  · rwa [hpath]
  · intro names key hvalid
    -- Names without dots: the dotted names are equal only for one section.
    have hiff : dotted names = dotted b.path ∧ key = name ↔ b.path = names ∧ name = key := by
      rw [dotted_inj hvalid hb.names, eq_comm, eq_comm (a := key)]
    rw [finalValue, finalValue, hvalue, hpath, firstValue_property]
    by_cases hgiven : b.path = names ∧ name = key
    · rw [if_pos (hiff.mpr hgiven), if_pos hgiven]
      cases valueIn b.config (dotted names) key <;> rfl
    · rw [if_neg (hiff.not.mpr hgiven), if_neg hgiven]

/-- After well nested lines have been read, each key has its `finalValue`: the first one given to it. -/
theorem Sound.foldlM_configLine (hb : Sound b) (hnested : WellNested b.path.length lines) :
    ∃ b', lines.foldlM configLine b = some b' ∧
      ∀ names key, (∀ name ∈ names, IsName name) →
        valueIn b'.config (dotted names) key = b.finalValue lines names key := by
  induction lines generalizing b with
  | nil => exact ⟨b, rfl, fun names key _ => by simp [finalValue]⟩
  | cons line lines ih =>
      rw [List.foldlM_cons]
      cases line with
      | header level hlevel node =>
          obtain ⟨b₁, hline, hb₁, hrest, hsame⟩ := hb.header hnested
          obtain ⟨b', hlines, hvalues⟩ := ih hb₁ hrest
          rw [hline, Option.bind_eq_bind, Option.bind_some]
          refine ⟨b', hlines, fun names key hvalid => ?_⟩
          rw [hvalues names key hvalid, hsame]
      | property name value =>
          obtain ⟨b₁, hline, hb₁, hrest, hsame⟩ := hb.property hnested
          obtain ⟨b', hlines, hvalues⟩ := ih hb₁ hrest
          rw [hline, Option.bind_eq_bind, Option.bind_some]
          refine ⟨b', hlines, fun names key hvalid => ?_⟩
          rw [hvalues names key hvalid, hsame names key hvalid]
      | other => exact ih hb hnested

end ConfigBuilder

/-- From the root, `GetConfigValue` of a dotted name finds the value stored under the section and the key that the
name is made of, and else the default. -/
theorem getConfigValue_dotted {config : UnorderedMap Text ConfigValue} {names : List Text} {key : Text}
    (hkey : dot ∉ key) (propdefault : Text) :
    (ConfigImpl.mk config []).getConfigValue (dotted (names ++ [key])) propdefault
      = (valueIn config (dotted names) key).getD propdefault := by
  unfold ConfigImpl.getConfigValue valueIn
  rcases eq_or_ne names [] with rfl | hne
  -- Without a section the name has no dot and is looked up in the root.
  · have hself : dotted ([] ++ [key]) = key := by simp [dotted]
    rw [hself, rfind_of_notMem hkey, dotted_nil]
    simp only
    cases config.find [] <;> rfl
  -- The last dot stands in front of the key.
  · have hvalue : (dotted names ++ dot :: key).drop ((dotted names).length + 1) = key := by simp
    rw [dotted_concat hne, rfind_append hkey]
    simp only [ne_eq, not_true_eq_false, if_false, List.nil_append, List.take_left, hvalue]
    cases config.find (dotted names) <;> rfl

/-- In a configuration without skipped levels, `GetConfigValue` finds under the dotted name of a section
and a key the first value given to the key in that section, and its default when there is none. -/
theorem getConfigValue_eq_firstValue (lines : List ConfigLine) (names : List Text) (key : Text)
    (hnested : WellNested 0 lines) (hnames : ∀ name ∈ names, IsName name) (hkey : dot ∉ key) :
    ∃ config, initConfig lines = some config ∧ ∀ propdefault,
      (ConfigImpl.mk config []).getConfigValue (dotted (names ++ [key])) propdefault
        = (firstValue names key [] lines).getD propdefault := by
  have hempty : ConfigBuilder.Sound ⟨[], ∅⟩ := ⟨by simp, by simp⟩
  obtain ⟨b, hb, hvalues⟩ := hempty.foldlM_configLine hnested
  refine ⟨b.config, by rw [initConfig, hb]; rfl, fun propdefault => ?_⟩
  rw [getConfigValue_dotted hkey, hvalues names key hnames]
  rfl

/-- A configuration that gives a key twice, in two blocks of one section. -/
def reopenedConfig : List ConfigLine :=
  [.header 1 (by decide) (bytes "fiber"), .header 2 (by decide) (bytes "server"),
    .property (bytes "listen") (bytes ":8080"), .header 2 (by decide) (bytes "pool"),
    .property (bytes "listen") (bytes ":8081"), .header 1 (by decide) (bytes "fiber"), .other,
    .header 2 (by decide) (bytes "server"), .property (bytes "listen") (bytes ":8082")]

/-- In `reopenedConfig`, `GetConfigValue` finds the value given in the first block of the section. -/
theorem getConfigValue_eq_firstValue_reopened :
    ∃ config, initConfig reopenedConfig = some config ∧ ∀ propdefault,
      (ConfigImpl.mk config []).getConfigValue (bytes "fiber.server.listen") propdefault
        = bytes ":8080" := by
  have h := getConfigValue_eq_firstValue reopenedConfig [bytes "fiber", bytes "server"]
    (bytes "listen") (by decide) (by decide) (by decide)
  have hdotted : dotted ([bytes "fiber", bytes "server"] ++ [bytes "listen"])
      = bytes "fiber.server.listen" := by decide
  have hfirst : firstValue [bytes "fiber", bytes "server"] (bytes "listen") [] reopenedConfig
      = some (bytes ":8080") := by decide
  rw [hdotted, hfirst] at h
  exact h

end NavekFiber
