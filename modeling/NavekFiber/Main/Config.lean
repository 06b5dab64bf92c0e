import NavekFiber.Machine.Bytes
import NavekFiber.Machine.UnorderedMap

/-! # The configuration: `Kernel::initConfig` and `ConfigImpl`

`initConfig` reads the configuration line by line. It keeps the path of the section it is in and a map
from sections, under their names joined by dots, to their child sections and their values. `ConfigImpl`
looks values up in this map.

* `ConfigLine`: a line as the regular expressions classify it.
* `ConfigBuilder.configLine`, `initConfig`: one line, and the whole file.
* `ConfigImpl.getConfigValue`, `ConfigImpl.index`, `ConfigImpl.getSections`: the lookups.

Texts are lists of bytes; the C strings among them end before their zero. -/

namespace NavekFiber

/-- `std::string`. -/
abbrev Text := List UInt8

/-- `'.'`. -/
def dot : UInt8 := 46

/-- The loop of `implode_config_path`: the texts with dots between them. -/
def joinDots : List Text → Text
  | [] => []
  | [last] => last
  | name :: next :: rest => name ++ dot :: joinDots (next :: rest)

/-- `implode_config_path`. -/
def implodeConfigPath (path : List Text) (valname : Text) : Text :=
  if path ≠ [] then joinDots path ++ (if valname ≠ [] then dot :: valname else [])
  else valname

/-- A line of the file. -/
inductive ConfigLine
  /-- `re_config_section` matches, with this number of brackets; the name is without its comment. -/
  | header (level : ℕ) (hlevel : 0 < level) (node : Text)
  /-- `re_config_propety` matches; the value is without its comment. -/
  | property (name value : Text)
  /-- Neither regular expression matches. -/
  | other
  deriving DecidableEq, Repr

/-- `pair<list<string>, unordered_map<string, string>>`. -/
structure ConfigValue where
  /-- The names of the child sections. -/
  first : List Text
  /-- The values. -/
  second : UnorderedMap Text Text

/-- `value()`: a section without children and properties. -/
def ConfigValue.empty : ConfigValue := ⟨[], ∅⟩

/-- What `initConfig` keeps while it reads. -/
structure ConfigBuilder where
  /-- The names of the current section and of those around it, the outermost first. -/
  path : List Text
  /-- The sections read so far. -/
  config : UnorderedMap Text ConfigValue

namespace ConfigBuilder

/-- The loop of the branch for a header that closes several sections: `do path.pop_back()` while the
path has `clvl` names or more. The fuel is the length of the path. -/
def popPath (clvl : ℕ) : ℕ → List Text → List Text
  | 0, path => path
  | fuel + 1, path =>
      let path := path.dropLast
      if clvl ≤ path.length then popPath clvl fuel path else path

/-- What each branch for a header does with the path it has cut: enter the section, list it among the children of the
section around it, and go into it. -/
def openSection (path : List Text) (config : UnorderedMap Text ConfigValue) (node : Text) :
    ConfigBuilder :=
  let config := (config.emplace (implodeConfigPath path node) .empty).1
  let config := (config.emplace (implodeConfigPath path []) .empty).1
  let config := config.modify (implodeConfigPath path []) fun v => { v with first := v.first ++ [node] }
  ⟨path ++ [node], config⟩

/-- What `initConfig` does with one line of the file. There is no result where the iterator of a section that is not
found is dereferenced. -/
def configLine (b : ConfigBuilder) : ConfigLine → Option ConfigBuilder
  | .header clvl _ node =>
      if clvl = b.path.length then some (openSection b.path.dropLast b.config node)
      else if clvl < b.path.length then
        some (openSection (popPath clvl b.path.length b.path) b.config node)
      else some (openSection b.path b.config node)
  | .property name value =>
      let key := implodeConfigPath b.path []
      match b.config.find key with
      | some _ =>
          some { b with
            config := b.config.modify key fun v => { v with second := (v.second.emplace name value).1 } }
      | none => none
  | .other => some b

end ConfigBuilder

/-- `initConfig` on the lines of a file, from an empty map. -/
def initConfig (lines : List ConfigLine) : Option (UnorderedMap Text ConfigValue) :=
  (lines.foldlM ConfigBuilder.configLine ⟨[], ∅⟩).map ConfigBuilder.config

/-- `string::rfind`: the last position of a byte; `none` for `npos`. -/
def rfind (text : Text) (c : UInt8) : Option ℕ :=
  (text.reverse.findIdx? (· == c)).map fun behind => text.length - 1 - behind

/-- The configuration as one part of the program sees it. -/
structure ConfigImpl where
  /-- `configValues`. -/
  configValues : UnorderedMap Text ConfigValue
  /-- `space`, the section from which names are looked up; empty for the root. -/
  space : Text

/-- `GetConfigValue`. -/
def ConfigImpl.getConfigValue (self : ConfigImpl) (propname propdefault : Text) : Text :=
  let (path, value) :=
    match rfind propname dot with
    | some propVpart =>
        ((if self.space ≠ [] then self.space ++ [dot] else self.space) ++ propname.take propVpart,
          propname.drop (propVpart + 1))
    | none => (self.space, propname)
  match self.configValues.find path with
  | some pit => (pit.second.find value).getD propdefault
  | none => propdefault

/-- `operator[]`: the configuration as seen from a section of this one. -/
def ConfigImpl.index (self : ConfigImpl) (ns : Text) : ConfigImpl :=
  { self with space := if self.space = [] then ns else self.space ++ [dot] ++ ns }

/-- `GetSections`. -/
def ConfigImpl.getSections (self : ConfigImpl) : List Text :=
  match self.configValues.find self.space with
  | some it => it.first
  | none => []

end NavekFiber
