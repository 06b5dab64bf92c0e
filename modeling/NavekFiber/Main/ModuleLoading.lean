import Mathlib.Data.Finset.Card
import Mathlib.Data.List.Dedup
import NavekFiber.Main.Startup

/-! # Loading the modules: `initMQ` and `initSAPI`

A section whose class or module is missing, or whose module is refused, is meant to be logged and passed
over. The code leaves this branch by a `throw;` where no exception is being handled, which ends the process.
So every section has to be loaded, or `EmplaceServer` has to throw for it (`loadsExactly_iff`).

* `Loader.loadedFrom`, `Loader.linesFrom`: the sections that are loaded, and the lines for all of them.
* `Loader.foldlM_loadModule_iff`: the loop. -/

namespace NavekFiber

namespace Loader

variable (loader : Loader)

/-- The calls of `EmplaceServer` that a loader makes for some sections. -/
def callsFor (names : List Text) : List (Text × Text) :=
  (names.filter fun name => loader.Named name).map fun name =>
    (loader.modulesPath ++ loader.moduleName name, loader.interface)

/-- How `EmplaceServer` ends for a section behind others. -/
def answerFor (before : List Text) (name : Text) : Emplaced :=
  loader.fiberRegistry (loader.callsFor (before ++ [name]))

/-- A section is loaded: `EmplaceServer` is called for it and returns `true`. -/
def Loads (before : List Text) (name : Text) : Prop :=
  loader.Named name ∧ loader.answerFor before name = .returned true

instance (before : List Text) (name : Text) : Decidable (loader.Loads before name) :=
  inferInstanceAs (Decidable (_ ∧ _))

/-- A section does not end the process: `EmplaceServer` is called for it, and does not return `false`. -/
def Passes (before : List Text) (name : Text) : Prop :=
  loader.Named name ∧ loader.answerFor before name ≠ .returned false

instance (before : List Text) (name : Text) : Decidable (loader.Passes before name) :=
  inferInstanceAs (Decidable (_ ∧ _))

/-- The sections of a list that are loaded, behind others. -/
def loadedFrom : List Text → List Text → List Text
  | _, [] => []
  | before, name :: names =>
      (if loader.Loads before name then [name] else []) ++ loadedFrom (before ++ [name]) names

/-- The log lines for the sections of a list, one for each. -/
def linesFrom : List Text → List Text → List LogLine
  | _, [] => []
  | before, name :: names =>
      (if loader.Loads before name then loader.loadedLine name else loader.notLoadedLine name) ::
        linesFrom (before ++ [name]) names

/-- What is entered for a section: its class and its configuration. -/
def entry (name : Text) : Text × ConfigImpl := (loader.className name, loader.sectionOptions name)

/-- The loop returns with exactly the sections that have a class and a module and whose `EmplaceServer` has
returned `true`, with their number, and has logged every section. -/
def LoadsExactly (result : Option ModuleLoad) : Prop :=
  ∃ s, result = some s ∧
    (∀ name, s.classes.find name =
      if name ∈ loader.loadedFrom [] loader.options.getSections then some (loader.entry name) else none) ∧
    s.num = s.classes.size ∧ s.log = loader.linesFrom [] loader.options.getSections

/-- No section ends the process, and none is loaded in two places. -/
def LoadsAll : Prop :=
  (∀ front name back, loader.options.getSections = front ++ name :: back → loader.Passes front name) ∧
    (loader.loadedFrom [] loader.options.getSections).Nodup

variable {loader} {before names : List Text} {name : Text} {s s' : ModuleLoad}
  {classes : UnorderedMap Text (Text × ConfigImpl)}

/-! ### The loop -/

/-- The state of a loader behind sections that do not end the process. -/
def afterSections (loader : Loader) (s : ModuleLoad) (before names : List Text) : ModuleLoad :=
  ⟨s.num + (loader.loadedFrom before names).length,
    (loader.loadedFrom before names).foldl (fun classes name => (classes.emplace name (loader.entry name)).1)
      s.classes,
    loader.callsFor (before ++ names), s.log ++ loader.linesFrom before names⟩

/-- `loadModule` of one section goes on to `afterSections` when the section passes, and else the process ends. -/
theorem loadModule_eq (hcalls : s.calls = loader.callsFor before) :
    loader.loadModule s name =
      if loader.Passes before name then some (loader.afterSections s before [name]) else none := by
  by_cases hnamed : loader.Named name
  · have hcall : s.calls ++ [(loader.modulesPath ++ loader.moduleName name, loader.interface)] =
        loader.callsFor (before ++ [name]) := by
      rw [hcalls, callsFor, callsFor, List.filter_append, List.filter_singleton, decide_eq_true hnamed,
        List.map_append]
      rfl
    have hanswer : loader.fiberRegistry (loader.callsFor (before ++ [name])) = loader.answerFor before name := rfl
    rw [loadModule, if_pos hnamed, hcall]
    simp only [hanswer]
    cases hcase : loader.answerFor before name with
    | returned result =>
        cases result with
        | true => simp [Passes, afterSections, loadedFrom, linesFrom, Loads, entry, hnamed, hcase]
        | false => simp [Passes, hcase]
    | thrown => simp [Passes, afterSections, loadedFrom, linesFrom, Loads, hnamed, hcase]
  · rw [loadModule, if_neg hnamed, if_neg fun h => hnamed h.1]

/-- `afterSections` of a list of sections is that of the first section and then that of the rest. -/
theorem afterSections_cons (s : ModuleLoad) (before : List Text) (name : Text) (names : List Text) :
    loader.afterSections s before (name :: names) =
      loader.afterSections (loader.afterSections s before [name]) (before ++ [name]) names := by
  simp only [afterSections, loadedFrom, linesFrom, List.append_nil, List.length_append, List.foldl_append,
    List.append_assoc, List.singleton_append, Nat.add_assoc]

/-- A property of every place in `name :: names` is a property of its beginning and of every place behind it. -/
theorem forall_split_cons {P : List Text → Text → Prop} :
    (∀ front next back, name :: names = front ++ next :: back → P front next) ↔
      P [] name ∧ ∀ front next back, names = front ++ next :: back → P (name :: front) next := by
  constructor
  · intro h
    exact ⟨h [] name names rfl, fun front next back hsplit => h (name :: front) next back (by rw [hsplit]; rfl)⟩
  · rintro ⟨hfirst, hrest⟩ front next back hsplit
    cases front with
    | nil =>
        obtain ⟨rfl, -⟩ := List.cons.inj hsplit
        exact hfirst
    | cons first front =>
        obtain ⟨rfl, hnames⟩ := List.cons.inj hsplit
        exact hrest front next back hnames

/-- The loop of a loader returns exactly when no section ends the process, and then with `afterSections`. -/
theorem foldlM_loadModule_iff (hcalls : s.calls = loader.callsFor before) :
    names.foldlM loader.loadModule s = some s' ↔
      (∀ front name back, names = front ++ name :: back → loader.Passes (before ++ front) name) ∧
        s' = loader.afterSections s before names := by
  induction names generalizing s before with
  | nil =>
      have hsame : loader.afterSections s before [] = s := by
        rw [afterSections, List.append_nil, ← hcalls]
        simp [loadedFrom, linesFrom]
      rw [hsame]
      constructor
      · intro h
        exact ⟨fun front name back hsplit => by simp at hsplit, (Option.some.inj h).symm⟩
      · rintro ⟨-, rfl⟩
        rfl
  | cons name names ih =>
      have htail : (∀ front next back, names = front ++ next :: back → loader.Passes (before ++ name :: front) next) ↔
          ∀ front next back, names = front ++ next :: back → loader.Passes (before ++ [name] ++ front) next := by
        simp only [List.append_assoc, List.singleton_append]
      rw [List.foldlM_cons, loadModule_eq hcalls, forall_split_cons, List.append_nil, htail,
        afterSections_cons s before name names]
      split
      · rename_i hpasses
        rw [Option.bind_eq_bind, Option.bind_some, ih rfl, and_assoc, and_iff_right hpasses]
      · rename_i hends
        exact iff_of_false (fun h => by cases h) fun h => hends h.1.1

/-! ### The map -/

/-- After sections have been entered under their names, the map has under each listed name its old entry or else the
one of the section. -/
theorem find_foldl_enter (entry : Text → Text × ConfigImpl) (key : Text) :
    (names.foldl (fun classes name => (classes.emplace name (entry name)).1) classes).find key =
      if key ∈ names then some ((classes.find key).getD (entry key)) else classes.find key := by
  induction names generalizing classes with
  | nil => rfl
  | cons name names ih =>
      rw [List.foldl_cons, ih, UnorderedMap.find_emplace]
      by_cases hname : key = name
      · subst hname
        simp
      · simp [hname]

/-- An empty map into which sections are entered has as many entries as there are different names. -/
theorem size_foldl_enter (entry : Text → Text × ConfigImpl) :
    (names.foldl (fun classes name => (UnorderedMap.emplace classes name (entry name)).1) ∅).size =
      names.dedup.length := by
  rw [← List.card_toFinset, UnorderedMap.size, ← List.toFinset_card_of_nodup (AList.keys_nodup _)]
  congr 1
  ext key
  rw [List.mem_toFinset, List.mem_toFinset, ← AList.mem_keys, ← AList.lookup_isSome]
  show (UnorderedMap.find _ key).isSome ↔ _
  rw [find_foldl_enter]
  split <;> simp_all [UnorderedMap.find]

/-- A loader loads exactly its valid modules when no section ends the process and none is loaded twice, and only
then. -/
theorem loadsExactly_initModules_iff : loader.LoadsExactly (loader.initModules ∅) ↔ loader.LoadsAll := by
  have hloop : ∀ s', loader.initModules ∅ = some s' ↔
      (∀ front name back, loader.options.getSections = front ++ name :: back → loader.Passes front name) ∧
        s' = loader.afterSections ⟨0, ∅, [], []⟩ [] loader.options.getSections :=
    fun s' => @foldlM_loadModule_iff loader [] loader.options.getSections ⟨0, ∅, [], []⟩ s' rfl
  constructor
  · rintro ⟨s', hs', -, hnum, -⟩
    obtain ⟨hpasses, rfl⟩ := (hloop s').mp hs'
    refine ⟨hpasses, ?_⟩
    rw [afterSections, size_foldl_enter, Nat.zero_add] at hnum
    rw [← List.dedup_eq_self]
    exact (List.dedup_sublist _).eq_of_length hnum.symm
  · rintro ⟨hpasses, hnodup⟩
    refine ⟨_, (hloop _).mpr ⟨hpasses, rfl⟩, fun name => ?_, ?_, ?_⟩
    · rw [afterSections, find_foldl_enter]
      rfl
    · rw [afterSections, size_foldl_enter, Nat.zero_add, hnodup.dedup]
    · exact List.nil_append _

end Loader

/-- `initMQ` and `initSAPI` load exactly the valid modules when `EmplaceServer` is called for each section and
does not return `false`, and no section is loaded in two places. -/
theorem loadsExactly_iff (options : ConfigImpl) (programDir : Text) (fiberRegistry : Registry) :
    ((Loader.mq options programDir fiberRegistry).LoadsExactly (initMQ options programDir fiberRegistry ∅) ↔
        (Loader.mq options programDir fiberRegistry).LoadsAll) ∧
      ((Loader.sapi options programDir fiberRegistry).LoadsExactly
          (initSAPI options programDir fiberRegistry ∅) ↔
        (Loader.sapi options programDir fiberRegistry).LoadsAll) :=
  ⟨Loader.loadsExactly_initModules_iff, Loader.loadsExactly_initModules_iff⟩

/-- A configuration with a section that has neither a class nor a module. -/
def nameless : ConfigImpl := ⟨((∅ : UnorderedMap Text ConfigValue).emplace [] ⟨[bytes "m"], ∅⟩).1, []⟩

/-- `initMQ` does not load exactly the valid modules of every configuration: the section of `nameless` ends the
process. -/
theorem not_loadsExactly_of_nameless :
    ¬ ∀ options programDir fiberRegistry,
      (Loader.mq options programDir fiberRegistry).LoadsExactly (initMQ options programDir fiberRegistry ∅) := by
  intro h
  obtain ⟨s, hs, -⟩ := h nameless [] fun _ => .returned true
  have hnone : (initMQ nameless [] (fun _ => .returned true) ∅).isSome = false := by decide +kernel
  rw [hs] at hnone
  cases hnone

end NavekFiber
