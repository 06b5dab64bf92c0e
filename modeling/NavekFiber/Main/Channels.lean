import NavekFiber.Main.Endpoints
import NavekFiber.Main.RouteTable
import NavekFiber.Main.Startup

/-! # The channels and their routes: `initChannels`, `AddRoute` and `initRoutes`

`initChannels` takes each section of the configuration under `channel` for a channel: its endpoint names the
class of a module that has been loaded and the path under which the channel answers. `initRoutes` then has
an object of the class created and initialized for each channel, and enters it in the table of the router.
What the modules answer is a parameter, and so is the order in which the channels are walked through.

* `initChannels`, `initRoutes`: the loops.
* `find_initChannels_iff`: which channels there are.
* `initRoutes_channels`: the routes are those of the channels whose object has been initialized. -/

namespace NavekFiber

open RequestImpl

/-- The classes of the modules that have been loaded, by the names of their sections. -/
abbrev Classes := UnorderedMap Text (Text × ConfigImpl)

/-- A channel: the class and the path of its `channel-endpoint`, and the class of its `channel-sapi`. -/
structure Channel where
  /-- `ch_proto`, the class of the endpoint. -/
  chProto : Text
  /-- `sapi_proto`, the class of its option `channel-sapi`; empty when there is none. -/
  sapiProto : Text
  /-- `ch_uri`, the path of the endpoint. -/
  chUri : Text
  /-- The section of the channel. -/
  config : ConfigImpl

/-- The state of the loop of `initChannels` over the channel sections. -/
structure ChannelsInit where
  /-- `numChannels`. -/
  numChannels : ℕ
  /-- `Channels`. -/
  channels : UnorderedMap Text Channel
  /-- What has been logged. -/
  log : List LogLine

/-- An option of a channel section, as a C string. -/
def channelOption (options : ConfigImpl) (ch option : Text) : Text :=
  cString ((options.index (cString ch)).getConfigValue option [])

/-- What a log line says about a channel: its name and its endpoint. -/
def channelLine (ch message : Text) : LogLine := ⟨cString (bytes "channel." ++ ch), message⟩

/-- The log line for a channel that is entered. -/
def addedLine (ch chProto chUri sapiProto sapiUri : Text) : LogLine :=
  channelLine ch (chProto ++ bytes ":/" ++ chUri ++
    if sapiProto = [] then [] else bytes " => " ++ sapiProto ++ bytes ":/" ++ sapiUri)

/-- The log line for a channel whose `channel-sapi` is refused. -/
def invalidSapiLine (ch sapiProto : Text) : LogLine :=
  ⟨cString (bytes "ch." ++ ch), bytes "<Runtime.Error> Invalid SAPI `" ++ sapiProto ++ bytes "` module. Skipped."⟩

/-- The log line for a channel whose class has not been loaded. -/
def notFoundLine (ch chProto : Text) : LogLine :=
  channelLine ch (bytes "<Runtime.Error> MQ `" ++ chProto ++ bytes "` not found. Skipped.")

/-- The log line for a channel whose `channel-endpoint` is missing or cannot be taken apart. -/
def invalidEndpointLine (ch : Text) : LogLine :=
  channelLine ch (bytes "<Runtime.Error> Invalid channel endpoint. Skipped.")

/-- The path of a channel: with a `/` at its end. -/
def withSlash (chUri : Text) : Text :=
  if chUri.getLast? ≠ some CPathString.slash then chUri ++ [CPathString.slash] else chUri

/-- What `initChannels` does with one channel section. -/
def initChannel (options : ConfigImpl) (classesMq classesSapi : Classes) (s : ChannelsInit) (ch : Text) :
    ChannelsInit :=
  let chRoute := channelOption options ch (bytes "channel-endpoint")
  match if chRoute ≠ [] then parseUri chRoute else none with
  | some (chProto, chUri) =>
      if chProto ∈ classesMq then
        let chSapi := channelOption options ch (bytes "channel-sapi")
        let (sapiProto, sapiUri) := (if chSapi ≠ [] then parseUri chSapi else none).getD ([], [])
        if chSapi ≠ [] ∧ (parseUri chSapi = none ∨ sapiProto ∉ classesSapi) then
          { s with log := s.log ++ [invalidSapiLine ch sapiProto] }
        else
          let chUri := withSlash chUri
          ⟨s.numChannels + 1,
            (s.channels.emplace ch ⟨chProto, sapiProto, chUri, options.index (cString ch)⟩).1,
            s.log ++ [addedLine ch chProto chUri sapiProto sapiUri]⟩
      else { s with log := s.log ++ [notFoundLine ch chProto] }
  | none => { s with log := s.log ++ [invalidEndpointLine ch] }

/-- `initChannels`: the loop over the sections of the configuration, from no channels. -/
def initChannels (options : ConfigImpl) (classesMq classesSapi : Classes) : ChannelsInit :=
  options.getSections.foldl (initChannel options classesMq classesSapi) ⟨0, ∅, []⟩

/-! ### The routes -/

/-- What `AddRoute` asks the modules for: the class of the object, and the name and the section that the
object is initialized with. -/
structure RouteCall where
  /-- `mqClass`. -/
  mqClass : Text
  /-- `mqName`, as a C string. -/
  mqName : Text
  /-- `chConfig`. -/
  chConfig : ConfigImpl

/-- How `CreateMQ`, and then `Initialize` of the object, end. -/
inductive Answer (μ : Type)
  /-- `CreateMQ` or `Initialize` returns `false`. -/
  | refused
  /-- `CreateMQ` and `Initialize` return `true`. -/
  | initialized (mq : μ)
  /-- `CreateMQ` or `Initialize` throws. -/
  | thrown (exn : Exn)

/-- What stops `initRoutes`: an exception of a module, or `at` without the class. -/
inductive RouteStop
  /-- `at` throws `std::out_of_range`. -/
  | outOfRange
  /-- A module throws. -/
  | thrown (exn : Exn)
  deriving DecidableEq

/-- What the modules answer to a call, after the calls before it. -/
abbrev Modules (μ : Type) := List RouteCall → Answer μ

/-- The state of the loop of `initRoutes` over the channels, with the calls made to the modules. -/
structure RoutesInit (μ : Type) where
  /-- `numChannels`. -/
  numChannels : ℕ
  /-- `Routes`, in the order in which they are entered. -/
  routes : RouteList μ
  /-- The calls of the modules. -/
  calls : List RouteCall
  /-- What has been logged. -/
  log : List LogLine

variable {μ : Type}

/-- `AddRoute`: the routes and the calls behind it, and what it returns. -/
def addRoute (modules : Modules μ) (s : RoutesInit μ) (chPath mqClass mqName : Text) (chConfig : ConfigImpl) :
    Except RouteStop (RoutesInit μ × Bool) :=
  if chPath ≠ [] then
    let calls := s.calls ++ [⟨mqClass, cString mqName, chConfig⟩]
    match modules calls with
    | .initialized mq => .ok ({ s with routes := s.routes ++ [(chPath, mq)], calls }, true)
    | .refused => .ok ({ s with calls }, false)
    | .thrown exn => .error (.thrown exn)
  else .ok (s, false)

/-- The log line for a route. -/
def routeLine (added : Bool) (chUri : Text) : LogLine :=
  ⟨bytes "route.endpoint",
    if added then cString chUri
    else bytes "<Runtime.Error> Invalid `" ++ cString chUri ++ bytes "` initialization. Skipped."⟩

/-- What `initRoutes` does with one channel. -/
def initRoute (modules : Modules μ) (classesMq : Classes) (s : RoutesInit μ) (ch : Text × Channel) :
    Except RouteStop (RoutesInit μ) := do
  match classesMq.atKey ch.2.chProto with
  | some mq =>
      let (s, added) ← addRoute modules s ch.2.chUri mq.1 ch.1 ch.2.config
      return { s with
        numChannels := if added then s.numChannels + 1 else s.numChannels
        log := s.log ++ [routeLine added ch.2.chUri] }
  | none => throw .outOfRange

/-- `initRoutes`, which walks through `Channels` in the order that is given. -/
def initRoutes (modules : Modules μ) (classesMq : Classes) (order : List (Text × Channel)) :
    Except RouteStop (RoutesInit μ) :=
  order.foldlM (initRoute modules classesMq) ⟨0, [], [], []⟩

/-! ### Which channels there are -/

/-- The section is this channel: its endpoint can be taken apart and its class is there, and the option
`channel-sapi`, if it has one, can be taken apart and its class is there. -/
structure IsChannel (options : ConfigImpl) (classesMq classesSapi : Classes) (ch : Text) (c : Channel) : Prop where
  /-- The endpoint gives the class and the path. -/
  endpoint : ∃ path, parseUri (channelOption options ch (bytes "channel-endpoint")) = some (c.chProto, path) ∧
    c.chUri = withSlash path
  /-- The class of the endpoint has been loaded. -/
  loaded : c.chProto ∈ classesMq
  /-- There is no `channel-sapi`, or its class has been loaded. -/
  sapi : (channelOption options ch (bytes "channel-sapi") = [] ∧ c.sapiProto = []) ∨
    ∃ path, parseUri (channelOption options ch (bytes "channel-sapi")) = some (c.sapiProto, path) ∧
      c.sapiProto ∈ classesSapi
  /-- The channel has the section for its options. -/
  config : c.config = options.index (cString ch)

/-- The class of the option `channel-sapi`, which is empty without the option. -/
def sapiOf (options : ConfigImpl) (classesSapi : Classes) (ch : Text) : Option Text :=
  if channelOption options ch (bytes "channel-sapi") = [] then some []
  else (parseUri (channelOption options ch (bytes "channel-sapi"))).bind fun sapi =>
    if sapi.1 ∈ classesSapi then some sapi.1 else none

/-- The channel that `initChannels` makes of a section, if it makes one. -/
def channelOf (options : ConfigImpl) (classesMq classesSapi : Classes) (ch : Text) : Option Channel :=
  (parseUri (channelOption options ch (bytes "channel-endpoint"))).bind fun endpoint =>
    (sapiOf options classesSapi ch).bind fun sapiProto =>
      if endpoint.1 ∈ classesMq then
        some ⟨endpoint.1, sapiProto, withSlash endpoint.2, options.index (cString ch)⟩
      else none

variable {options : ConfigImpl} {classesMq classesSapi : Classes} {ch : Text} {c : Channel} {s : ChannelsInit}

/-- `parseUri` cannot take an empty text apart. -/
theorem parseUri_nil : parseUri [] = none := by
  refine (searchUri_eq_none_iff separates_colon_slash).mpr fun n h => ?_
  obtain ⟨u, c, d, v, heq, -⟩ := h
  simp at heq

/-- `sapiOf` has a result when the option `channel-sapi` is missing, and when `parseUri` takes it apart into a loaded
class and a path. -/
theorem sapiOf_eq_some_iff {sapiProto : Text} :
    sapiOf options classesSapi ch = some sapiProto ↔
      (channelOption options ch (bytes "channel-sapi") = [] ∧ sapiProto = []) ∨
        ∃ path, parseUri (channelOption options ch (bytes "channel-sapi")) = some (sapiProto, path) ∧
          sapiProto ∈ classesSapi := by
  unfold sapiOf
  by_cases hempty : channelOption options ch (bytes "channel-sapi") = []
  · rw [if_pos hempty, hempty, parseUri_nil]
    simp [eq_comm]
  · rw [if_neg hempty, Option.bind_eq_some_iff]
    constructor
    · rintro ⟨⟨proto, path⟩, hparse, h⟩
      split at h
      · rename_i hmem
        obtain rfl := Option.some.inj h
        exact Or.inr ⟨path, hparse, hmem⟩
      · cases h
    · rintro (⟨hnil, -⟩ | ⟨path, hparse, hmem⟩)
      · exact absurd hnil hempty
      · exact ⟨(sapiProto, path), hparse, if_pos hmem⟩

/-- `channelOf` of a section is the channel that `IsChannel` describes. -/
theorem channelOf_eq_some_iff :
    channelOf options classesMq classesSapi ch = some c ↔ IsChannel options classesMq classesSapi ch c := by
  constructor
  · intro h
    obtain ⟨⟨chProto, path⟩, hendpoint, h⟩ := Option.bind_eq_some_iff.mp h
    obtain ⟨sapiProto, hsapi, h⟩ := Option.bind_eq_some_iff.mp h
    split at h
    · rename_i hloaded
      obtain rfl := Option.some.inj h
      exact ⟨⟨path, hendpoint, rfl⟩, hloaded, sapiOf_eq_some_iff.mp hsapi, rfl⟩
    · cases h
  · rintro ⟨⟨path, hendpoint, huri⟩, hloaded, hsapi, hconfig⟩
    rw [channelOf, hendpoint, Option.bind_some, sapiOf_eq_some_iff.mpr hsapi, Option.bind_some, if_pos hloaded,
      ← huri, ← hconfig]

/-- One turn of the loop of `initChannels` enters `channelOf` of the section and counts it, or leaves the channels and
their number alone when there is none. -/
theorem initChannel_cases (s : ChannelsInit) (ch : Text) :
    (channelOf options classesMq classesSapi ch = none ∧
        (initChannel options classesMq classesSapi s ch).numChannels = s.numChannels ∧
        (initChannel options classesMq classesSapi s ch).channels = s.channels) ∨
      ∃ c, channelOf options classesMq classesSapi ch = some c ∧
        (initChannel options classesMq classesSapi s ch).numChannels = s.numChannels + 1 ∧
        (initChannel options classesMq classesSapi s ch).channels = (s.channels.emplace ch c).1 := by
  have hendpoint : (if channelOption options ch (bytes "channel-endpoint") ≠ [] then
      parseUri (channelOption options ch (bytes "channel-endpoint")) else none) =
        parseUri (channelOption options ch (bytes "channel-endpoint")) := by
    split
    · rfl
    · rename_i hnil
      rw [not_not.mp hnil, parseUri_nil]
  unfold initChannel channelOf sapiOf
  simp only [hendpoint]
  cases parseUri (channelOption options ch (bytes "channel-endpoint")) with
  | none => exact Or.inl ⟨rfl, rfl, rfl⟩
  | some endpoint =>
      by_cases hloaded : endpoint.1 ∈ classesMq
      · by_cases hempty : channelOption options ch (bytes "channel-sapi") = []
        · refine Or.inr ⟨⟨endpoint.1, [], withSlash endpoint.2, options.index (cString ch)⟩, ?_, ?_, ?_⟩ <;>
            simp [hloaded, hempty]
        · cases hsapi : parseUri (channelOption options ch (bytes "channel-sapi")) with
          | none => simp [hloaded, hempty]
          | some sapi => by_cases hmem : sapi.1 ∈ classesSapi <;> simp [hloaded, hempty, hmem]
      · refine Or.inl ⟨?_, ?_, ?_⟩
        · simp [hloaded]
        · simp [hloaded]
        · simp [hloaded]

/-- The channels of some sections, each under its name. -/
def channelsIn (options : ConfigImpl) (classesMq classesSapi : Classes) (names : List Text) :
    List (Text × Channel) :=
  names.filterMap fun ch => (channelOf options classesMq classesSapi ch).map fun c => (ch, c)

/-- The loop of `initChannels` enters the channels of its sections one after the other, and counts each. -/
theorem foldl_initChannel (names : List Text) (s : ChannelsInit) :
    (names.foldl (initChannel options classesMq classesSapi) s).numChannels =
        s.numChannels + (channelsIn options classesMq classesSapi names).length ∧
      (names.foldl (initChannel options classesMq classesSapi) s).channels =
        (channelsIn options classesMq classesSapi names).foldl
          (fun channels entry => (channels.emplace entry.1 entry.2).1) s.channels := by
  induction names generalizing s with
  | nil => exact ⟨rfl, rfl⟩
  | cons ch names ih =>
      obtain ⟨hnum, hchannels⟩ := ih (initChannel options classesMq classesSapi s ch)
      rw [List.foldl_cons, hnum, hchannels, channelsIn, channelsIn, List.filterMap_cons]
      rcases initChannel_cases s ch with ⟨hnone, hnum', hchannels'⟩ | ⟨c, hsome, hnum', hchannels'⟩
      · rw [hnone, hnum', hchannels']
        exact ⟨rfl, rfl⟩
      · rw [hsome, hnum', hchannels']
        refine ⟨?_, rfl⟩
        rw [Option.map_some, List.length_cons]
        omega

/-- Under the name of a listed section `channelsIn` holds `channelOf` of the section, and nothing under any other
name. -/
theorem find?_channelsIn (names : List Text) (ch : Text) :
    ((channelsIn options classesMq classesSapi names).find? fun entry => entry.1 = ch).map Prod.snd =
      if ch ∈ names then channelOf options classesMq classesSapi ch else none := by
  induction names with
  | nil => rfl
  | cons name names ih =>
      rw [channelsIn, List.filterMap_cons]
      by_cases hname : name = ch
      · subst hname
        cases hc : channelOf options classesMq classesSapi name with
        | none =>
            rw [Option.map_none]
            simp only [List.mem_cons, true_or, if_true]
            rw [channelsIn, hc] at ih
            simpa using ih
        | some c => simp
      · have hmem : ch ∈ name :: names ↔ ch ∈ names := by
          rw [List.mem_cons, or_iff_right (Ne.symm hname)]
        rw [if_congr hmem rfl rfl, ← ih]
        cases channelOf options classesMq classesSapi name with
        | none => rfl
        | some c =>
            rw [Option.map_some, List.find?_cons_of_neg (by simpa using hname)]
            rfl

/-- After `initChannels` the channels are, under the names of their sections, just those sections whose
endpoint names a class of a loaded module and whose `channel-sapi`, if there is one, names another; each is
counted as often as its section is listed, so that the count is zero just when there is no channel. -/
theorem find_initChannels_iff (options : ConfigImpl) (classesMq classesSapi : Classes) :
    (∀ ch c, (initChannels options classesMq classesSapi).channels.find ch = some c ↔
        ch ∈ options.getSections ∧ IsChannel options classesMq classesSapi ch c) ∧
      (initChannels options classesMq classesSapi).numChannels =
        options.getSections.countP (fun ch => (channelOf options classesMq classesSapi ch).isSome) ∧
      ((initChannels options classesMq classesSapi).numChannels = 0 ↔
        (initChannels options classesMq classesSapi).channels.pairs = []) := by
  obtain ⟨hnum, hchannels⟩ :=
    @foldl_initChannel options classesMq classesSapi options.getSections ⟨0, ∅, []⟩
  have hfind (ch : Text) : (initChannels options classesMq classesSapi).channels.find ch =
      if ch ∈ options.getSections then channelOf options classesMq classesSapi ch else none := by
    rw [initChannels, hchannels, UnorderedMap.find_foldl_emplace, find?_channelsIn]
    rfl
  have hmem (ch : Text) (c : Channel) : (initChannels options classesMq classesSapi).channels.find ch = some c ↔
      ch ∈ options.getSections ∧ IsChannel options classesMq classesSapi ch c := by
    rw [hfind, ← channelOf_eq_some_iff]
    split <;> simp_all
  refine ⟨hmem, ?_, ?_⟩
  · rw [initChannels, hnum, channelsIn, List.length_filterMap_eq_countP, Nat.zero_add]
    simp
  · rw [initChannels, hnum, Nat.zero_add, List.length_eq_zero_iff, List.eq_nil_iff_forall_not_mem,
      List.eq_nil_iff_forall_not_mem]
    constructor
    · rintro h ⟨ch, c⟩ hentry
      obtain ⟨hsection, hchannel⟩ := (hmem ch c).mp (UnorderedMap.mem_pairs.mp hentry)
      refine h (ch, c) (List.mem_filterMap.mpr ⟨ch, hsection, ?_⟩)
      rw [channelOf_eq_some_iff.mpr hchannel]
      rfl
    · rintro h ⟨ch, c⟩ hentry
      obtain ⟨name, hsection, hname⟩ := List.mem_filterMap.mp hentry
      obtain ⟨c', hc', heq⟩ := Option.map_eq_some_iff.mp hname
      obtain ⟨rfl, rfl⟩ := Prod.mk.inj heq
      exact h (name, c') (UnorderedMap.mem_pairs.mpr ((hmem name c').mpr ⟨hsection, channelOf_eq_some_iff.mp hc'⟩))

/-! ### Which routes there are -/

/-- What `initRoutes` asks the modules for a channel: an object of its class, to be initialized with its name and its
section. -/
def routeCall (classesMq : Classes) (ch : Text × Channel) : RouteCall :=
  ⟨((classesMq.find ch.2.chProto).map Prod.fst).getD [], cString ch.1, ch.2.config⟩

/-- The channel gets this route: its object is created and initialized, after those of the channels before
it. -/
def Routed (modules : Modules μ) (classesMq : Classes) (before : List (Text × Channel)) (ch : Text × Channel)
    (route : CPathString × μ) : Prop :=
  route.1 = ch.2.chUri ∧ modules ((before ++ [ch]).map (routeCall classesMq)) = .initialized route.2

variable {modules : Modules μ} {before order : List (Text × Channel)} {entry : Text × Channel}
  {r r' : RoutesInit μ}

/-- `AddRoute` with a path that is not empty asks the modules once for an object and adds at most one route; or it
stops at an exception of theirs. -/
theorem addRoute_cases (modules : Modules μ) (s : RoutesInit μ) {chPath : Text} (mqClass mqName : Text)
    (chConfig : ConfigImpl)
    (hpath : chPath ≠ []) :
    (∃ exn, addRoute modules s chPath mqClass mqName chConfig = .error (.thrown exn)) ∨
      ∃ s' added, addRoute modules s chPath mqClass mqName chConfig = .ok (s', added) ∧
        s'.calls = s.calls ++ [⟨mqClass, cString mqName, chConfig⟩] ∧ s'.numChannels = s.numChannels ∧
        s'.routes.length = s.routes.length + added.toNat ∧
        ∀ route, route ∈ s'.routes ↔
          route ∈ s.routes ∨ (route.1 = chPath ∧ modules s'.calls = .initialized route.2) := by
  unfold addRoute
  rw [if_pos hpath]
  cases hanswer : modules (s.calls ++ [⟨mqClass, cString mqName, chConfig⟩]) with
  | thrown exn =>
      simp only [hanswer]
      exact Or.inl ⟨exn, rfl⟩
  | refused =>
      simp only [hanswer]
      refine Or.inr ⟨_, false, rfl, rfl, rfl, rfl, fun route => ?_⟩
      simp [hanswer]
  | initialized mq =>
      simp only [hanswer]
      refine Or.inr ⟨_, true, rfl, rfl, rfl, List.length_append, fun route => ?_⟩
      rw [hanswer, List.mem_append, List.mem_singleton, Prod.ext_iff, Answer.initialized.injEq, eq_comm (a := mq)]

/-- For a channel whose class has been loaded, one turn of the loop of `initRoutes` makes the `routeCall` of the
channel, and adds the route when the object is created and initialized; or it stops at an exception. -/
theorem initRoute_cases (modules : Modules μ) (hloaded : entry.2.chProto ∈ classesMq) (huri : entry.2.chUri ≠ [])
    (hcalls : r.calls = before.map (routeCall classesMq)) (hnum : r.numChannels = r.routes.length) :
    (∃ exn, initRoute modules classesMq r entry = .error (.thrown exn)) ∨
      ∃ r', initRoute modules classesMq r entry = .ok r' ∧ r'.numChannels = r'.routes.length ∧
        r'.calls = (before ++ [entry]).map (routeCall classesMq) ∧
        ∀ route, route ∈ r'.routes ↔ route ∈ r.routes ∨ Routed modules classesMq before entry route := by
  obtain ⟨mq, hmq⟩ := Option.isSome_iff_exists.mp (UnorderedMap.isSome_atKey.mpr hloaded)
  have hfind : classesMq.find entry.2.chProto = some mq := hmq
  unfold initRoute Routed
  rw [hmq]
  rcases addRoute_cases modules r mq.1 entry.1 entry.2.config huri with ⟨exn, hthrown⟩ |
    ⟨s', added, hadd, hcalls', hnum', hlength, hroutes⟩
  · refine Or.inl ⟨exn, ?_⟩
    simp only [hthrown]
    rfl
  · have hcall : s'.calls = (before ++ [entry]).map (routeCall classesMq) := by
      rw [hcalls', hcalls, List.map_append, List.map_singleton, routeCall, hfind]
      rfl
    simp only [hadd]
    refine Or.inr ⟨_, rfl, ?_, hcall, fun route => ?_⟩
    · show (if added = true then s'.numChannels + 1 else s'.numChannels) = s'.routes.length
      rw [hlength, hnum', hnum]
      cases added <;> rfl
    · rw [← hcall]
      exact hroutes route

/-- The loop of `initRoutes` over channels whose classes have been loaded makes their calls in order, counts its
routes, and adds none but those of created and initialized objects; or it stops at an exception. -/
theorem foldlM_initRoute (modules : Modules μ) (before : List (Text × Channel)) (r : RoutesInit μ)
    (hloaded : ∀ entry ∈ order, entry.2.chProto ∈ classesMq ∧ entry.2.chUri ≠ [])
    (hcalls : r.calls = before.map (routeCall classesMq)) (hnum : r.numChannels = r.routes.length) :
    (∃ exn, order.foldlM (initRoute modules classesMq) r = .error (.thrown exn)) ∨
      ∃ r', order.foldlM (initRoute modules classesMq) r = .ok r' ∧ r'.numChannels = r'.routes.length ∧
        ∀ route, route ∈ r'.routes ↔ route ∈ r.routes ∨
          ∃ front entry back, order = front ++ entry :: back ∧
            Routed modules classesMq (before ++ front) entry route := by
  induction order generalizing before r with
  | nil => exact Or.inr ⟨r, rfl, hnum, fun route => by simp⟩
  | cons entry order ih =>
      obtain ⟨hmem, huri⟩ := hloaded entry List.mem_cons_self
      rw [List.foldlM_cons]
      rcases initRoute_cases modules hmem huri hcalls hnum with ⟨exn, hthrown⟩ |
        ⟨r₁, hstep, hnum₁, hcalls₁, hroutes₁⟩
      · rw [hthrown]
        exact Or.inl ⟨exn, rfl⟩
      · rw [hstep]
        rcases ih _ _ (fun entry hentry => hloaded entry (List.mem_cons_of_mem _ hentry)) hcalls₁ hnum₁ with
          ⟨exn, hthrown⟩ | ⟨r', hrun, hnum', hroutes'⟩
        · exact Or.inl ⟨exn, hthrown⟩
        · refine Or.inr ⟨r', hrun, hnum', fun route => ?_⟩
          rw [hroutes', hroutes₁, or_assoc]
          refine or_congr_right ?_
          constructor
          · rintro (hfirst | ⟨front, next, back, rfl, hrest⟩)
            · exact ⟨[], entry, order, rfl, by rwa [List.append_nil]⟩
            · exact ⟨entry :: front, next, back, rfl, by rwa [List.append_cons]⟩
          · rintro ⟨front, next, back, hsplit, hrouted⟩
            cases front with
            | nil =>
                obtain ⟨rfl, -⟩ := List.cons.inj hsplit
                rw [List.append_nil] at hrouted
                exact Or.inl hrouted
            | cons first front =>
                obtain ⟨rfl, hrest⟩ := List.cons.inj hsplit
                rw [List.append_cons] at hrouted
                exact Or.inr ⟨front, next, back, hrest, hrouted⟩

/-- The path `withSlash` of a channel is not empty. -/
theorem withSlash_ne_nil (path : Text) : withSlash path ≠ [] := by
  unfold withSlash
  split
  · simp
  · rename_i hlast
    intro hnil
    rw [hnil] at hlast
    exact hlast (by simp)

/-- The channels of `initChannels`, walked through in any order, have classes that are there, so that `at` does
not throw: unless a module throws, `initRoutes` returns, and the routes are those of the channels whose objects
have been created and initialized, each under the path of its channel and counted once. -/
theorem initRoutes_channels (options : ConfigImpl) (classesMq classesSapi : Classes) (modules : Modules μ)
    (order : List (Text × Channel))
    (horder : order.Perm (initChannels options classesMq classesSapi).channels.pairs) :
    (∃ exn, initRoutes modules classesMq order = .error (.thrown exn)) ∨
      ∃ r, initRoutes modules classesMq order = .ok r ∧ r.numChannels = r.routes.length ∧
        ∀ route, route ∈ r.routes ↔ ∃ front ch c back, order = front ++ (ch, c) :: back ∧
          ch ∈ options.getSections ∧ IsChannel options classesMq classesSapi ch c ∧
          Routed modules classesMq front (ch, c) route := by
  have hchannel : ∀ ch c, (ch, c) ∈ order →
      ch ∈ options.getSections ∧ IsChannel options classesMq classesSapi ch c := fun ch c hentry =>
    ((find_initChannels_iff options classesMq classesSapi).1 ch c).mp
      (UnorderedMap.mem_pairs.mp (horder.subset hentry))
  have hloaded : ∀ entry ∈ order, entry.2.chProto ∈ classesMq ∧ entry.2.chUri ≠ [] := by
    rintro ⟨ch, c⟩ hentry
    obtain ⟨-, hc⟩ := hchannel ch c hentry
    obtain ⟨path, -, huri⟩ := hc.endpoint
    exact ⟨hc.loaded, huri ▸ withSlash_ne_nil path⟩
  rcases foldlM_initRoute modules [] ⟨0, [], [], []⟩ hloaded rfl rfl with
    hthrown | ⟨r, hrun, hnum, hroutes⟩
  · exact Or.inl hthrown
  · refine Or.inr ⟨r, hrun, hnum, fun route => ?_⟩
    rw [hroutes, or_iff_right (List.not_mem_nil)]
    constructor
    · rintro ⟨front, ⟨ch, c⟩, back, rfl, hrouted⟩
      obtain ⟨hsection, hc⟩ := hchannel ch c (by simp)
      exact ⟨front, ch, c, back, rfl, hsection, hc, hrouted⟩
    · rintro ⟨front, ch, c, back, hsplit, -, -, hrouted⟩
      exact ⟨front, (ch, c), back, hsplit, hrouted⟩

/-- A configuration with one channel, `sms-gate`. -/
def smsGate : ConfigImpl :=
  ⟨(((∅ : UnorderedMap Text ConfigValue).emplace (bytes "channel") ⟨[bytes "sms-gate"], ∅⟩).1.emplace
    (bytes "channel.sms-gate")
    ⟨[], ((∅ : UnorderedMap Text Text).emplace (bytes "channel-endpoint") (bytes "sync-queue://sms-gate/*/")).1⟩).1,
    bytes "channel"⟩

/-- The loaded classes that the channel of `smsGate` needs. -/
def queueClasses : Classes := ((∅ : Classes).emplace (bytes "sync-queue") (bytes "SyncQueue", smsGate)).1

/-- `initRoutes` walks through the channel of `smsGate` and returns with its route. -/
theorem initRoutes_channels_smsGate :
    ∃ r : RoutesInit ℕ, initRoutes (fun _ => .initialized 7) queueClasses
        (initChannels smsGate queueClasses ∅).channels.pairs = .ok r ∧ r.numChannels = r.routes.length := by
  rcases initRoutes_channels smsGate queueClasses ∅ (fun _ => .initialized 7) _ (List.Perm.refl _) with
    ⟨exn, hthrown⟩ | ⟨r, hrun, hnum, -⟩
  · have hok : (initRoutes (fun _ => .initialized 7) queueClasses
        (initChannels smsGate queueClasses ∅).channels.pairs).toOption.isSome = true := by decide +kernel
    rw [hthrown] at hok
    cases hok
  · exact ⟨r, hrun, hnum⟩

/-- A path that begins with `/` compares equal only to paths that begin with it or with a wildcard. -/
theorem head_of_compare {rest path : Text} (hpath : path ≠ [])
    (h : CPathString.compare (CPathString.slash :: rest) path = true) :
    path.head? = some CPathString.slash ∨ path.head? = some CPathString.question ∨
      path.head? = some CPathString.star := by
  obtain ⟨c, path, rfl⟩ := List.exists_cons_of_ne_nil hpath
  by_contra hnone
  simp only [List.head?_cons, Option.some.injEq, not_or] at hnone
  obtain ⟨hslash, hquestion, hstar⟩ := hnone
  rw [CPathString.compare, if_pos (Ne.symm hslash), if_neg (by decide), if_neg hquestion,
    decide_eq_true_eq] at h
  rcases h with h | h
  · exact absurd h (by decide)
  · exact hstar h

/-- Whatever the hash table looks like, a request whose path begins with `/` is passed to the object of a
channel of the configuration, created for the class of its endpoint and initialized with its name, and the
path behind `:/` in the endpoint begins with another `/` or with a wildcard: a channel with one `/` in its
endpoint is loaded, counted and never reached. -/
theorem channel_of_selects (options : ConfigImpl) (classesMq classesSapi : Classes) (modules : Modules μ)
    (order : List (Text × Channel))
    (horder : order.Perm (initChannels options classesMq classesSapi).channels.pairs) (r : RoutesInit μ)
    (hrun : initRoutes modules classesMq order = .ok r) (rest : Text) (route : CPathString × μ)
    (hselects : r.routes.Selects (CPathString.slash :: rest) route) :
    ∃ front ch c back path, order = front ++ (ch, c) :: back ∧ ch ∈ options.getSections ∧
      parseUri (channelOption options ch (bytes "channel-endpoint")) = some (c.chProto, path) ∧
      c.chProto ∈ classesMq ∧ Routed modules classesMq front (ch, c) route ∧ route.1 = withSlash path ∧
      (path.head? = some CPathString.slash ∨ path.head? = some CPathString.question ∨
        path.head? = some CPathString.star) := by
  obtain ⟨hmem, -, hcompare⟩ := RouteList.selects_iff.mp hselects
  rcases initRoutes_channels options classesMq classesSapi modules order horder with ⟨exn, hthrown⟩ |
    ⟨r', hrun', -, hroutes⟩
  · rw [hrun] at hthrown
    cases hthrown
  · obtain rfl := Except.ok.inj (hrun.symm.trans hrun')
    obtain ⟨front, ch, c, back, hsplit, hsection, hc, hrouted⟩ := (hroutes route).mp hmem
    obtain ⟨path, hendpoint, huri⟩ := hc.endpoint
    have hroute : route.1 = withSlash path := hrouted.1.trans huri
    have hpath : path ≠ [] := by
      obtain ⟨before, behind, hfirst⟩ := (searchUri_eq_some_iff separates_colon_slash).mp hendpoint
      exact hfirst.path_ne
    refine ⟨front, ch, c, back, path, hsplit, hsection, hendpoint, hc.loaded, hrouted, hroute, ?_⟩
    -- The `/` that may have been added comes behind the first character.
    have hhead : (withSlash path).head? = path.head? := by
      unfold withSlash
      split
      · exact List.head?_append_of_ne_nil _ hpath
      · rfl
    rw [← hhead]
    rw [hroute] at hcompare
    exact head_of_compare (withSlash_ne_nil path) hcompare

/-- A request below the path of the channel of `smsGate` is passed to the object of this channel. -/
theorem channel_of_selects_smsGate :
    ∃ (ch : Text) (c : Channel) (path : Text), ch ∈ smsGate.getSections ∧
      parseUri (channelOption smsGate ch (bytes "channel-endpoint")) = some (c.chProto, path) ∧
      c.chProto ∈ queueClasses ∧ bytes "/sms-gate/*/" = withSlash path := by
  have hroutes : ((initRoutes (fun _ => .initialized 7) queueClasses
      (initChannels smsGate queueClasses ∅).channels.pairs).toOption.map RoutesInit.routes) =
        some [(bytes "/sms-gate/*/", 7)] := by
    decide +kernel
  obtain ⟨r, hr, hlist⟩ := Option.map_eq_some_iff.mp hroutes
  have hrun : initRoutes (fun _ => .initialized 7) queueClasses
      (initChannels smsGate queueClasses ∅).channels.pairs = .ok r := by
    cases hresult : initRoutes (fun _ => Answer.initialized 7) queueClasses
        (initChannels smsGate queueClasses ∅).channels.pairs with
    | ok r' => rw [hresult] at hr; exact congrArg _ (Option.some.inj hr)
    | error stop => rw [hresult] at hr; cases hr
  have hselects : r.routes.Selects (bytes "/sms-gate/send") (bytes "/sms-gate/*/", 7) := by
    rw [hlist]
    exact RouteList.selects_iff.mpr ⟨List.mem_cons_self, by decide +kernel, by decide +kernel⟩
  obtain ⟨-, ch, c, -, path, -, hsection, hendpoint, hloaded, -, hpath, -⟩ :=
    channel_of_selects smsGate queueClasses ∅ (fun _ => .initialized 7) _ (List.Perm.refl _) r hrun
      (bytes "sms-gate/send") _ hselects
  exact ⟨ch, c, path, hsection, hendpoint, hloaded, hpath⟩

end NavekFiber
