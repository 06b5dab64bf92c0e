import NavekFiber.Main.Channels
import NavekFiber.Main.ConfigFile
import NavekFiber.Main.Listeners
import NavekFiber.Main.ModuleLoading
import NavekFiber.Mt.ThreadPoolCores
import NavekFiber.Utils.Transform

/-! # The startup as a whole: `Kernel::Run` up to its main loop

`Kernel::Run` reads the configuration and runs the parts of the startup one after the other, each with what
the earlier ones have left. An exception on the way is logged and ends the process with a code, but only if
it is a `std::exception`: a `RuntimeException` is none, and `throw;` in `initMQ` and `initSAPI` throws nothing.
The threads of the pool are taken to start, so a `std::system_error` of their constructor is left out.

* `Kernel.start`: the startup.
* `Kernel.start_of_prepare`: how it ends when all but the pool has succeeded.
* `Kernel.ready_of_start`: what there is when the main loop is reached. -/

namespace NavekFiber

open RequestImpl Utils

namespace Kernel

/-- How a startup ends that does not reach the main loop. -/
inductive StartStop
  /-- `std::terminate`. -/
  | terminate
  /-- `exit(-2)`, with the text of the exception in the log. -/
  | exit (what : Text)
  /-- The standard does not say how it goes on. -/
  | undefined
  deriving DecidableEq, Repr

/-- What `catch (exception& ex)` of `Kernel::Run` makes of an exception. -/
def StartStop.ofExn : Exn → StartStop
  | .runtimeException _ => .terminate
  | .stdException what => .exit what

/-- What stops `initRoutes`, as `Kernel::Run` sees it. -/
def StartStop.ofRoute : RouteStop → StartStop
  | .outOfRange => .exit (bytes "_Map_base::at")
  | .thrown exn => .ofExn exn

/-- What stops `initServer`, as `Kernel::Run` sees it. -/
def StartStop.ofServer : Stop → StartStop
  | .outOfRange => .undefined
  | .terminate => .terminate
  | .thrown exn => .ofExn exn

/-- What stops the constructor of the pool, as `Kernel::Run` sees it. -/
def StartStop.ofPool : ThreadPool.Failure → StartStop
  | .throws exn => .ofExn exn
  | .divisionByZero => .undefined
  | .outOfBounds => .undefined

/-- What the startup meets outside of the kernel. -/
structure System (μ : Type) where
  /-- The contents of the configuration file, or the text of the exception when it cannot be opened. -/
  file : Except Text Text
  /-- `GetProgramDir()`. -/
  programDir : Text
  /-- The module registry of the process. -/
  fiberRegistry : Registry
  /-- The order in which the channels are walked through. -/
  channelOrder : UnorderedMap Text Channel → List (Text × Channel)
  /-- Every channel comes once. -/
  order_perm : ∀ channels, (channelOrder channels).Perm channels.pairs
  /-- What the modules answer. -/
  modules : Modules μ
  /-- `strerror`. -/
  strerror : ℤ → Text
  /-- What the system answers for each listener section. -/
  calls : ℕ → SocketCalls
  /-- The order in which sets of cores are walked through. -/
  walk : WalkOrder
  /-- `hardware_concurrency()`. -/
  hardwareConcurrency : UInt32

/-- What the startup has in front of `initThreadPool`. -/
structure Prepared (μ : Type) where
  /-- `fiberConfig`. -/
  config : ConfigImpl
  /-- `fiberMQModules`, with what has been logged. -/
  mq : ModuleLoad
  /-- `fiberSAPIModules`. -/
  sapi : ModuleLoad
  /-- `fiberChannels`. -/
  channels : ChannelsInit
  /-- `fiberRouter`. -/
  routes : RoutesInit μ
  /-- `fiberServer`. -/
  server : ServerInit

/-- What the startup leaves for the main loop. -/
structure Started (μ : Type) extends Prepared μ where
  /-- `fiberWorkers`. -/
  workers : ThreadPool.Created
  /-- What `initThreadPool` has logged. -/
  workersLog : List LogLine

variable {μ : Type}

/-- `initConfig` on the file of the configuration. -/
def readFiberConfig : Except Text Text → Except StartStop ConfigImpl
  | .error what => .error (.exit what)
  | .ok content =>
      match readConfig content with
      | some configData => .ok ⟨configData, []⟩
      | none => .error .undefined

/-- The classes of the modules of one kind, as `initMQ` or `initSAPI` has loaded them. -/
def loaded : Option ModuleLoad → Except StartStop ModuleLoad
  | some modules => .ok modules
  | none => .error .terminate

/-- `throw std::runtime_error` when there is nothing. -/
def require (num : ℕ) (what : Text) : Except StartStop Unit :=
  if num ≠ 0 then .ok () else .error (.exit what)

/-- The log lines of `initThreadPool`. The numbers in them are those of two other options. -/
def threadPoolLines (options : ConfigImpl) (hardwareConcurrency : UInt32) (cores : Text) : List LogLine :=
  [⟨bytes "thread-pool.workers", cString (options.getConfigValue (bytes "pool-workers") (bytes "10"))⟩,
    ⟨bytes "thread-pool.limit", cString (options.getConfigValue (bytes "pool-max") (bytes "100"))⟩,
    ⟨bytes "thread-pool.cores", cores ++ bytes " (hardware threads: " ++ numberText hardwareConcurrency.toNat ++
      bytes ")"⟩]

/-- The option `thread-workers`. -/
def threadWorkers (options : ConfigImpl) : Text :=
  cString (options.getConfigValue (bytes "thread-workers") (bytes "10"))

/-- The option `thread-limit`. -/
def threadLimit (options : ConfigImpl) : Text :=
  cString (options.getConfigValue (bytes "thread-limit") (bytes "100"))

/-- The option `core-bind`. -/
def coreBind (options : ConfigImpl) : Text := cString (options.getConfigValue (bytes "core-bind") (bytes "1-8"))

/-- The option `core-exclude`. -/
def coreExclude (options : ConfigImpl) : Text := cString (options.getConfigValue (bytes "core-exclude") [])

/-- `initThreadPool`: the pool and the log lines, or what the constructor of the pool throws. -/
def initThreadPool (walk : WalkOrder) (hardwareConcurrency : UInt32) (options : ConfigImpl) :
    Except ThreadPool.Failure (ThreadPool.Created × List LogLine) := do
  let workers ← ThreadPool.new walk hardwareConcurrency (threadWorkers options) (threadLimit options)
    (coreBind options) (coreExclude options)
  match implode (bytes ", ") (workers.poolWorkersBinding.map fun core => numberText core.toNat) with
  | some cores => return (workers, threadPoolLines options hardwareConcurrency cores)
  | none => throw .outOfBounds

/-- `Kernel::Run` in front of `initThreadPool`. The registry and the modules answer after all calls before. -/
def prepare (system : System μ) : Except StartStop (Prepared μ) := do
  let config ← readFiberConfig system.file
  let fiber := config.index (bytes "fiber")
  let mq ← loaded (initMQ (fiber.index (bytes "mq")) system.programDir system.fiberRegistry ∅)
  require mq.num (bytes "No valid MQ modules found")
  let sapi ← loaded (initSAPI (fiber.index (bytes "sapi")) system.programDir
    (fun calls => system.fiberRegistry (mq.calls ++ calls)) ∅)
  let channels := initChannels (config.index (bytes "channel")) mq.classes sapi.classes
  require channels.numChannels (bytes "No valid Channels found")
  let routes ← (initRoutes system.modules mq.classes (system.channelOrder channels.channels)).mapError .ofRoute
  require routes.numChannels (bytes "No valid Routes found")
  let server ← (initServer (fiber.index (bytes "server")) system.strerror system.calls).mapError .ofServer
  require server.numListeners (bytes "No valid Listeners found")
  return ⟨config, mq, sapi, channels, routes, server⟩

/-- The section of the pool. -/
def poolOptions (config : ConfigImpl) : ConfigImpl := (config.index (bytes "fiber")).index (bytes "pool")

/-- `Kernel::Run`, up to its main loop. -/
def start (system : System μ) : Except StartStop (Started μ) := do
  let prepared ← prepare system
  let (workers, workersLog) ← (initThreadPool system.walk system.hardwareConcurrency
    (poolOptions prepared.config)).mapError .ofPool
  return { prepared with workers, workersLog }

/-! ### The workers -/

/-- The options of the pool can be read as these numbers and these sets of cores. -/
structure PoolNumbers (options : ConfigImpl) (initWorkers maxWorkers : UInt64) (worker exclude : Finset UInt64) :
    Prop where
  /-- `thread-workers`. -/
  init : stoul (threadWorkers options) = .ok initWorkers
  /-- `thread-limit`. -/
  max : stoul (threadLimit options) = .ok maxWorkers
  /-- `core-bind`. -/
  bind : expand (coreBind options) = .ok worker
  /-- `core-exclude`. -/
  exclude : expand (coreExclude options) = .ok exclude

/-- With these numbers there is a pool: at least one worker to begin with, no more of them than the limit, and a core
to bind them to. -/
def PoolPossible (hardwareConcurrency : UInt32) (initWorkers maxWorkers : UInt64) (worker exclude : Finset UInt64) :
    Prop :=
  initWorkers ≠ 0 ∧ initWorkers ≤ maxWorkers ∧
    ∃ core, ThreadPool.Chosen hardwareConcurrency.toUInt64 worker exclude core

variable {walk : WalkOrder} {hardwareConcurrency : UInt32} {initWorkers maxWorkers : UInt64}
  {worker exclude : Finset UInt64} {options : ConfigImpl} {exn : Exn}

/-- The constructor of the pool leaves a pool exactly with numbers that are `PoolPossible`, and else it throws a
`RuntimeException`. -/
theorem create_cases (walk : WalkOrder) (initWorkers maxWorkers : UInt64) (worker exclude : Finset UInt64)
    (coreBinding : Text) (hthreads : hardwareConcurrency ≠ 0) :
    (PoolPossible hardwareConcurrency initWorkers maxWorkers worker exclude ∧
        ∃ pool, ThreadPool.create walk hardwareConcurrency initWorkers maxWorkers coreBinding worker exclude
            = .ok pool ∧
          pool.Valid hardwareConcurrency initWorkers maxWorkers worker exclude) ∨
      (¬ PoolPossible hardwareConcurrency initWorkers maxWorkers worker exclude ∧
        ∃ what, ThreadPool.create walk hardwareConcurrency initWorkers maxWorkers coreBinding worker exclude =
          .error (.throws (.runtimeException what))) := by
  have hpos : hardwareConcurrency.toUInt64 ≠ 0 := by
    intro hzero
    refine hthreads (UInt32.toNat_inj.mp ?_)
    rw [← UInt32.toNat_toUInt64, hzero]
    rfl
  have hpromised : ThreadPool.Promised hardwareConcurrency initWorkers maxWorkers worker exclude _ :=
    ThreadPool.create_promised walk initWorkers maxWorkers coreBinding (Or.inl hthreads)
  have hdivides : hardwareConcurrency.toUInt64 ≠ 0 ∨ worker = ∅ := Or.inl hpos
  obtain ⟨cores, hcores, hmem⟩ := ThreadPool.uniqCores_ok walk exclude hdivides
  -- The guard of the constructor, on the cores that the loops have left.
  have hguard : PoolPossible hardwareConcurrency initWorkers maxWorkers worker exclude ↔
      ¬ (walk.elements cores = [] ∨ initWorkers = 0 ∨ maxWorkers < initWorkers) := by
    have hne : walk.elements cores ≠ [] ↔
        ∃ core, ThreadPool.Chosen hardwareConcurrency.toUInt64 worker exclude core := by
      simp only [← hmem, ← walk.mem_elements]
      exact ⟨List.exists_mem_of_ne_nil _, fun ⟨core, hcore⟩ => List.ne_nil_of_mem hcore⟩
    rw [PoolPossible, ← hne, not_or, not_or, UInt64.not_lt, ← and_assoc, and_comm]
  cases hcreate : ThreadPool.create walk hardwareConcurrency initWorkers maxWorkers coreBinding worker exclude with
  | ok pool =>
      rw [hcreate] at hpromised
      refine Or.inl ⟨hguard.mpr fun hrefused => ?_, pool, rfl, hpromised⟩
      rw [ThreadPool.create, hcores] at hcreate
      simp [bind, Except.bind, hrefused] at hcreate
  | error failure =>
      rw [hcreate] at hpromised
      refine Or.inr ⟨fun hpossible => ?_, ?_⟩
      · have hbelow : ∀ core ∈ walk.elements cores, core.toNat < 2 ^ 32 := fun core hcore => by
          have hlt := ((hmem core).mp ((walk.mem_elements cores core).mp hcore)).lt (Or.inl hpos)
          have hthreads := hardwareConcurrency.toNat_lt
          rw [UInt32.toNat_toUInt64] at hlt
          omega
        have hlength := ThreadPool.length_le_of_lt (walk.nodup cores) hbelow
        obtain ⟨hne, -, -⟩ := not_or.mp (hguard.mp hpossible) |>.imp_right not_or.mp
        obtain ⟨hired, index, hhired, -⟩ :=
          ThreadPool.hireCores_ok hne (by omega) initWorkers.toNat 0
        rw [ThreadPool.create, hcores] at hcreate
        simp only [bind, Except.bind, dif_neg (hguard.mp hpossible), hhired] at hcreate
        cases hcreate
      · cases failure with
        | throws exn =>
            cases exn with
            | runtimeException what => exact ⟨what, rfl⟩
            | stdException what => exact hpromised.elim
        | divisionByZero => exact hpromised.elim
        | outOfBounds => exact hpromised.elim

/-- What `expandItem` throws for an item of a list of cores is a `std::exception`. -/
theorem exists_eq_of_expandItem_eq_error {result : List UInt64} {item : Text}
    (h : expandItem result item = .error exn) : ∃ what, exn = .stdException what := by
  unfold expandItem at h
  split at h
  · rename_i only _
    cases honly : stoul only with
    | error exn' =>
        rw [honly] at h
        obtain rfl := Except.error.inj h
        exact exists_eq_of_stoul_eq_error honly
    | ok value =>
        rw [honly] at h
        cases h
  · rename_i first last _
    cases hlast : stoul (if last = [] then first else last) with
    | error exn' =>
        rw [hlast] at h
        obtain rfl := Except.error.inj h
        exact exists_eq_of_stoul_eq_error hlast
    | ok t =>
        rw [hlast] at h
        cases hfirst : stoul first with
        | error exn' =>
            rw [hfirst] at h
            obtain rfl := Except.error.inj h
            exact exists_eq_of_stoul_eq_error hfirst
        | ok f =>
            rw [hfirst] at h
            cases h
  · cases h

/-- What `expand` throws for a list of cores is a `std::exception`. -/
theorem exists_eq_of_expand_eq_error {range : Text} (h : expand range = .error exn) :
    ∃ what, exn = .stdException what := by
  have hloop : ∀ (items : List Text) (result : List UInt64), items.foldlM expandItem result = .error exn →
      ∃ what, exn = .stdException what := by
    intro items
    induction items with
    | nil =>
        intro result hresult
        cases hresult
    | cons item items ih =>
        intro result hresult
        rw [List.foldlM_cons] at hresult
        cases hitem : expandItem result item with
        | error exn' =>
            rw [hitem] at hresult
            obtain rfl := Except.error.inj hresult
            exact exists_eq_of_expandItem_eq_error hitem
        | ok result' =>
            rw [hitem] at hresult
            exact ih result' hresult
  unfold expand at h
  split at h
  · cases h
  · cases hitems : ((explode .comma range (-1)).map trim).foldlM expandItem [] with
    | error exn' =>
        simp only [hitems] at h
        obtain rfl := Except.error.inj h
        exact hloop _ _ hitems
    | ok numbers =>
        simp only [hitems] at h
        cases h

/-- When the options of the pool cannot be read as numbers and cores, its constructor throws a `std::exception`. -/
theorem new_of_not_numbers (walk : WalkOrder) (hardwareConcurrency : UInt32)
    (hnot : ¬ ∃ initWorkers maxWorkers worker exclude,
      PoolNumbers options initWorkers maxWorkers worker exclude) :
    ∃ what, ThreadPool.new walk hardwareConcurrency (threadWorkers options) (threadLimit options)
      (coreBind options) (coreExclude options) = .error (.throws (.stdException what)) := by
  unfold ThreadPool.new
  cases hinit : stoul (threadWorkers options) with
  | error exn =>
      obtain ⟨what, rfl⟩ := exists_eq_of_stoul_eq_error hinit
      exact ⟨what, rfl⟩
  | ok initWorkers =>
      cases hmax : stoul (threadLimit options) with
      | error exn =>
          obtain ⟨what, rfl⟩ := exists_eq_of_stoul_eq_error hmax
          exact ⟨what, rfl⟩
      | ok maxWorkers =>
          cases hworker : expand (coreBind options) with
          | error exn =>
              obtain ⟨what, rfl⟩ := exists_eq_of_expand_eq_error hworker
              exact ⟨what, rfl⟩
          | ok worker =>
              cases hexclude : expand (coreExclude options) with
              | error exn =>
                  obtain ⟨what, rfl⟩ := exists_eq_of_expand_eq_error hexclude
                  exact ⟨what, rfl⟩
              | ok exclude =>
                  exact absurd ⟨initWorkers, maxWorkers, worker, exclude, hinit, hmax, hworker, hexclude⟩ hnot

/-- When the options of the pool can be read as numbers and cores, its constructor creates the pool with them. -/
theorem new_of_numbers (walk : WalkOrder) (hardwareConcurrency : UInt32)
    (h : PoolNumbers options initWorkers maxWorkers worker exclude) :
    ThreadPool.new walk hardwareConcurrency (threadWorkers options) (threadLimit options) (coreBind options)
        (coreExclude options) =
      ThreadPool.create walk hardwareConcurrency initWorkers maxWorkers (coreBind options) worker exclude := by
  rw [ThreadPool.new, h.init, h.max, h.bind, h.exclude]
  rfl

/-- When the constructor leaves a pool, `initThreadPool` returns it: its log lines can be written, since the pool has
a core. -/
theorem initThreadPool_of_new {workers : ThreadPool.Created}
    (hnew : ThreadPool.new walk hardwareConcurrency (threadWorkers options) (threadLimit options)
      (coreBind options) (coreExclude options) = .ok workers) :
    ∃ lines, initThreadPool walk hardwareConcurrency options = .ok (workers, lines) := by
  have hne : workers.poolWorkersBinding.map (fun core => numberText core.toNat) ≠ [] := by
    rw [Ne, List.map_eq_nil_iff]
    exact workers.binding_ne_nil
  have hcores := implodeLoop_eq (bytes ", ") hne []
  unfold initThreadPool
  rw [hnew]
  simp only [bind, Except.bind, implode, hcores]
  exact ⟨_, rfl⟩

/-- How the startup ends on a machine with hardware threads, when the parts in front of the pool have succeeded and
the threads that the pool asks for start. With options that can be read and fit together, it reaches the main loop
with the pool that they ask for; with options that cannot be read it exits with a code and a line in the log. But with
numbers that do not fit together, no worker or more of them than the limit or no core, it is terminated: the
`RuntimeException` that the constructor throws for them is no `std::exception` that `Kernel::Run` could catch. -/
theorem start_of_prepare (system : System μ) (hthreads : system.hardwareConcurrency ≠ 0) (prepared : Prepared μ)
    (hprepare : prepare system = .ok prepared) :
    (∀ initWorkers maxWorkers worker exclude,
        PoolNumbers (poolOptions prepared.config) initWorkers maxWorkers worker exclude →
        (PoolPossible system.hardwareConcurrency initWorkers maxWorkers worker exclude →
          ∃ started, start system = .ok started ∧ started.toPrepared = prepared ∧
            started.workers.Valid system.hardwareConcurrency initWorkers maxWorkers worker exclude) ∧
        (¬ PoolPossible system.hardwareConcurrency initWorkers maxWorkers worker exclude →
          start system = .error .terminate)) ∧
      ((¬ ∃ initWorkers maxWorkers worker exclude,
          PoolNumbers (poolOptions prepared.config) initWorkers maxWorkers worker exclude) →
        ∃ what, start system = .error (.exit what)) := by
  refine ⟨fun initWorkers maxWorkers worker exclude hnumbers => ?_, fun hnot => ?_⟩
  · have hnew := new_of_numbers system.walk system.hardwareConcurrency hnumbers
    rcases create_cases system.walk initWorkers maxWorkers worker exclude
        (coreBind (poolOptions prepared.config)) hthreads with
      ⟨hpossible, pool, hcreate, hvalid⟩ | ⟨himpossible, what, hcreate⟩
    · refine ⟨fun _ => ?_, fun h => absurd hpossible h⟩
      obtain ⟨lines, hinit⟩ := initThreadPool_of_new (hnew.trans hcreate)
      refine ⟨⟨prepared, pool, lines⟩, ?_, rfl, hvalid⟩
      unfold start
      rw [hprepare]
      simp only [bind, Except.bind, hinit, Except.mapError]
      rfl
    · refine ⟨fun h => absurd h himpossible, fun _ => ?_⟩
      unfold start initThreadPool
      rw [hprepare]
      simp only [bind, Except.bind, hnew, hcreate, Except.mapError]
      rfl
  · obtain ⟨what, hnew⟩ := new_of_not_numbers system.walk system.hardwareConcurrency hnot
    refine ⟨what, ?_⟩
    unfold start initThreadPool
    rw [hprepare]
    simp only [bind, Except.bind, hnew, Except.mapError]
    rfl

/-! ### What there is at the main loop -/

/-- What is known of a startup that has come to `initThreadPool`: each part in front of it has succeeded. -/
structure PreparedBy (system : System μ) (prepared : Prepared μ) : Prop where
  /-- The configuration has been read. -/
  config : readFiberConfig system.file = .ok prepared.config
  /-- `initMQ` has returned. -/
  mq : initMQ ((prepared.config.index (bytes "fiber")).index (bytes "mq")) system.programDir system.fiberRegistry ∅ =
    some prepared.mq
  /-- `initMQ` has loaded a module. -/
  num_ne_zero : prepared.mq.num ≠ 0
  /-- `initChannels` has returned. -/
  channels : prepared.channels =
    initChannels (prepared.config.index (bytes "channel")) prepared.mq.classes prepared.sapi.classes
  /-- `initRoutes` has. -/
  routes : initRoutes system.modules prepared.mq.classes (system.channelOrder prepared.channels.channels) =
    .ok prepared.routes
  /-- `initRoutes` has entered a route. -/
  numChannels_ne_zero : prepared.routes.numChannels ≠ 0
  /-- `initServer` has returned. -/
  server : initServer ((prepared.config.index (bytes "fiber")).index (bytes "server")) system.strerror
    system.calls = .ok prepared.server
  /-- `initServer` has opened a socket. -/
  numListeners_ne_zero : prepared.server.numListeners ≠ 0

variable {system : System μ} {prepared : Prepared μ}

theorem loaded_eq_ok_iff {result : Option ModuleLoad} {modules : ModuleLoad} :
    loaded result = .ok modules ↔ result = some modules := by
  cases result <;> simp [loaded]

theorem require_eq_ok_iff {num : ℕ} {what : Text} {u : Unit} : require num what = .ok u ↔ num ≠ 0 := by
  by_cases hnum : num = 0 <;> simp [require, hnum]

theorem mapError_eq_ok_iff {ε ε' α : Type} {f : ε → ε'} {x : Except ε α} {a : α} :
    x.mapError f = .ok a ↔ x = .ok a := by
  cases x <;> simp [Except.mapError]

/-- A `prepare` that succeeds leaves what `PreparedBy` says. -/
theorem preparedBy (h : prepare system = .ok prepared) : PreparedBy system prepared := by
  obtain ⟨config, hconfig, h⟩ := bind_eq_ok_iff.mp h
  obtain ⟨mq, hmq, h⟩ := bind_eq_ok_iff.mp h
  obtain ⟨_, hnum, h⟩ := bind_eq_ok_iff.mp h
  obtain ⟨sapi, -, h⟩ := bind_eq_ok_iff.mp h
  obtain ⟨_, -, h⟩ := bind_eq_ok_iff.mp h
  obtain ⟨routes, hroutes, h⟩ := bind_eq_ok_iff.mp h
  obtain ⟨_, hnumChannels, h⟩ := bind_eq_ok_iff.mp h
  obtain ⟨server, hserver, h⟩ := bind_eq_ok_iff.mp h
  obtain ⟨_, hnumListeners, h⟩ := bind_eq_ok_iff.mp h
  obtain rfl := Except.ok.inj h
  exact {
    config := hconfig
    mq := loaded_eq_ok_iff.mp hmq
    num_ne_zero := require_eq_ok_iff.mp hnum
    channels := rfl
    routes := mapError_eq_ok_iff.mp hroutes
    numChannels_ne_zero := require_eq_ok_iff.mp hnumChannels
    server := mapError_eq_ok_iff.mp hserver
    numListeners_ne_zero := require_eq_ok_iff.mp hnumListeners }

/-- `AddListener` returns zero when it has added a listener, and else it has added none. -/
theorem length_conFd_of_addListener {server server' : Server} {calls : SocketCalls} {err : ℤ}
    {proto listen query_limit header_limit device port : Text} (hlisten : explode .colon listen 2 = [device, port])
    (hadd : server.addListener calls proto listen query_limit header_limit = .ok (err, server')) :
    server'.conFd.length = if err = 0 then server.conFd.length + 1 else server.conFd.length := by
  rw [addListener_eq hlisten] at hadd
  split at hadd
  · obtain ⟨⟨code, so_server⟩, -, hadd⟩ := bind_eq_ok_iff.mp hadd
    change (if code = 0 then _ else _) = _ at hadd
    split at hadd
    · obtain ⟨query, -, hadd⟩ := bind_eq_ok_iff.mp hadd
      obtain ⟨header, -, hadd⟩ := bind_eq_ok_iff.mp hadd
      obtain ⟨rfl, rfl⟩ := Prod.mk.inj (Except.ok.inj hadd)
      simp
    · rename_i hcode
      obtain ⟨rfl, rfl⟩ := Prod.mk.inj (Except.ok.inj hadd)
      rw [if_neg hcode]
  · obtain ⟨rfl, rfl⟩ := Prod.mk.inj (Except.ok.inj hadd)
    rw [if_neg (by decide)]

/-- The number of listeners that the loop of `initServer` counts is that of the sockets it has added. -/
theorem numListeners_eq (options : ConfigImpl) (strerror : ℤ → Text) (calls : ℕ → SocketCalls)
    (entries : List (Text × ℕ)) {s s' : ServerInit} (hs : s.numListeners = s.fiberServer.conFd.length)
    (h : entries.foldlM (fun s entry => initListener options strerror s entry.1 (calls entry.2)) s = .ok s') :
    s'.numListeners = s'.fiberServer.conFd.length := by
  induction entries generalizing s with
  | nil =>
      obtain rfl := Except.ok.inj h
      exact hs
  | cons entry entries ih =>
      rw [List.foldlM_cons] at h
      obtain ⟨s₁, hstep, h⟩ := bind_eq_ok_iff.mp h
      refine ih ?_ h
      have hmem := mem_of_initListener hstep
      rw [initListener_eq hmem] at hstep
      cases hadd : addSection options s.fiberServer entry.1 (calls entry.2) with
      | error stop =>
          rw [hadd] at hstep
          cases hstep
      | ok added =>
          rw [hadd] at hstep
          obtain rfl := Except.ok.inj hstep
          show (if added.1 = 0 then s.numListeners + 1 else s.numListeners) = added.2.conFd.length
          rw [length_conFd_of_addListener (explode_colon hmem) hadd, hs]

/-- A loader that has counted a module has entered a class. -/
theorem pairs_ne_nil_of_num {loader : Loader} {modules : ModuleLoad}
    (h : loader.initModules ∅ = some modules) (hnum : modules.num ≠ 0) : modules.classes.pairs ≠ [] := by
  obtain ⟨-, rfl⟩ := (@Loader.foldlM_loadModule_iff loader [] _ ⟨0, ∅, [], []⟩ modules rfl).mp h
  have hloaded : loader.loadedFrom [] loader.options.getSections ≠ [] := by
    intro hnil
    rw [Loader.afterSections, hnil] at hnum
    exact hnum rfl
  obtain ⟨name, hname⟩ := List.exists_mem_of_ne_nil _ hloaded
  have hfind : UnorderedMap.find (loader.afterSections ⟨0, ∅, [], []⟩ [] loader.options.getSections).classes name =
      some (loader.entry name) := by
    rw [Loader.afterSections, Loader.find_foldl_enter, if_pos hname]
    rfl
  exact List.ne_nil_of_mem (UnorderedMap.mem_pairs.mpr hfind)

/-- What the main loop can rely on. -/
structure Ready (started : Started μ) : Prop where
  /-- A module has been loaded. -/
  classes : started.mq.classes.pairs ≠ []
  /-- There is a channel. -/
  channels : started.channels.channels.pairs ≠ []
  /-- There is a route. -/
  routes : started.routes.routes ≠ []
  /-- Each route is that of a channel in the configuration whose modules have been loaded. -/
  routed : ∀ route ∈ started.routes.routes, ∃ ch c,
    ch ∈ (started.config.index (bytes "channel")).getSections ∧
      IsChannel (started.config.index (bytes "channel")) started.mq.classes started.sapi.classes ch c ∧
      started.channels.channels.find ch = some c ∧ route.1 = c.chUri
  /-- A socket listens. -/
  listeners : started.server.fiberServer.conFd ≠ []
  /-- The workers to begin with have been hired, each for a core of the binding. -/
  hired : started.workers.cores.length = started.workers.limits.poolInitWorkers.toNat ∧
    ∀ core ∈ started.workers.cores, core ∈ started.workers.poolWorkersBinding

/-- `hireCores` with a binding gives each of the `n` workers one core of the binding. -/
theorem cores_of_hireCores {binding cores : List UInt64} {n : ℕ} {index index' : UInt64}
    (h : ThreadPool.hireCores binding n index = .ok (cores, index')) :
    cores.length = n ∧ ∀ core ∈ cores, core ∈ binding := by
  induction n generalizing cores index with
  | zero =>
      obtain ⟨rfl, -⟩ := Prod.mk.inj (Except.ok.inj h)
      simp
  | succ n ih =>
      obtain ⟨position, -, h⟩ := bind_eq_ok_iff.mp h
      split at h
      · rename_i core hcore
        obtain ⟨⟨rest, next⟩, hrest, h⟩ := bind_eq_ok_iff.mp h
        obtain ⟨rfl, rfl⟩ := Prod.mk.inj (Except.ok.inj h)
        obtain ⟨hlength, hmem⟩ := ih hrest
        exact ⟨congrArg Nat.succ hlength, List.forall_mem_cons.mpr ⟨List.mem_of_getElem? hcore, hmem⟩⟩
      · cases h

/-- The constructor of the pool hires the workers to begin with, each on a core of the binding. -/
theorem hired_of_create {coreBinding : Text} {pool : ThreadPool.Created}
    (h : ThreadPool.create walk hardwareConcurrency initWorkers maxWorkers coreBinding worker exclude = .ok pool) :
    pool.cores.length = pool.limits.poolInitWorkers.toNat ∧
      ∀ core ∈ pool.cores, core ∈ pool.poolWorkersBinding := by
  obtain ⟨cores, -, h⟩ := bind_eq_ok_iff.mp h
  simp only at h
  split at h
  · cases h
  · obtain ⟨⟨hired, index⟩, hhired, h⟩ := bind_eq_ok_iff.mp h
    obtain rfl := Except.ok.inj h
    exact cores_of_hireCores hhired

/-- A pool that `initThreadPool` returns has been created by the constructor. -/
theorem exists_create_of_initThreadPool {workers : ThreadPool.Created} {lines : List LogLine}
    (h : initThreadPool walk hardwareConcurrency options = .ok (workers, lines)) :
    ∃ initWorkers maxWorkers coreBinding worker exclude,
      ThreadPool.create walk hardwareConcurrency initWorkers maxWorkers coreBinding worker exclude = .ok workers := by
  obtain ⟨workers', hnew, h⟩ := bind_eq_ok_iff.mp h
  obtain rfl : workers' = workers := by
    split at h
    · exact (Prod.mk.inj (Except.ok.inj h)).1
    · cases h
  obtain ⟨initWorkers, -, hnew⟩ := bind_eq_ok_iff.mp hnew
  obtain ⟨maxWorkers, -, hnew⟩ := bind_eq_ok_iff.mp hnew
  obtain ⟨worker, -, hnew⟩ := bind_eq_ok_iff.mp hnew
  obtain ⟨exclude, -, hnew⟩ := bind_eq_ok_iff.mp hnew
  exact ⟨initWorkers, maxWorkers, _, worker, exclude, hnew⟩

/-- Whatever the file, the modules, the system and the order of the channels: when `Kernel::Run` comes to its
main loop, a module has been loaded, there are channels and routes, each route is that of a channel that the
configuration names and whose modules have been loaded, a socket has been opened, and the pool has hired the
workers to begin with. -/
theorem ready_of_start {started : Started μ} (h : start system = .ok started) : Ready started := by
  obtain ⟨prepared, hprepare, h⟩ := bind_eq_ok_iff.mp h
  obtain ⟨⟨workers, lines⟩, hworkers, h⟩ := bind_eq_ok_iff.mp h
  obtain rfl := Except.ok.inj h
  have hprepared := preparedBy hprepare
  have horder := system.order_perm prepared.channels.channels
  have hmem := (find_initChannels_iff (prepared.config.index (bytes "channel")) prepared.mq.classes
    prepared.sapi.classes).1
  rw [← hprepared.channels] at hmem
  -- The routes, by the channels that they are made for.
  obtain ⟨exn, hthrown⟩ | ⟨r, hrun, hnum, hroutes⟩ := initRoutes_channels
    (prepared.config.index (bytes "channel")) prepared.mq.classes prepared.sapi.classes system.modules
    (system.channelOrder prepared.channels.channels) (by rwa [← hprepared.channels])
  · rw [hprepared.routes] at hthrown
    cases hthrown
  · obtain rfl := Except.ok.inj (hprepared.routes.symm.trans hrun)
    have hrouted : ∀ route ∈ prepared.routes.routes, ∃ ch c,
        ch ∈ (prepared.config.index (bytes "channel")).getSections ∧
          IsChannel (prepared.config.index (bytes "channel")) prepared.mq.classes prepared.sapi.classes ch c ∧
          prepared.channels.channels.find ch = some c ∧ route.1 = c.chUri := by
      intro route hroute
      obtain ⟨front, ch, c, back, -, hsection, hc, hrouted⟩ := (hroutes route).mp hroute
      exact ⟨ch, c, hsection, hc, (hmem ch c).mpr ⟨hsection, hc⟩, hrouted.1⟩
    have hne : prepared.routes.routes ≠ [] := by
      intro hnil
      rw [hnil] at hnum
      exact hprepared.numChannels_ne_zero hnum
    obtain ⟨initWorkers, maxWorkers, coreBinding, worker, exclude, hcreate⟩ :=
      exists_create_of_initThreadPool (mapError_eq_ok_iff.mp hworkers)
    exact {
      classes := pairs_ne_nil_of_num hprepared.mq hprepared.num_ne_zero
      channels := by
        obtain ⟨route, hroute⟩ := List.exists_mem_of_ne_nil _ hne
        obtain ⟨ch, c, -, -, hfind, -⟩ := hrouted route hroute
        exact List.ne_nil_of_mem (UnorderedMap.mem_pairs.mpr hfind)
      routes := hne
      routed := hrouted
      listeners := by
        have hcount := numListeners_eq _ _ _ _ rfl hprepared.server
        intro hnil
        rw [hnil] at hcount
        exact hprepared.numListeners_ne_zero hcount
      hired := hired_of_create hcreate }

/-- A system on which everything in front of the pool succeeds; its configuration asks for the given number of
workers, and for the core 1. -/
def smallSystem (threadWorkers : Text) : System ℕ where
  file := .ok (bytes "[fiber]\n[[server]]\n[[[http]]]\nlisten=:80\n[[mq]]\n[[[q]]]\nclass=Q\nmodule=m\n[channel]\n" ++
    bytes "[[c]]\nchannel-endpoint=q://c/\n[fiber]\n[[pool]]\ncore-bind=1\nthread-workers=" ++ threadWorkers)
  programDir := bytes "/bin/"
  fiberRegistry := fun _ => .returned true
  channelOrder := UnorderedMap.pairs
  order_perm := fun channels => List.Perm.refl channels.pairs
  modules := fun _ => .initialized 7
  strerror := fun _ => []
  calls := fun _ => openSocket
  walk := ThreadPool.ascending
  hardwareConcurrency := 4

/-- On `smallSystem` without workers to begin with, the startup ends in `std::terminate`. -/
theorem start_of_prepare_idle : start (smallSystem (bytes "0")) = .error .terminate := by
  have hoptions : (prepare (smallSystem (bytes "0"))).toOption.map (fun prepared =>
      (threadWorkers (poolOptions prepared.config), threadLimit (poolOptions prepared.config),
        coreBind (poolOptions prepared.config), coreExclude (poolOptions prepared.config))) =
        some (bytes "0", bytes "100", bytes "1", []) := by
    decide +kernel
  cases hprepare : prepare (smallSystem (bytes "0")) with
  | error stop =>
      rw [hprepare] at hoptions
      cases hoptions
  | ok prepared =>
      rw [hprepare] at hoptions
      obtain ⟨hinit, hrest⟩ := Prod.mk.inj (Option.some.inj hoptions)
      obtain ⟨hmax, hrest⟩ := Prod.mk.inj hrest
      obtain ⟨hbind, hexclude⟩ := Prod.mk.inj hrest
      have hnumbers : PoolNumbers (poolOptions prepared.config) 0 100 {1} ∅ := by
        refine ⟨?_, ?_, ?_, ?_⟩
        · rw [hinit]
          decide +kernel
        · rw [hmax]
          decide +kernel
        · rw [hbind]
          decide +kernel
        · rw [hexclude]
          decide +kernel
      exact ((start_of_prepare _ (by decide) prepared hprepare).1 0 100 {1} ∅ hnumbers).2 fun h => h.1 rfl

/-- On `smallSystem` with two workers to begin with, the startup reaches the main loop. -/
theorem ready_of_start_small : ∃ started, start (smallSystem (bytes "2")) = .ok started ∧ Ready started := by
  have hisSome : (start (smallSystem (bytes "2"))).toOption.isSome = true := by decide +kernel
  cases hstart : start (smallSystem (bytes "2")) with
  | error stop =>
      rw [hstart] at hisSome
      cases hisSome
  | ok started => exact ⟨started, rfl, ready_of_start hstart⟩

end Kernel

end NavekFiber
