import NavekFiber.Main.Endpoints
import NavekFiber.Main.RequestImpl
import NavekFiber.Mq.SyncQueueOrder
import NavekFiber.Mq.SyncSapi
import NavekFiber.Utils.TimePeriod

/-! # The options of the queue classes: `Initialize`

Both classes read their limits from the object that they are given as the configuration, but only when its
`QueryInterface` finds `IConfig`. The kernel gives them the section of their channel, a `ConfigImpl`, and the
`QueryInterface` of `ConfigImpl` returns `false`. So the options of a channel are never read, and `mq_options`
stays what it is in the memory of the object. Reading it there, where nothing has set it, is taken to give some
value, and the results are for every value.

* `ConfigObject`, `ConfigImpl.object`: what is passed as a configuration.
* `SyncQueueHandler.initializeWith`, `SyncSAPIHandler.initializeWith`: `Initialize`.
* `SyncSapi.threads_of_channel`: for which values of `LimitTasks` no message is ever answered.
* `SyncQueue.refuses_iff`: when a `Put` is refused. -/

namespace NavekFiber

open RequestImpl Utils

/-- An object that is passed to `Initialize` as the configuration: whether it says that it implements `IConfig`, and
how it answers. -/
structure ConfigObject where
  /-- What `QueryInterface` returns when it is asked for `IConfig`. -/
  queryInterface : Bool
  /-- `GetConfigValue`. -/
  getConfigValue : Text → Text → Text

/-- `ConfigImpl::QueryInterface`. -/
def ConfigImpl.queryInterface (_self : ConfigImpl) : Bool := false

/-- A `ConfigImpl` as the object that the kernel passes to `Initialize`. -/
def ConfigImpl.object (self : ConfigImpl) : ConfigObject := ⟨self.queryInterface, self.getConfigValue⟩

/-- `mq_options`. -/
structure MqOptions where
  /-- `LimitTasks`. -/
  limitTasks : UInt64
  /-- `LimitSize`. -/
  limitSize : UInt64
  /-- `LimitPeriodSec`, which nothing reads. -/
  limitPeriodSec : UInt64
  deriving DecidableEq

namespace MqOptions

/-- `std::stol` of an option in its `try` block: zero when it throws. -/
def limit (text : Text) : UInt64 :=
  match stol text with
  | .ok val => UInt64.ofInt val
  | .error _ => 0

/-- The options as both classes read them from an `IConfig`. The period is not read in a `try` block. -/
def read (config : ConfigObject) : Except Exn MqOptions := do
  let limitPeriodSec ← timePeriod (cString (config.getConfigValue (bytes "queue-limit-request") (bytes "0s")))
  let limitSize := limit (cString (config.getConfigValue (bytes "queue-limit-size") (bytes "0")))
  let limitTasks := limit (cString (config.getConfigValue (bytes "queue-limit-tasks") (bytes "0")))
  return ⟨limitTasks, limitSize, limitPeriodSec⟩

end MqOptions

namespace SyncQueueHandler

/-- The members that `SyncQueueHandler::Initialize` sets. -/
structure Settings where
  /-- `mq_name`. -/
  mqName : Text
  /-- `mq_options`, before `Initialize` whatever is in the memory of the object. -/
  mqOptions : MqOptions
  deriving DecidableEq

/-- `SyncQueueHandler::Initialize`, without `UnSerialize`, which drops all that it reads. The arguments tell
whether the kernel is one, and which object there is for the configuration. -/
def initializeWith (self : Settings) (name : Text) (kernel : Bool) (config : Option ConfigObject) :
    Except Exn (Settings × Bool) :=
  let self := { self with mqName := name }
  if kernel then
    match config.filter ConfigObject.queryInterface with
    | some config => do return ({ self with mqOptions := ← MqOptions.read config }, true)
    | none => .ok (self, true)
  else .ok (self, false)

/-- With the section of a channel as its configuration, `SyncQueueHandler::Initialize` succeeds and leaves the options
unset. -/
theorem initializeWith_configImpl (self : Settings) (name : Text) (config : ConfigImpl) :
    initializeWith self name true (some config.object) = .ok ({ self with mqName := name }, true) := rfl

/-- With the section of a channel as its configuration, `SyncQueueHandler::Initialize` keeps `mq_options` as it is. -/
theorem mqOptions_of_initializeWith {self settings : Settings} {name : Text} {config : ConfigImpl}
    (h : initializeWith self name true (some config.object) = .ok (settings, true)) :
    settings.mqOptions = self.mqOptions := by
  rw [initializeWith_configImpl] at h
  obtain ⟨rfl, -⟩ := Prod.mk.inj (Except.ok.inj h)
  rfl

end SyncQueueHandler

namespace SyncSAPIHandler

/-- The members that `SyncSAPIHandler::Initialize` sets. -/
structure Settings where
  /-- `mq_name`. -/
  mqName : Text
  /-- `mq_options`, before `Initialize` whatever is in the memory of the object. -/
  mqOptions : MqOptions
  /-- `mq_sapi_class`. -/
  mqSapiClass : Text
  /-- `mq_sapi_script`. -/
  mqSapiScript : Text
  /-- `mq_working`. -/
  mqWorking : Bool
  deriving DecidableEq

/-- `SyncSAPIHandler::Initialize`. -/
def initializeWith (self : Settings) (name : Text) (kernel : Bool) (config : Option ConfigObject) :
    Except Exn (Settings × Bool) :=
  let self := { self with mqName := name }
  if kernel then
    match config.filter ConfigObject.queryInterface with
    | some config => do
        let self := { self with mqOptions := ← MqOptions.read config }
        match parseSapiUri (cString (config.getConfigValue (bytes "channel-sapi") [])) with
        | some (mq, route) => return ({ self with mqSapiClass := mq, mqSapiScript := route, mqWorking := true }, true)
        | none => return (self, false)
    | none => .ok ({ self with mqWorking := true }, true)
  else .ok (self, false)

/-- With the section of a channel as its configuration, `SyncSAPIHandler::Initialize` succeeds and leaves the options
unset: those of the queue and the class and the script of `channel-sapi`. -/
theorem initializeWith_configImpl (self : Settings) (name : Text) (config : ConfigImpl) :
    initializeWith self name true (some config.object) =
      .ok ({ self with mqName := name, mqWorking := true }, true) := rfl

/-- With the section of a channel as its configuration, `SyncSAPIHandler::Initialize` keeps `mq_options` as it is. -/
theorem mqOptions_of_initializeWith {self settings : Settings} {name : Text} {config : ConfigImpl}
    (h : initializeWith self name true (some config.object) = .ok (settings, true)) :
    settings.mqOptions = self.mqOptions := by
  rw [initializeWith_configImpl] at h
  obtain ⟨rfl, -⟩ := Prod.mk.inj (Except.ok.inj h)
  rfl

/-- The limits of an initialized object as `Put` reads them. -/
def Settings.options (self : Settings) : Options := ⟨self.mqOptions.limitTasks.toNat, self.mqOptions.limitSize.toNat⟩

end SyncSAPIHandler

/-! ### Threads that are never started -/

namespace SyncSapi

open SyncSAPIHandler

variable {o : Options} {s s' : State} {a : Action}

/-- There is a limit on tasks, and the `int32_t` that `Put` makes of it is no positive number. -/
def Starved (o : Options) : Prop := o.limitTasks ≠ 0 ∧ Int32.ofNat o.limitTasks ≤ 0

instance (o : Options) : Decidable (Starved o) := inferInstanceAs (Decidable (_ ∧ _))

/-- While `mq_workers` is zero, `Put` starts a thread exactly when the limit does not starve the queue. -/
theorem hires_iff_not_starved (hworkers : s.handler.mqWorkers = 0) : Hires o s.handler ↔ ¬ Starved o := by
  rw [Hires, Starved, hworkers, not_and_or, not_not, Int32.not_le]

/-- A step in a state without threads at most takes a message in, and starts a thread for it when `Hires` says so. -/
theorem unattended_step (hworkers : s.workers = []) (hs : step o s a = some s') :
    s'.taken = s.taken ∧
      ((s'.workers = [] ∧ s'.handler.mqWorkers = s.handler.mqWorkers ∧ s'.handler.mqQueue = s.handler.mqQueue ∧
          s'.accepted = s.accepted) ∨
        ∃ id, s'.handler.mqQueue = s.handler.mqQueue ++ [id] ∧ s'.accepted = s.accepted ++ [id] ∧
          if Hires o s.handler then s'.workers = [.dequeuing]
          else s'.workers = [] ∧ s'.handler.mqWorkers = s.handler.mqWorkers) := by
  have hnone (w : WorkerId) : s.workers[w]? = none := by rw [hworkers]; rfl
  cases a with
  | putEnter c =>
      obtain ⟨-, rfl⟩ := step_putEnter_eq_some.mp hs
      exact ⟨rfl, Or.inl ⟨hworkers, rfl, rfl, rfl⟩⟩
  | put c id =>
      obtain ⟨-, rfl⟩ := step_put_eq_some.mp hs
      by_cases haccepts : Accepts o s.handler id
      · rw [afterPut_of_accepts c haccepts]
        refine ⟨rfl, Or.inr ⟨id, rfl, rfl, ?_⟩⟩
        by_cases hhires : Hires o s.handler <;> simp [hhires, hworkers]
      · rw [afterPut_of_not_accepts c haccepts]
        exact ⟨rfl, Or.inl ⟨hworkers, rfl, rfl, rfl⟩⟩
  | finalize =>
      obtain ⟨-, rfl⟩ := step_finalize_eq_some.mp hs
      exact ⟨rfl, Or.inl ⟨hworkers, rfl, rfl, rfl⟩⟩
  -- There is no thread that could take a step.
  | dequeue w => simp [step, hnone] at hs
  | reply w result => simp [step, hnone] at hs
  | excuse w result => simp [step, hnone] at hs
  | testWorking w => simp [step, hnone] at hs
  | testQueue w => simp [step, hnone] at hs
  | leave w => simp [step, hnone] at hs

/-- No thread has been started, and what has been accepted waits. -/
structure Unattended (s : State) : Prop where
  /-- There is no thread. -/
  workers : s.workers = []
  /-- None is counted. -/
  mqWorkers : s.handler.mqWorkers = 0
  /-- Nothing has been taken. -/
  taken : s.taken = []
  /-- All that has been accepted is queued. -/
  queue : s.handler.mqQueue = s.accepted

/-- The initial state is `Unattended`: no thread has been started and nothing waits. -/
theorem Unattended.init : Unattended State.init := ⟨rfl, rfl, rfl, rfl⟩

/-- When the limit starves the queue, every step keeps the state `Unattended`: no step starts a thread. -/
theorem Unattended.preserved (hu : Unattended s) (hstarved : Starved o) (hs : step o s a = some s') :
    Unattended s' := by
  have hhires : ¬ Hires o s.handler := fun h => (hires_iff_not_starved hu.mqWorkers).mp h hstarved
  obtain ⟨htaken, ⟨hworkers, hcount, hqueue, haccepted⟩ | ⟨id, hqueue, haccepted, hthread⟩⟩ :=
    unattended_step hu.workers hs
  · exact ⟨hworkers, hcount.trans hu.mqWorkers, htaken.trans hu.taken, by rw [hqueue, haccepted, hu.queue]⟩
  · rw [if_neg hhires] at hthread
    exact ⟨hthread.1, hthread.2.trans hu.mqWorkers, htaken.trans hu.taken, by rw [hqueue, haccepted, hu.queue]⟩

/-- No step of the machine takes a thread off the list `mq_workers`, not even one that ends it. -/
theorem length_workers_step (hs : step o s a = some s') : s.workers.length ≤ s'.workers.length := by
  cases a with
  | putEnter c =>
      obtain ⟨-, rfl⟩ := step_putEnter_eq_some.mp hs
      exact le_rfl
  | put c id =>
      obtain ⟨-, rfl⟩ := step_put_eq_some.mp hs
      simp only [State.afterPut]
      split <;> simp
  | dequeue w =>
      obtain ⟨-, rfl⟩ := step_dequeue_eq_some.mp hs
      simp [State.afterDequeue, State.setWorker]
  | reply w result =>
      obtain ⟨msgid, request, -, rfl⟩ := step_reply_eq_some.mp hs
      simp [State.afterReply, State.setWorker]
  | excuse w result =>
      obtain ⟨-, rfl⟩ := step_excuse_eq_some.mp hs
      simp [State.afterExcuse, State.setWorker]
  | testWorking w =>
      obtain ⟨-, rfl⟩ := step_testWorking_eq_some.mp hs
      simp [State.afterTestWorking, State.setWorker]
  | testQueue w =>
      obtain ⟨-, rfl⟩ := step_testQueue_eq_some.mp hs
      simp [State.afterTestQueue, State.setWorker]
  | leave w =>
      obtain ⟨-, rfl⟩ := step_leave_eq_some.mp hs
      simp [State.afterLeave, State.setWorker]
  | finalize =>
      obtain ⟨-, rfl⟩ := step_finalize_eq_some.mp hs
      exact le_rfl

/-- When the limit does not starve the queue, each step keeps it so that a thread has been started once a message has
been accepted. -/
theorem attended_step (hstarved : ¬ Starved o)
    (hi : s.workers = [] → s.accepted = [] ∧ s.handler.mqWorkers = 0) (hs : step o s a = some s') :
    s'.workers = [] → s'.accepted = [] ∧ s'.handler.mqWorkers = 0 := by
  intro hnone
  have hworkers : s.workers = [] := by
    have hle := length_workers_step hs
    rw [hnone, List.length_nil] at hle
    exact List.eq_nil_of_length_eq_zero (by omega)
  obtain ⟨hempty, hcount⟩ := hi hworkers
  obtain ⟨-, ⟨-, hcount', -, haccepted⟩ | ⟨id, -, -, hthread⟩⟩ := unattended_step hworkers hs
  · exact ⟨haccepted.trans hempty, hcount'.trans hcount⟩
  · rw [if_pos ((hires_iff_not_starved hcount).mpr hstarved)] at hthread
    rw [hthread] at hnone
    cases hnone

/-- `LimitTasks` is not zero, and its last 32 bits are no positive `int32_t`. -/
def NoThreads (limitTasks : UInt64) : Prop := limitTasks ≠ 0 ∧ (limitTasks.toNat : ℤ).bmod (2 ^ 32) ≤ 0

instance (limitTasks : UInt64) : Decidable (NoThreads limitTasks) := inferInstanceAs (Decidable (_ ∧ _))

/-- The limits that starve a queue are those for which `NoThreads` holds. -/
theorem starved_iff (settings : Settings) : Starved settings.options ↔ NoThreads settings.mqOptions.limitTasks := by
  have hzero : (0 : Int32).toInt = 0 := rfl
  rw [Starved, NoThreads, Int32.le_iff_toInt_le, Int32.toInt_ofNat', hzero]
  refine and_congr_left fun _ => not_congr ?_
  rw [← UInt64.toNat_inj]
  exact Iff.rfl

/-- In every run of an object of the script queue class that the kernel has initialized for a channel, whatever
the section of the channel says: `mq_options` is what was in the memory of the object. Once a message has been
accepted, a thread has been started, except where `LimitTasks` is a value such as `2 ^ 64 - 1` or `2 ^ 32`,
which is not zero but makes no positive `int32_t`. There no thread is ever started, and every message that is
accepted stays in the queue. -/
theorem threads_of_channel {self settings : Settings} {name : Text} {config : ConfigImpl} {as : List Action}
    (h : initializeWith self name true (some config.object) = .ok (settings, true))
    (hexec : (machine settings.options).exec State.init as = some s) :
    settings.mqOptions = self.mqOptions ∧
      (s.accepted ≠ [] → (s.workers = [] ↔ NoThreads self.mqOptions.limitTasks)) ∧
      (NoThreads self.mqOptions.limitTasks →
        s.workers = [] ∧ s.taken = [] ∧ s.handler.mqQueue = s.accepted) := by
  have hoptions := mqOptions_of_initializeWith h
  have hstarvedIff := starved_iff settings
  rw [hoptions] at hstarvedIff
  have hunattended : NoThreads self.mqOptions.limitTasks → Unattended s := fun hnone =>
    Machine.exec_invariant (fun _ _ _ hu hs => Unattended.preserved hu (hstarvedIff.mpr hnone) hs) as
      Unattended.init hexec
  refine ⟨hoptions, fun hsome => ⟨fun hworkers => ?_, fun hnone => (hunattended hnone).workers⟩, fun hnone =>
    ⟨(hunattended hnone).workers, (hunattended hnone).taken, (hunattended hnone).queue⟩⟩
  by_contra hthreads
  have hattended := Machine.exec_invariant
    (I := fun s => s.workers = [] → s.accepted = [] ∧ s.handler.mqWorkers = 0)
    (fun _ _ _ hi hs => attended_step (fun hstarved => hthreads (hstarvedIff.mp hstarved)) hi hs) as
    (fun _ => ⟨rfl, rfl⟩) hexec
  exact hsome (hattended hworkers).1

/-- The section of a channel that sets its limits. -/
def limitedChannel : ConfigImpl :=
  ⟨((∅ : UnorderedMap Text ConfigValue).emplace (bytes "channel.a") ⟨[],
      (((∅ : UnorderedMap Text Text).emplace (bytes "queue-limit-tasks") (bytes "3")).1.emplace
        (bytes "queue-limit-size") (bytes "3")).1⟩).1,
    bytes "channel.a"⟩

/-- For an object whose memory has all bits set, in a channel whose configuration allows three tasks, the first
message is accepted and nobody answers it. -/
theorem threads_of_channel_starved :
    ∃ settings s, initializeWith ⟨[], ⟨18446744073709551615, 0, 0⟩, [], [], false⟩ (bytes "a") true
        (some limitedChannel.object) = .ok (settings, true) ∧
      (machine settings.options).exec State.init [.putEnter 0, .put 0 7] = some s ∧
      s.accepted = [7] ∧ s.handler.mqQueue = [7] ∧ s.workers = [] := by
  have hinit := initializeWith_configImpl ⟨[], ⟨18446744073709551615, 0, 0⟩, [], [], false⟩ (bytes "a")
    limitedChannel
  have hexec : (machine ⟨18446744073709551615, 0⟩).exec State.init [.putEnter 0, .put 0 7] = some _ := rfl
  obtain ⟨-, -, hstays⟩ := threads_of_channel hinit hexec
  obtain ⟨hworkers, -, hqueue⟩ := hstays (by decide)
  exact ⟨_, _, hinit, hexec, rfl, hqueue, hworkers⟩

end SyncSapi

/-! ### Messages that are refused -/

namespace SyncQueue

open SyncQueueHandler

variable {limitSize : ℕ} {s s' : State} {a : Action} {c : CallId} {id : MsgId}

/-- The queue keeps to its limit, when there is one. -/
def QueueBounded (limitSize : ℕ) (s : State) : Prop := limitSize ≠ 0 → s.handler.mqQueue.length ≤ limitSize

/-- In a `QueueBounded` state there is no room exactly when there is a limit and the queue has that many messages, as
it never has more. -/
theorem QueueBounded.room_iff (hi : QueueBounded limitSize s) :
    (limitSize = 0 ∨ s.handler.mqQueue.length < limitSize) ↔
      ¬ (limitSize ≠ 0 ∧ s.handler.mqQueue.length = limitSize) := by
  unfold QueueBounded at hi
  omega

/-- Every step keeps the state `QueueBounded`. -/
theorem QueueBounded.preserved (hi : QueueBounded limitSize s) (hs : step limitSize s a = some s') :
    QueueBounded limitSize s' := by
  intro hlimit
  have hle := hi hlimit
  cases a with
  | put c id =>
      obtain ⟨-, rfl⟩ := step_put_eq_some.mp hs
      by_cases hroom : s.handler.mqQueue.length < limitSize
      · simp only [State.afterPut, putSection, hlimit, hroom, or_true, if_true, List.length_append,
          List.length_singleton]
        omega
      · simpa [State.afterPut, putSection, hlimit, hroom] using hle
  | get c =>
      obtain ⟨-, rfl⟩ := step_get_eq_some.mp hs
      simp only [State.afterGet, getSection_mqQueue, List.length_tail]
      omega
  | getReply c result =>
      obtain ⟨-, rfl⟩ := step_getReply_eq_some.mp hs
      exact hle
  | postLookup c xid =>
      obtain ⟨-, rfl⟩ := step_postLookup_eq_some.mp hs
      exact hle
  | postForward c result =>
      obtain ⟨xid, xrequest, -, rfl⟩ := step_postForward_eq_some.mp hs
      exact hle
  | postErase c =>
      obtain ⟨xid, xrequest, -, rfl⟩ := step_postErase_eq_some.mp hs
      exact hle

/-- A call of `Put` answers 507 exactly when there is no room or the id is stored. -/
theorem calls_afterPut_eq_answering_iff :
    (s.afterPut limitSize c id).calls c = .answering 507 ↔
      ¬ (limitSize = 0 ∨ s.handler.mqQueue.length < limitSize) ∨ id ∈ s.handler.mqMessages := by
  by_cases hroom : limitSize = 0 ∨ s.handler.mqQueue.length < limitSize
  · by_cases hmem : id ∈ s.handler.mqMessages
    · simp [State.afterPut, putSection, hroom, UnorderedMap.emplace_of_mem hmem, hmem]
    · simp [State.afterPut, putSection, hroom, UnorderedMap.emplace_of_notMem hmem, hmem]
  · simp [State.afterPut, putSection, hroom]

/-- In every run of an object of the queue class that the kernel has initialized for a channel, whatever the
section of the channel says: a `Put` is answered 507 exactly when its id is stored already, or when the
`LimitSize` in the memory of the object is not zero and the queue has exactly that many messages. -/
theorem refuses_iff {self settings : Settings} {name : Text} {config : ConfigImpl} {as : List Action}
    (h : initializeWith self name true (some config.object) = .ok (settings, true))
    (hexec : (machine settings.mqOptions.limitSize.toNat).exec State.init as = some s)
    (hs : step settings.mqOptions.limitSize.toNat s (.put c id) = some s') :
    s'.calls c = .answering 507 ↔
      id ∈ s.handler.mqMessages ∨
        (self.mqOptions.limitSize ≠ 0 ∧ s.handler.mqQueue.length = self.mqOptions.limitSize.toNat) := by
  have hoptions := mqOptions_of_initializeWith h
  rw [hoptions] at hexec hs
  have hi : QueueBounded self.mqOptions.limitSize.toNat s :=
    Machine.exec_invariant (fun _ _ _ hi hs => QueueBounded.preserved hi hs) as
      (fun _ => Nat.zero_le _) hexec
  have hzero : self.mqOptions.limitSize.toNat = 0 ↔ self.mqOptions.limitSize = 0 := by
    rw [← UInt64.toNat_inj]
    exact Iff.rfl
  obtain ⟨-, rfl⟩ := step_put_eq_some.mp hs
  rw [calls_afterPut_eq_answering_iff, hi.room_iff, not_not, or_comm, Ne, hzero]

/-- For an object whose memory sets a limit of one message, in a channel whose configuration allows three, the second
message is refused. -/
theorem refuses_iff_second :
    ∃ settings s s', initializeWith ⟨[], ⟨0, 1, 0⟩⟩ (bytes "a") true (some SyncSapi.limitedChannel.object) =
        .ok (settings, true) ∧
      (machine settings.mqOptions.limitSize.toNat).exec State.init [.put 0 7] = some s ∧
      step settings.mqOptions.limitSize.toNat s (.put 1 8) = some s' ∧ s'.calls 1 = .answering 507 := by
  have hinit := initializeWith_configImpl ⟨[], ⟨0, 1, 0⟩⟩ (bytes "a") SyncSapi.limitedChannel
  have hexec : (machine 1).exec State.init [.put 0 7] = some _ := rfl
  have hs : step 1 (State.afterPut 1 State.init 0 7) (.put 1 8) = some _ := rfl
  exact ⟨_, _, _, hinit, hexec, hs, (refuses_iff hinit hexec hs).mpr (Or.inr ⟨by decide, rfl⟩)⟩

end SyncQueue

end NavekFiber
