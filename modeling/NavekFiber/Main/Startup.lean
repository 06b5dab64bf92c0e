import NavekFiber.Main.Config
import NavekFiber.Main.RequestImpl
import NavekFiber.Net.AddListener

/-! # The startup of the kernel

`Kernel::Run` loads the modules that the configuration names and opens the sockets it asks for, one section
after the other. What the module registry of the process answers is a parameter: it may refuse a module,
load it or throw.

* `Loader.initModules`: the loop that `initMQ` and `initSAPI` share.
* `initServer`: the loop over the listener sections. -/

namespace NavekFiber

open RequestImpl Utils

/-- A line that `log_option` prints. -/
structure LogLine where
  /-- What the line is about. -/
  option : Text
  /-- The message. -/
  message : Text
  deriving DecidableEq, Repr

/-- How a call of `EmplaceServer` ends. -/
inductive Emplaced
  /-- The call returns. -/
  | returned (result : Bool)
  /-- The call throws. -/
  | thrown
  deriving DecidableEq, Repr

/-- What `Dom::Client::Manager` answers to a call of `EmplaceServer`, after the calls before it. A call has the
name of the module file and that of the interface. -/
abbrev Registry := List (Text × Text) → Emplaced

/-- The state of the loop over the module sections. -/
structure ModuleLoad where
  /-- `numMQ`, `numSAPI`. -/
  num : ℕ
  /-- `ClassesMq`, `ClassesSAPI`. -/
  classes : UnorderedMap Text (Text × ConfigImpl)
  /-- The calls of `EmplaceServer`. -/
  calls : List (Text × Text)
  /-- What has been logged. -/
  log : List LogLine

/-- What the loop over the module sections runs with: its options, the directory of the program, the words for
`log_option` and `EmplaceServer`, and the registry. -/
structure Loader where
  /-- `options`. -/
  options : ConfigImpl
  /-- `GetProgramDir()`. -/
  programDir : Text
  /-- What the lines in the log are about. -/
  area : Text
  /-- The interface. -/
  interface : Text
  /-- `fiberRegistry`. -/
  fiberRegistry : Registry

namespace Loader

variable (loader : Loader)

/-- The directory of the modules. -/
def modulesPath : Text := cString (loader.options.getConfigValue (bytes "modules-dir") loader.programDir)

/-- The options of a module section. -/
def sectionOptions (name : Text) : ConfigImpl := loader.options.index (cString name)

/-- The class of a module section. -/
def className (name : Text) : Text := cString ((loader.sectionOptions name).getConfigValue (bytes "class") [])

/-- The module file of a module section. -/
def moduleName (name : Text) : Text := cString ((loader.sectionOptions name).getConfigValue (bytes "module") [])

/-- A section has a class and a module. -/
def Named (name : Text) : Prop := loader.className name ≠ [] ∧ loader.moduleName name ≠ []

instance (name : Text) : Decidable (loader.Named name) := inferInstanceAs (Decidable (_ ∧ _))

/-- The log line for a module that has been loaded. -/
def loadedLine (name : Text) : LogLine :=
  ⟨cString (loader.area ++ bytes "." ++ name),
    bytes "Class `" ++ loader.className name ++ bytes "` (" ++ (loader.modulesPath ++ loader.moduleName name) ++
      bytes ") loaded"⟩

/-- The log line for a module that has not been loaded. -/
def notLoadedLine (name : Text) : LogLine :=
  ⟨cString (loader.area ++ bytes "." ++ name),
    bytes "<Runtime.Error> Class `" ++
      (if loader.className name = [] then bytes "`INVALID CLASS NAME`" else loader.className name) ++
      bytes "` (" ++
      (if loader.moduleName name = [] then bytes "`IVALID MODULE PATHNAME`"
        else loader.modulesPath ++ loader.moduleName name) ++
      bytes ") not loaded"⟩

/-- What the loop does with one module section. There is no result where `throw;` is met: no exception is being
handled there, and the process ends. -/
def loadModule (s : ModuleLoad) (name : Text) : Option ModuleLoad :=
  if loader.Named name then
    let calls := s.calls ++ [(loader.modulesPath ++ loader.moduleName name, loader.interface)]
    match loader.fiberRegistry calls with
    | .returned true =>
        some ⟨s.num + 1, (s.classes.emplace name (loader.className name, loader.sectionOptions name)).1, calls,
          s.log ++ [loader.loadedLine name]⟩
    | .returned false => none
    | .thrown => some { s with calls, log := s.log ++ [loader.notLoadedLine name] }
  else none

/-- The loop over the module sections. -/
def initModules (classes : UnorderedMap Text (Text × ConfigImpl)) : Option ModuleLoad :=
  loader.options.getSections.foldlM loader.loadModule ⟨0, classes, [], []⟩

end Loader

/-- What `initMQ` runs with. -/
def Loader.mq (options : ConfigImpl) (programDir : Text) (fiberRegistry : Registry) : Loader :=
  ⟨options, programDir, bytes "mq", bytes "MQ", fiberRegistry⟩

/-- What `initSAPI` runs with. -/
def Loader.sapi (options : ConfigImpl) (programDir : Text) (fiberRegistry : Registry) : Loader :=
  ⟨options, programDir, bytes "sapi", bytes "SAPI", fiberRegistry⟩

/-- `initMQ`: the loop over the sections of the queues. -/
def initMQ (options : ConfigImpl) (programDir : Text) (fiberRegistry : Registry)
    (classesMq : UnorderedMap Text (Text × ConfigImpl)) : Option ModuleLoad :=
  (Loader.mq options programDir fiberRegistry).initModules classesMq

/-- `initSAPI`: the loop over the sections of the handlers. -/
def initSAPI (options : ConfigImpl) (programDir : Text) (fiberRegistry : Registry)
    (classesSapi : UnorderedMap Text (Text × ConfigImpl)) : Option ModuleLoad :=
  (Loader.sapi options programDir fiberRegistry).initModules classesSapi

/-! ### The listening sockets -/

/-- The state of the loop over the listener sections. -/
structure ServerInit where
  /-- `numListeners`. -/
  numListeners : ℕ
  /-- `fiberServer`. -/
  fiberServer : Server
  /-- What has been logged. -/
  log : List LogLine
  deriving DecidableEq, Repr

/-- The log line for a listener section; `strerror` is the system's text for an error. -/
def listenerLine (strerror : ℤ → Text) (proto iface port : Text) (err : ℤ) : LogLine :=
  ⟨cString (bytes "server." ++ proto),
    if err = 0 then
      bytes "Port: " ++ port ++ bytes " (Iface: " ++ (if iface = [] then bytes "any" else iface) ++
        bytes ") success initialize"
    else
      bytes "<Runtime.Error> Port: " ++ (if port = [] then bytes "INVALID PORT" else port) ++
        bytes " (Iface: " ++ (if iface = [] then bytes "any" else iface) ++ bytes "). # " ++ strerror err ++
        bytes " (" ++ numberText err ++ bytes ")."⟩

/-- An option of a listener section, as a C string. -/
def listenerOption (options : ConfigImpl) (proto : Text) (option : Text) : Text :=
  cString ((options.index (cString proto)).getConfigValue option [])

/-- What `initServer` does with one listener section, with what the system answers to its calls. -/
def initListener (options : ConfigImpl) (strerror : ℤ → Text) (s : ServerInit) (proto : Text)
    (calls : SocketCalls) : Except Stop ServerInit := do
  let listen := explode .colon (listenerOption options proto (bytes "listen")) 2
  let (err, fiberServer) ← s.fiberServer.addListener calls proto (listenerOption options proto (bytes "listen"))
    (listenerOption options proto (bytes "query-limit")) (listenerOption options proto (bytes "header-limit"))
  match listen[0]?, listen[1]? with
  | some iface, some port =>
      return ⟨if err = 0 then s.numListeners + 1 else s.numListeners, fiberServer,
        s.log ++ [listenerLine strerror proto iface port err]⟩
  | _, _ => throw .outOfRange

/-- `initServer`; `calls` gives what the system answers for each section by its number. -/
def initServer (options : ConfigImpl) (strerror : ℤ → Text) (calls : ℕ → SocketCalls) :
    Except Stop ServerInit :=
  options.getSections.zipIdx.foldlM (fun s entry => initListener options strerror s entry.1 (calls entry.2))
    ⟨0, ⟨0, []⟩, []⟩

end NavekFiber
