import Cyberd.Conf.Line
import Cyberd.Library.Memory

/-!
# The allocated memory of a daemon configuration

What `daemon_conf.c` does to the pointers of a record: the copies of the values, the
lists that grow by `realloc(3)`, and what is freed. Any allocation may fail. The
parsers that allocate nothing are the ones of the plain record.
-/

namespace Cyberd

open Library Library.Memory

instance : Faulty Trap := ⟨.badPointer⟩

/-- `struct daemon_conf`, none for a null pointer. -/
structure StoredConf where
  /-- `path` -/
  path : Option Nat
  /-- `arguments` -/
  arguments : Option Nat
  /-- `environment` -/
  environment : Option Nat
  /-- `workdir` -/
  workdir : Option Nat
  /-- `in` -/
  stdin : Option Nat
  /-- `out` -/
  stdout : Option Nat
  /-- `err` -/
  stderr : Option Nat
  /-- `sigfinish` -/
  sigfinish : Nat
  /-- `sigreload` -/
  sigreload : Nat
  /-- `uid` -/
  uid : Nat
  /-- `gid` -/
  gid : Nat
  /-- `nosid` -/
  nosid : Bool
  /-- `umask` -/
  umask : Nat
  /-- `priority` -/
  priority : Int
  /-- `start` -/
  start : Start
  deriving DecidableEq, Repr

/-- The pointers of `struct daemon`. -/
structure StoredDaemon where
  /-- `name` -/
  name : Option Nat
  /-- `conf` -/
  conf : StoredConf
  deriving DecidableEq, Repr

/-- What is allocated. -/
inductive Block
  /-- A string, without its terminating byte. -/
  | string (bytes : Name)
  /-- An array of pointers, none for one that was not assigned. -/
  | array (pointers : List (Option (Option Nat)))
  /-- A `struct daemon`, none when it was not assigned. -/
  | daemon (daemon : Option StoredDaemon)
  deriving DecidableEq, Repr

/-- A function that allocates. -/
abbrev HeapM : Type → Type := MemoryM Trap Block

/-- A value parser on the memory. -/
abbrev StoredParser := StoredConf → Name → Option Name → HeapM (Int × StoredConf)

/-- The fields that are not pointers. -/
def DaemonConf.scalars (conf : DaemonConf) : DaemonConf :=
  { conf with
    path := none, arguments := none, environment := none, workdir := none, stdin := none,
    stdout := none, stderr := none }

/-- The fields that are not pointers. -/
def StoredConf.scalars (conf : StoredConf) : DaemonConf where
  path := none
  arguments := none
  environment := none
  workdir := none
  stdin := none
  stdout := none
  stderr := none
  sigfinish := conf.sigfinish
  sigreload := conf.sigreload
  uid := conf.uid
  gid := conf.gid
  nosid := conf.nosid
  umask := conf.umask
  priority := conf.priority
  start := conf.start

/-- The fields that are not pointers are assigned. -/
def StoredConf.assign (conf : StoredConf) (scalars : DaemonConf) : StoredConf :=
  { conf with
    sigfinish := scalars.sigfinish, sigreload := scalars.sigreload, uid := scalars.uid,
    gid := scalars.gid, nosid := scalars.nosid, umask := scalars.umask,
    priority := scalars.priority, start := scalars.start }

/-- The array with a new size, what it has more is not assigned. -/
def Block.resize (size : Nat) : Block → Block
  | .array pointers =>
    .array (pointers.take size ++ List.replicate (size - pointers.length) none)
  | block => block

namespace Stored

/-- `strdup(3)` -/
def strdup (string : Name) : HeapM (Option Nat) := malloc (.string string)

/-- `free(3)`, which does nothing for a null pointer. -/
def freePointer (pointer : Option Nat) : HeapM Unit :=
  match pointer with
  | none => return ()
  | some a => free a

/-- The pointers of an array. -/
def loadArray (a : Nat) : HeapM (List (Option (Option Nat))) := do
  match ← load a with
  | .array pointers => return pointers
  | _ => throw .badPointer

/-- `list[i]` -/
def pointerAt (pointers : List (Option (Option Nat))) (i : Nat) : Except Trap (Option Nat) :=
  match pointers[i]? with
  | none => .error .outOfBounds
  | some none => .error .badPointer
  | some (some pointer) => .ok pointer

/-- `list[i] = pointer` -/
def storePointer (a i : Nat) (pointer : Option Nat) : HeapM Unit := do
  let pointers ← loadArray a
  if i < pointers.length then store a (.array (pointers.set i (some pointer)))
  else throw .outOfBounds

/-- `for (len = 0; list[len] != NULL; len++);` -/
def listLength : List (Option (Option Nat)) → Nat → Except Trap Nat
  | [], _ => .error .outOfBounds
  | none :: _, _ => .error .badPointer
  | some none :: _, len => .ok len
  | some (some _) :: rest, len => listLength rest (len + 1)

/-- `daemon_conf_list_append`, the status and the list. -/
def daemonConfListAppend (list : Option Nat) (string : Name) : HeapM (Int × Option Nat) := do
  match ← strdup string with
  | none => return (-1, list)
  | some str =>
    let len ← match list with
      | none => pure 0
      | some a => do
        let pointers ← loadArray a
        listLength pointers 0
    let grown ← match list with
      | none => malloc (.array (List.replicate (len + 2) none))
      | some a => realloc a (Block.resize (len + 2))
    match grown with
    | none =>
      free str
      return (-1, list)
    | some a =>
      storePointer a len (some str)
      storePointer a (len + 1) none
      return (0, some a)

/-- The loop of `daemon_conf_list_free`, with what remains of the array from `i` on. -/
def freeStrings (a : Nat) : Nat → Nat → HeapM Unit
  | 0, _ => throw .outOfBounds
  | remaining + 1, i => do
    let pointers ← loadArray a
    match ← pointerAt pointers i with
    | none => return ()
    | some str =>
      free str
      freeStrings a remaining (i + 1)

/-- `daemon_conf_list_free` -/
def daemonConfListFree (list : Option Nat) : HeapM Unit :=
  match list with
  | none => return ()
  | some a => do
    let pointers ← loadArray a
    freeStrings a pointers.length 0
    free a

/-- `daemon_conf_path`, the status and the path. -/
def daemonConfPath (value : Option Name) (path : Option Nat) : HeapM (Int × Option Nat) :=
  match Cyberd.daemonConfPath value with
  | none => return (-1, path)
  | some value => do
    match ← strdup value with
    | none => return (-1, path)
    | some copy =>
      freePointer path
      return (0, some copy)

/-- The parsers of the values that are paths. -/
def parsePath (path : StoredConf → Option Nat) (assign : StoredConf → Option Nat → StoredConf) :
    StoredParser := fun conf _ value => do
  let (status, copy) ← daemonConfPath value (path conf)
  return (status, assign conf copy)

/-- The parsers that allocate nothing. -/
def parseScalars (parse : ValueParser) : StoredParser := fun conf key value =>
  let (status, scalars) := parse conf.scalars key value
  return (status, conf.assign scalars)

/-- The loop of the expansion, where `remaining` bytes of the buffer are left from `it`
on: its last state, none when an argument could not be appended, and the list. -/
def expandLoop : Nat → Expansion → Option Nat → HeapM (Option ExpandState × Option Nat)
  | 0, e, list => if e.state.running then throw .outOfBounds else return (some e.state, list)
  | remaining + 1, e, list =>
    if e.state.running then do
      let e' ← e.step
      match e'.arguments with
      | none => expandLoop remaining e' list
      | some words =>
        let (status, list) ← daemonConfListAppend list (words.headD [])
        if status ≠ 0 then return (none, list)
        else expandLoop remaining { e' with arguments := none } list
    else return (some e.state, list)

/-- `daemon_conf_parse_general_arguments` -/
def daemonConfParseGeneralArguments : StoredParser := fun conf _ value =>
  match value with
  | none => return (-1, conf)
  | some value => do
    let (state, arguments) ←
      expandLoop (value.length + 1) ⟨.spaces, value ++ [0], 0, 0, 0, 0, none⟩ none
    if state = none ∨ state = some .errorUnclosedQuote ∨ arguments = none then
      daemonConfListFree arguments
      return (-1, conf)
    else
      daemonConfListFree conf.arguments
      return (0, { conf with arguments := arguments })

/-- `daemon_conf_parse_environment` -/
def daemonConfParseEnvironment : StoredParser := fun conf key value => do
  let pair := key ++ 61 :: value.getD key
  let (status, environment) ← daemonConfListAppend conf.environment pair
  return (status, { conf with environment := environment })

/-- `struct daemon_conf_value`, with none for its null pointers. -/
structure DaemonConfValue where
  /-- The parser of the value. -/
  parse : Option StoredParser
  /-- The key, none matches all of them. -/
  key : Option Name

/-- `general_values` -/
def generalValues (host : Host) : List DaemonConfValue :=
  [⟨some daemonConfParseGeneralArguments, some (ascii "arguments")⟩,
    ⟨some (parseScalars (daemonConfParseGeneralGroup host)), some (ascii "group")⟩,
    ⟨some (parseScalars daemonConfParseGeneralNosid), some (ascii "nosid")⟩,
    ⟨some (parsePath (·.path) fun conf p => { conf with path := p }), some (ascii "path")⟩,
    ⟨some (parseScalars daemonConfParseGeneralPriority), some (ascii "priority")⟩,
    ⟨some (parseScalars (daemonConfParseGeneralSigfinish host)), some (ascii "sigfinish")⟩,
    ⟨some (parseScalars (daemonConfParseGeneralSigreload host)), some (ascii "sigreload")⟩,
    ⟨some (parsePath (·.stdin) fun conf p => { conf with stdin := p }), some (ascii "stdin")⟩,
    ⟨some (parsePath (·.stdout) fun conf p => { conf with stdout := p }), some (ascii "stdout")⟩,
    ⟨some (parsePath (·.stderr) fun conf p => { conf with stderr := p }), some (ascii "stderr")⟩,
    ⟨some (parseScalars daemonConfParseGeneralUmask), some (ascii "umask")⟩,
    ⟨some (parseScalars (daemonConfParseGeneralUser host)), some (ascii "user")⟩,
    ⟨some (parsePath (·.workdir) fun conf p => { conf with workdir := p }),
      some (ascii "workdir")⟩,
    ⟨none, none⟩]

/-- `environment_values` -/
def environmentValues : List DaemonConfValue := [⟨some daemonConfParseEnvironment, none⟩]

/-- `start_values` -/
def startValues : List DaemonConfValue :=
  Cyberd.startValues.map fun value => ⟨value.parse.map parseScalars, value.key⟩

/-- `values` -/
def values (host : Host) : ConfSection → List DaemonConfValue
  | .general => generalValues host
  | .environment => environmentValues
  | .start => startValues

/-- The parser of a key: the one of the first entry with the key or without any. -/
def findParser (host : Host) (sec : ConfSection) (key : Name) : Option StoredParser :=
  ((values host sec).find? fun value => value.key = none || value.key = some key).bind (·.parse)

/-- `daemon_conf_init` -/
def daemonConfInit (host : Host) : StoredConf where
  path := none
  arguments := none
  environment := none
  workdir := none
  stdin := none
  stdout := none
  stderr := none
  sigfinish := sigterm
  sigreload := sighup
  uid := 0
  gid := 0
  nosid := false
  umask := host.defaultUmask
  priority := 0
  start := ⟨false, false, false, false, false, false⟩

/-- `daemon_conf_deinit` -/
def daemonConfDeinit (conf : StoredConf) : HeapM Unit := do
  freePointer conf.path
  freePointer conf.workdir
  daemonConfListFree conf.arguments
  daemonConfListFree conf.environment

/-- A value is handed to its parser, the error being logged only. -/
def parseHanded (host : Host) (conf : StoredConf) (handed : HandedValue) : HeapM StoredConf :=
  match findParser host handed.sec handed.key with
  | none => return conf
  | some parse => do
    let (_, conf) ← parse conf handed.key handed.value
    return conf

/-- `daemon_conf_parse`, the status and the record. -/
def daemonConfParse (host : Host) (before : Nat → Option UInt8) (conf : StoredConf)
    (file : List UInt8) : HeapM (Int × StoredConf) := do
  let values ← handedValues host before file
  let conf ← values.foldlM (parseHanded host) conf
  return if conf.path = none then (-1, conf) else (0, conf)

end Stored

end Cyberd
