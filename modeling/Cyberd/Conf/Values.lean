import Cyberd.Conf.Arguments

/-!
# The values of a daemon configuration

The record `struct daemon_conf` and the parsers of its values. A parser returns its
status, zero on success, and the record it leaves behind. The system databases and
the options of the build are parameters.
-/

namespace Cyberd

open Library

/-- What a lookup in the user or group database answers. -/
inductive Lookup
  /-- The entry with this identifier. -/
  | found (id : Nat)
  /-- There is no entry, and `errno` is zero. -/
  | missing
  /-- The lookup failed, and `errno` is set. -/
  | failed
  deriving DecidableEq, Repr

/-- The build options and the databases of the host. -/
structure Host where
  /-- `CONFIG_DAEMON_CONF_DEFAULT_UMASK` -/
  defaultUmask : Nat
  /-- `CONFIG_DAEMON_CONF_HAS_RTSIG` -/
  hasRtsig : Bool
  /-- `CONFIG_DAEMON_CONF_MAX_UID` -/
  maxUid : Nat
  /-- `CONFIG_DAEMON_CONF_MAX_GID` -/
  maxGid : Nat
  /-- `getpwnam(3)` -/
  getpwnam : Name → Lookup
  /-- `getgrnam(3)` -/
  getgrnam : Name → Lookup

/-- `NSIG`, one more than the greatest signal number. -/
def nsig : Nat := 65

/-- `SIGRTMIN` -/
def sigrtmin : Nat := 34

/-- `SIGRTMAX` -/
def sigrtmax : Nat := 64

/-- `SIGHUP` -/
def sighup : Nat := 1

/-- `SIGTERM` -/
def sigterm : Nat := 15

/-- The bitmask `start`. -/
structure Start where
  /-- Must be started at configuration load. -/
  load : Bool
  /-- Must be started at configuration reload. -/
  reload : Bool
  /-- Must be started when it stopped successfully. -/
  exitsuccess : Bool
  /-- Must be started when it stopped unsuccessfully. -/
  exitfailure : Bool
  /-- Must be started when it was stopped by a signal. -/
  killed : Bool
  /-- Must be started when it dumped core. -/
  dumped : Bool
  deriving DecidableEq, Repr

/-- `struct daemon_conf`, none for a null pointer. -/
structure DaemonConf where
  /-- Path of the executable file. -/
  path : Option Name
  /-- Command line arguments, including process name. -/
  arguments : Option (List Name)
  /-- Command line environment variables. -/
  environment : Option (List Name)
  /-- Working directory of the process. -/
  workdir : Option Name
  /-- `in`, the standard input of the process. -/
  stdin : Option Name
  /-- `out`, the standard output of the process. -/
  stdout : Option Name
  /-- `err`, the standard error of the process. -/
  stderr : Option Name
  /-- Signal used to terminate the process. -/
  sigfinish : Nat
  /-- Signal used to reload the process configuration. -/
  sigreload : Nat
  /-- User-id the process will be executed with. -/
  uid : Nat
  /-- Group-id the process will be executed with. -/
  gid : Nat
  /-- Do not setsid when the process is forked. -/
  nosid : Bool
  /-- umask of the daemon. -/
  umask : Nat
  /-- Scheduling priority of the daemon. -/
  priority : Int
  /-- When the daemon wants to be started. -/
  start : Start
  deriving DecidableEq, Repr

/-- `daemon_conf_init` -/
def daemonConfInit (host : Host) : DaemonConf where
  path := none
  arguments := none
  environment := none
  workdir := none
  stdin := none
  stdout := none
  stderr := none
  sigfinish := sigterm
  sigreload := sighup
  uid := 0
  gid := 0
  nosid := false
  umask := host.defaultUmask
  priority := 0
  start := ⟨false, false, false, false, false, false⟩

/-- A value parser: the record, the key and the value give the status and the record. -/
abbrev ValueParser := DaemonConf → Name → Option Name → Int × DaemonConf

/-- `daemon_conf_path`, none for its negative value. -/
def daemonConfPath (value : Option Name) : Option Name :=
  match value with
  | some (byte :: rest) => if byte = 47 then some (byte :: rest) else none
  | _ => none

/-- The table `signals` of `daemon_conf_signal`. -/
def signals : List (Nat × Name) :=
  [(6, ascii "ABRT"), (6, ascii "ABRT"), (14, ascii "ALRM"), (7, ascii "BUS"),
    (17, ascii "CHLD"), (18, ascii "CONT"), (8, ascii "FPE"), (1, ascii "HUP"),
    (4, ascii "ILL"), (2, ascii "INT"), (9, ascii "KILL"), (13, ascii "PIPE"),
    (3, ascii "QUIT"), (11, ascii "SEGV"), (19, ascii "STOP"), (15, ascii "TERM"),
    (20, ascii "TSTP"), (21, ascii "TTIN"), (22, ascii "TTOU"), (10, ascii "USR1"),
    (12, ascii "USR2"), (29, ascii "POLL"), (27, ascii "PROF"), (31, ascii "SYS"),
    (5, ascii "TRAP"), (23, ascii "URG"), (26, ascii "VTALRM"), (24, ascii "XCPU"),
    (25, ascii "XFSZ")]

/-- The names of `daemon_conf_signal`, after the optional prefix. -/
def daemonConfSignalName (host : Host) (signame : Name) : Option Nat :=
  if host.hasRtsig ∧ strnCaseEq (ascii "RT") signame 2 then
    let (lsigno, rest) := strtoul 10 (signame.drop 2)
    if rest ≠ [] ∨ sigrtmax - sigrtmin < lsigno then none else some (lsigno + sigrtmin)
  else (signals.find? fun signal => strCaseEq signal.2 signame).map (·.1)

/-- `daemon_conf_signal`, none for its negative value. -/
def daemonConfSignal (host : Host) (signame : Option Name) : Option Nat :=
  match signame with
  | none => none
  | some signame =>
    if (signame.head?.map isDigit).getD false then
      let (lsigno, rest) := strtoul 10 signame
      if rest ≠ [] ∨ nsig < lsigno then none else some lsigno
    else
      daemonConfSignalName host
        (if strnCaseEq (ascii "SIG") signame 3 then signame.drop 3 else signame)

/-- The parsers of the values that are paths. -/
def parsePath (assign : DaemonConf → Option Name → DaemonConf) : ValueParser :=
  fun conf _ value =>
    match daemonConfPath value with
    | some path => (0, assign conf (some path))
    | none => (-1, conf)

/-- The parsers of the values that are signals. -/
def parseSignal (host : Host) (assign : DaemonConf → Nat → DaemonConf) : ValueParser :=
  fun conf _ value =>
    match daemonConfSignal host value with
    | some signo => (0, assign conf signo)
    | none => (-1, conf)

/-- The parsers of the values that are a user or a group. -/
def parseId (lookup : Name → Lookup) (max : Nat) (assign : DaemonConf → Nat → DaemonConf) :
    ValueParser :=
  fun conf _ value =>
    match value with
    | none => (-1, conf)
    | some value =>
      match lookup value with
      | .found id => (0, assign conf id)
      | .missing =>
        let (lid, rest) := strtoul 10 value
        if rest ≠ [] ∨ max < lid then (-1, conf) else (0, assign conf (lid % 2 ^ 32))
      | .failed => (0, conf)

/-- The parsers of the keys that have no value. -/
def parseScalar (assign : DaemonConf → DaemonConf) : ValueParser :=
  fun conf _ value =>
    match value with
    | some _ => (-1, conf)
    | none => (0, assign conf)

/-- `daemon_conf_parse_general_arguments`, whose expansion stays inside of its copy of
the value. -/
def daemonConfParseGeneralArguments : ValueParser := fun conf _ value =>
  match value with
  | none => (-1, conf)
  | some value =>
    match expandArguments value with
    | .ok (some arguments) => (0, { conf with arguments := some arguments })
    | .ok none | .error _ => (-1, conf)

/-- `daemon_conf_parse_general_group` -/
def daemonConfParseGeneralGroup (host : Host) : ValueParser :=
  parseId host.getgrnam host.maxGid fun conf id => { conf with gid := id }

/-- `daemon_conf_parse_general_nosid` -/
def daemonConfParseGeneralNosid : ValueParser :=
  parseScalar fun conf => { conf with nosid := true }

/-- `daemon_conf_parse_general_path` -/
def daemonConfParseGeneralPath : ValueParser :=
  parsePath fun conf path => { conf with path := path }

/-- `daemon_conf_parse_general_priority` -/
def daemonConfParseGeneralPriority : ValueParser := fun conf _ value =>
  match value with
  | none => (-1, conf)
  | some value =>
    let (lpriority, rest) := strtol 10 value
    if rest ≠ [] ∨ lpriority < -20 ∨ 19 < lpriority then (-1, conf)
    else (0, { conf with priority := lpriority })

/-- `daemon_conf_parse_general_sigfinish` -/
def daemonConfParseGeneralSigfinish (host : Host) : ValueParser :=
  parseSignal host fun conf signo => { conf with sigfinish := signo }

/-- `daemon_conf_parse_general_sigreload` -/
def daemonConfParseGeneralSigreload (host : Host) : ValueParser :=
  parseSignal host fun conf signo => { conf with sigreload := signo }

/-- `daemon_conf_parse_general_stdin` -/
def daemonConfParseGeneralStdin : ValueParser :=
  parsePath fun conf path => { conf with stdin := path }

/-- `daemon_conf_parse_general_stdout` -/
def daemonConfParseGeneralStdout : ValueParser :=
  parsePath fun conf path => { conf with stdout := path }

/-- `daemon_conf_parse_general_stderr` -/
def daemonConfParseGeneralStderr : ValueParser :=
  parsePath fun conf path => { conf with stderr := path }

/-- `daemon_conf_parse_general_umask` -/
def daemonConfParseGeneralUmask : ValueParser := fun conf _ value =>
  match value with
  | none => (-1, conf)
  | some value =>
    let (cmask, rest) := strtoul 8 value
    if rest ≠ [] then (-1, conf) else (0, { conf with umask := cmask % 512 })

/-- `daemon_conf_parse_general_user` -/
def daemonConfParseGeneralUser (host : Host) : ValueParser :=
  parseId host.getpwnam host.maxUid fun conf id => { conf with uid := id }

/-- `daemon_conf_parse_general_workdir` -/
def daemonConfParseGeneralWorkdir : ValueParser :=
  parsePath fun conf path => { conf with workdir := path }

/-- `daemon_conf_parse_environment` -/
def daemonConfParseEnvironment : ValueParser := fun conf key value =>
  let pair := key ++ 61 :: value.getD key
  (0, { conf with environment := daemonConfListAppend conf.environment pair })

/-- `daemon_conf_parse_start_any_exit` -/
def daemonConfParseStartAnyExit : ValueParser :=
  parseScalar fun conf =>
    { conf with start :=
        { conf.start with
          exitsuccess := true, exitfailure := true, killed := true, dumped := true } }

/-- `daemon_conf_parse_start_dumped` -/
def daemonConfParseStartDumped : ValueParser :=
  parseScalar fun conf => { conf with start := { conf.start with dumped := true } }

/-- `daemon_conf_parse_start_exit` -/
def daemonConfParseStartExit : ValueParser :=
  parseScalar fun conf =>
    { conf with start := { conf.start with exitsuccess := true, exitfailure := true } }

/-- `daemon_conf_parse_start_exit_failure` -/
def daemonConfParseStartExitFailure : ValueParser :=
  parseScalar fun conf => { conf with start := { conf.start with exitfailure := true } }

/-- `daemon_conf_parse_start_exit_success` -/
def daemonConfParseStartExitSuccess : ValueParser :=
  parseScalar fun conf => { conf with start := { conf.start with exitsuccess := true } }

/-- `daemon_conf_parse_start_killed` -/
def daemonConfParseStartKilled : ValueParser :=
  parseScalar fun conf => { conf with start := { conf.start with killed := true } }

/-- `daemon_conf_parse_start_load` -/
def daemonConfParseStartLoad : ValueParser :=
  parseScalar fun conf => { conf with start := { conf.start with load := true } }

/-- `daemon_conf_parse_start_reload` -/
def daemonConfParseStartReload : ValueParser :=
  parseScalar fun conf => { conf with start := { conf.start with reload := true } }

/-- `struct daemon_conf_value`, with none for its null pointers. -/
structure DaemonConfValue where
  /-- The parser of the value. -/
  parse : Option ValueParser
  /-- The key, none matches all of them. -/
  key : Option Name

/-- `general_values` -/
def generalValues (host : Host) : List DaemonConfValue :=
  [⟨some daemonConfParseGeneralArguments, some (ascii "arguments")⟩,
    ⟨some (daemonConfParseGeneralGroup host), some (ascii "group")⟩,
    ⟨some daemonConfParseGeneralNosid, some (ascii "nosid")⟩,
    ⟨some daemonConfParseGeneralPath, some (ascii "path")⟩,
    ⟨some daemonConfParseGeneralPriority, some (ascii "priority")⟩,
    ⟨some (daemonConfParseGeneralSigfinish host), some (ascii "sigfinish")⟩,
    ⟨some (daemonConfParseGeneralSigreload host), some (ascii "sigreload")⟩,
    ⟨some daemonConfParseGeneralStdin, some (ascii "stdin")⟩,
    ⟨some daemonConfParseGeneralStdout, some (ascii "stdout")⟩,
    ⟨some daemonConfParseGeneralStderr, some (ascii "stderr")⟩,
    ⟨some daemonConfParseGeneralUmask, some (ascii "umask")⟩,
    ⟨some (daemonConfParseGeneralUser host), some (ascii "user")⟩,
    ⟨some daemonConfParseGeneralWorkdir, some (ascii "workdir")⟩,
    ⟨none, none⟩]

/-- `environment_values` -/
def environmentValues : List DaemonConfValue := [⟨some daemonConfParseEnvironment, none⟩]

/-- `start_values` -/
def startValues : List DaemonConfValue :=
  [⟨some daemonConfParseStartAnyExit, some (ascii "any exit")⟩,
    ⟨some daemonConfParseStartDumped, some (ascii "dumped")⟩,
    ⟨some daemonConfParseStartExit, some (ascii "exit")⟩,
    ⟨some daemonConfParseStartExitFailure, some (ascii "exit failure")⟩,
    ⟨some daemonConfParseStartExitSuccess, some (ascii "exit success")⟩,
    ⟨some daemonConfParseStartKilled, some (ascii "killed")⟩,
    ⟨some daemonConfParseStartLoad, some (ascii "load")⟩,
    ⟨some daemonConfParseStartReload, some (ascii "reload")⟩,
    ⟨none, none⟩]

/-- The sections of the table `sections`. -/
inductive ConfSection
  | general
  | environment
  | start
  deriving DecidableEq, Repr

/-- `name` -/
def ConfSection.name : ConfSection → Name
  | .general => ascii "general"
  | .environment => ascii "environment"
  | .start => ascii "start"

/-- `values` -/
def ConfSection.values (host : Host) : ConfSection → List DaemonConfValue
  | .general => generalValues host
  | .environment => environmentValues
  | .start => startValues

/-- The section of a name, none when it is unknown. -/
def findSection (name : Name) : Option ConfSection :=
  [ConfSection.general, .environment, .start].find? fun sec => sec.name = name

/-- The parser of a key: the one of the first entry with the key or without any. -/
def findParser (host : Host) (sec : ConfSection) (key : Name) : Option ValueParser :=
  ((sec.values host).find? fun value => value.key = none || value.key = some key).bind
    (·.parse)

/-- The keys a section has a parser for. -/
def ConfSection.knows (sec : ConfSection) (key : Name) : Bool :=
  match sec with
  | .general =>
    ["arguments", "group", "nosid", "path", "priority", "sigfinish", "sigreload", "stdin",
      "stdout", "stderr", "umask", "user", "workdir"].any fun text => ascii text = key
  | .environment => true
  | .start =>
    ["any exit", "dumped", "exit", "exit failure", "exit success", "killed", "load",
      "reload"].any fun text => ascii text = key

/-- A section hands out the keys it knows. -/
theorem findParser_isSome (host : Host) (sec : ConfSection) (key : Name) :
    (findParser host sec key).isSome = sec.knows key := by
  cases sec with
  | environment => rfl
  | general =>
    simp only [findParser, ConfSection.values, generalValues, ConfSection.knows, List.find?_cons,
      List.any_cons, List.any_nil, Option.some.injEq, reduceCtorEq, decide_false, Bool.false_or]
    repeat' split
    all_goals simp_all
  | start =>
    simp only [findParser, ConfSection.values, startValues, ConfSection.knows, List.find?_cons,
      List.any_cons, List.any_nil, Option.some.injEq, reduceCtorEq, decide_false, Bool.false_or]
    repeat' split
    all_goals simp_all

end Cyberd
