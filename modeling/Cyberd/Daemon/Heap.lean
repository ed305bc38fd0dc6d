import Cyberd.Conf.Stored
import Cyberd.Daemon.Configuration

/-!
# The allocated memory of the daemons

What `daemon.c` and `configuration.c` allocate and free: the `struct daemon`, its name
and its configuration. The storage is the list of its daemons, its nodes and the states
of the daemons are left out.
-/

namespace Cyberd

open Library Library.Memory

namespace Stored

/-- `*daemon` -/
def loadDaemon (a : Nat) : HeapM StoredDaemon := do
  match ← load a with
  | .daemon (some daemon) => return daemon
  | _ => throw .badPointer

/-- `*daemon = value` -/
def storeDaemon (a : Nat) (daemon : StoredDaemon) : HeapM Unit := store a (.daemon (some daemon))

/-- The string at a pointer. -/
def loadString (pointer : Option Nat) : HeapM Name :=
  match pointer with
  | none => throw .badPointer
  | some a => do
    match ← load a with
    | .string string => return string
    | _ => throw .badPointer

/-- `daemon_create`, none for a null pointer. -/
def daemonCreate (host : Host) (name : Name) : HeapM (Option Nat) := do
  match ← malloc (.daemon none) with
  | none => return none
  | some a =>
    match ← strdup name with
    | none =>
      free a
      return none
    | some copy =>
      storeDaemon a ⟨some copy, daemonConfInit host⟩
      return some a

/-- `daemon_destroy` -/
def daemonDestroy (a : Nat) : HeapM Unit := do
  let daemon ← loadDaemon a
  freePointer daemon.name
  daemonConfDeinit daemon.conf
  free a

/-- `daemon_conf_parse` on a stream. -/
def streamParse (host : Host) (filep : Stream) (conf : StoredConf) : HeapM (Int × StoredConf) :=
  daemonConfParse host filep.before conf filep.content

/-- `configuration_load_daemon` -/
def configurationLoadDaemon (host : Host) (name : Name) (filep : Stream) (daemons : List Nat) :
    HeapM (List Nat) := do
  match ← daemonCreate host name with
  | none => return daemons
  | some a =>
    let daemon ← loadDaemon a
    let (status, conf) ← streamParse host filep daemon.conf
    storeDaemon a { daemon with conf := conf }
    if status ≠ 0 then
      daemonDestroy a
      return daemons
    else return daemons ++ [a]

/-- `daemons_remove_element`, the daemon and those that remain. -/
def daemonsRemoveElement (name : Name) : List Nat → HeapM (Option Nat × List Nat)
  | [] => return (none, [])
  | a :: daemons => do
    let daemon ← loadDaemon a
    let string ← loadString daemon.name
    if string = name then return (some a, daemons)
    else
      let (found, daemons) ← daemonsRemoveElement name daemons
      return (found, a :: daemons)

/-- `configuration_reload_daemon`, with the old daemons and the new ones. -/
def configurationReloadDaemon (host : Host) (name : Name) (filep : Stream)
    (s : List Nat × List Nat) : HeapM (List Nat × List Nat) := do
  let (found, olddaemons) ← daemonsRemoveElement name s.1
  match found with
  | none =>
    let daemons ← configurationLoadDaemon host name filep s.2
    return (olddaemons, daemons)
  | some a =>
    let (status, newconf) ← streamParse host filep (daemonConfInit host)
    if status = 0 then
      let daemon ← loadDaemon a
      daemonConfDeinit daemon.conf
      storeDaemon a { daemon with conf := newconf }
      return (olddaemons, s.2 ++ [a])
    else
      daemonConfDeinit newconf
      return (olddaemons, s.2 ++ [a])

/-- The body of the loop of `configuration_load`. -/
def configurationLoadEntry (host : Host) (daemons : List Nat) (entry : DirEntry) :
    HeapM (List Nat) :=
  if entry.hidden then return daemons
  else
    match entry.filep with
    | none => return daemons
    | some filep => configurationLoadDaemon host entry.name filep daemons

/-- `configuration_load`, on none when `opendir(3)` fails. -/
def configurationLoad (host : Host) (dirp : Option Directory) (daemons : List Nat) :
    HeapM (List Nat) :=
  match dirp with
  | none => return daemons
  | some dir => dir.read.foldlM (configurationLoadEntry host) daemons

/-- The body of the loop of `configuration_reload`. -/
def configurationReloadEntry (host : Host) (s : List Nat × List Nat) (entry : DirEntry) :
    HeapM (List Nat × List Nat) :=
  if entry.hidden then return s
  else
    match entry.filep with
    | none => return s
    | some filep => configurationReloadDaemon host entry.name filep s

/-- `tree_mutate` with `daemons_destroy_element`. -/
def daemonsDestroy : List Nat → HeapM Unit
  | [] => return ()
  | a :: daemons => do
    daemonDestroy a
    daemonsDestroy daemons

/-- `configuration_reload`, on none when `opendir(3)` fails. -/
def configurationReload (host : Host) (daemons : List Nat) (dirp : Option Directory) :
    HeapM (List Nat) :=
  match dirp with
  | none => return daemons
  | some dir => do
    let (olddaemons, daemons) ← dir.read.foldlM (configurationReloadEntry host) (daemons, [])
    daemonsDestroy olddaemons
    return daemons

/-- The configuration is loaded, then reloaded any number of times. -/
def run (host : Host) (dirp : Option Directory) (reloads : List (Option Directory)) :
    HeapM (List Nat) := do
  let daemons ← configurationLoad host dirp []
  reloads.foldlM (configurationReload host) daemons

end Stored

end Cyberd
