import Cyberd.Conf.Line
import Cyberd.Connection.Parser
import Cyberd.Daemon.Spawns

/-!
# The configuration of the daemons

The functions of `configuration.c`, which load the directory of configurations and merge
it again into the daemons at each reload, and the events that the main loop handles. What
the directory holds and which of its accesses fail is given with it.
-/

namespace Cyberd

open Library

/-- A stream opened on a configuration file. -/
structure Stream where
  /-- The contents of the file. -/
  content : List UInt8
  /-- What precedes the buffer of each line in memory. -/
  before : Nat → Option UInt8

/-- `struct dirent`, with what `configuration_fopenat` gives for it. -/
structure DirEntry where
  /-- `d_name` -/
  name : Name
  /-- The opened stream, none when `openat(2)` or `fdopen(3)` fails. -/
  filep : Option Stream

/-- An opened directory. -/
structure Directory where
  /-- Its entries, in the order of `readdir(3)`. -/
  entries : List DirEntry
  /-- Every name is listed once. -/
  distinct : (entries.map DirEntry.name).Nodup
  /-- How many entries are read before `readdir(3)` fails, none when it does not. -/
  failure : Option Nat

/-- The entries that are read. -/
def Directory.read (dir : Directory) : List DirEntry :=
  match dir.failure with
  | none => dir.entries
  | some count => dir.entries.take count

/-- The entry is skipped, `*entry->d_name == '.'`. -/
def DirEntry.hidden (entry : DirEntry) : Bool := entry.name.head? = some byteDot

/-- `daemon_conf_parse` on a stream. -/
def Stream.parse (host : Host) (filep : Stream) (conf : DaemonConf) :
    Except Trap (Int × DaemonConf) :=
  daemonConfParse host filep.before conf filep.content

/-- `tree_insert(&daemons, daemon)` -/
def daemonsInsert (a : Addr) (w : World) : Except Trap World := do
  w.readAll (a :: w.daemons.toList)
  let daemons ← treeInsert strcmp w.name a w.daemons
  return { w with daemons := daemons }

/-- `daemons_remove_element` -/
def daemonsRemoveElement (m : Machine) (daemons : TreeNode Addr) (name : Name) :
    Except Trap (Removal Addr) := do
  m.readAll daemons.toList
  treeRemove strcmp m.name name daemons

/-- `configuration_find` -/
def configurationFind (name : Name) (w : World) : Except Trap (Option Addr) := do
  w.readAll w.daemons.toList
  return treeFind strcmp w.name name w.daemons

/-- `configuration_load_daemon` -/
def configurationLoadDaemon (host : Host) (name : Name) (filep : Stream) (w : World) :
    Except Trap World := do
  let (a, w) := daemonCreate host name w
  let daemon ← w.read a
  let (status, conf) ← filep.parse host daemon.conf
  let w := { w with toMachine := w.write a { daemon with conf := conf } }
  if status ≠ 0 then daemonDestroy a w
  else
    let w ← daemonsInsert a w
    if conf.start.load then daemonStart a w else return w

/-- `configuration_reload_daemon`, which takes the daemon out of `olddaemons`. -/
def configurationReloadDaemon (host : Host) (name : Name) (filep : Stream)
    (olddaemons : TreeNode Addr) (w : World) : Except Trap (TreeNode Addr × World) := do
  let removal ← daemonsRemoveElement w.toMachine olddaemons name
  match removal.element with
  | none => return (removal.root, ← configurationLoadDaemon host name filep w)
  | some a =>
    let (status, newconf) ← filep.parse host (daemonConfInit host)
    if status = 0 then
      let daemon ← w.read a
      let w := { w with toMachine := w.write a { daemon with conf := newconf } }
      let w ← if newconf.start.reload then daemonStart a w else pure w
      return (removal.root, ← daemonsInsert a w)
    else return (removal.root, ← daemonsInsert a w)

/-- The body of the loop of `configuration_load`. -/
def configurationLoadEntry (host : Host) (w : World) (entry : DirEntry) : Except Trap World :=
  if entry.hidden then .ok w
  else
    match entry.filep with
    | none => .ok w
    | some filep => configurationLoadDaemon host entry.name filep w

/-- `configuration_load`, on none when `opendir(3)` fails. -/
def configurationLoad (host : Host) (dirp : Option Directory) (w : World) : Except Trap World :=
  match dirp with
  | none => .ok w
  | some dir => dir.read.foldlM (configurationLoadEntry host) w

/-- The body of the loop of `configuration_reload`. -/
def configurationReloadEntry (host : Host) (s : TreeNode Addr × World) (entry : DirEntry) :
    Except Trap (TreeNode Addr × World) :=
  if entry.hidden then .ok s
  else
    match entry.filep with
    | none => .ok s
    | some filep => configurationReloadDaemon host entry.name filep s.1 s.2

/-- `configuration_reload`, on none when `opendir(3)` fails. -/
def configurationReload (host : Host) (dirp : Option Directory) (w : World) : Except Trap World :=
  match dirp with
  | none => .ok w
  | some dir => do
    let (olddaemons, w) ←
      dir.read.foldlM (configurationReloadEntry host) (w.daemons, { w with daemons := .null })
    treeMutate daemonDestroy olddaemons w

/-- The callback of a daemon command. -/
def DaemonAction.perform : DaemonAction → Addr → World → Except Trap World
  | .daemonStart => Cyberd.daemonStart
  | .daemonStop => Cyberd.daemonStop
  | .daemonReload => Cyberd.daemonReload
  | .daemonEnd => Cyberd.daemonEnd

/-- What happens once the configuration is loaded. -/
inductive Event
  /-- A daemon command of a connection. -/
  | command (action : DaemonAction) (name : Name)
  /-- `reap_children` on these terminated children. -/
  | reap (infos : List Siginfo)
  /-- `configuration_reload` on the directory as it is. -/
  | reload (dirp : Option Directory)
  /-- `spawns_stop` at the beginning of the teardown. -/
  | stop
  /-- A process becomes a child because its parent has exited. -/
  | adopt (pid : Int)

/-- The handling of an event. -/
def World.step (host : Host) (w : World) : Event → Except Trap World
  | .command action name => do
    match ← configurationFind name w with
    | none => return w
    | some a => action.perform a w
  | .reap infos => do
    let (_, w) ← reapChildren infos w
    return w
  | .reload dirp => configurationReload host dirp w
  | .stop => spawnsStop w
  | .adopt pid => .ok { w with toMachine := w.adopt pid }

/-- What the program starts with. -/
structure Boot where
  /-- What the memory holds before it is initialized. -/
  stale : Addr → Int
  /-- The pids that the forks take. -/
  pids : List Int
  /-- The processes that were already adopted. -/
  orphans : List Int
  /-- The directory of the first load. -/
  dirp : Option Directory

/-- The state in which `configuration_load` is called. -/
def Boot.world (boot : Boot) : World :=
  ⟨Machine.setup boot.stale boot.pids boot.orphans, .null, .null⟩

/-- The configuration is loaded, then the events are handled in order. -/
def World.run (host : Host) (boot : Boot) (events : List Event) : Except Trap World := do
  let w ← configurationLoad host boot.dirp boot.world
  events.foldlM (World.step host) w

end Cyberd
