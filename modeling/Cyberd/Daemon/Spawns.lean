import Cyberd.Daemon.Machine
import Cyberd.Tree.Order

/-!
# The life of a daemon

The functions of `daemon.c` and `spawns.c`, and the reaping of children of `main.c`. They
share the daemons of two trees: the configuration owns them by name, the spawns index
those that run by their pid.
-/

namespace Cyberd

open Library

/-- The static storage, with the memory and the processes. -/
structure World extends Machine where
  /-- `daemons`, the main daemon storage. -/
  daemons : TreeNode Addr
  /-- `spawns`, the spawns storage. -/
  spawns : TreeNode Addr

/-- `SIGKILL` -/
def sigkill : Nat := 9

/-- `spawns_record` -/
def spawnsRecord (a : Addr) (w : World) : Except Trap World := do
  w.readAll (a :: w.spawns.toList)
  let spawns ← treeInsert compareBySub w.pid a w.spawns
  return { w with spawns := spawns }

/-- `spawns_retrieve` -/
def spawnsRetrieve (pid : Int) (w : World) : Except Trap (Option Addr × World) := do
  w.readAll w.spawns.toList
  let removal ← treeRemove compareBySub w.pid pid w.spawns
  return (removal.element, { w with spawns := removal.root })

/-- `spawns_empty` -/
def spawnsEmpty (w : World) : Bool := w.spawns.isNull

/-- `daemon_spawn` in the parent, zero if successful. -/
def daemonSpawn (a : Addr) (w : World) : Except Trap (Int × World) := do
  let daemon ← w.read a
  match w.forked with
  | none => return (-1, { w with toMachine := w.fork a daemon.name })
  | some pid =>
    let m := (w.fork a daemon.name).write a { daemon with pid := pid, state := .started }
    let w ← spawnsRecord a { w with toMachine := m }
    return (0, w)

/-- `daemon_create` -/
def daemonCreate (host : Host) (name : Name) (w : World) : Addr × World :=
  (w.next, { w with toMachine := w.malloc fun pid => ⟨.stopped, name, pid, daemonConfInit host⟩ })

/-- `daemon_destroy` -/
def daemonDestroy (a : Addr) (w : World) : Except Trap World := do
  let daemon ← w.read a
  if daemon.state ≠ .stopped then
    let (_, w) ← spawnsRetrieve daemon.pid w
    return { w with toMachine := w.free a }
  else return { w with toMachine := w.free a }

/-- `daemon_start` -/
def daemonStart (a : Addr) (w : World) : Except Trap World := do
  let daemon ← w.read a
  match daemon.state with
  | .started => return w
  | .stopped =>
    let (_, w) ← daemonSpawn a w
    return w
  | .stopping => return w

/-- `daemon_stop` -/
def daemonStop (a : Addr) (w : World) : Except Trap World := do
  let daemon ← w.read a
  match daemon.state with
  | .started =>
    let m := w.kill a daemon.pid daemon.conf.sigfinish
    return { w with toMachine := m.write a { daemon with state := .stopping } }
  | .stopped => return w
  | .stopping => return w

/-- `daemon_reload` -/
def daemonReload (a : Addr) (w : World) : Except Trap World := do
  let daemon ← w.read a
  match daemon.state with
  | .started => return { w with toMachine := w.kill a daemon.pid daemon.conf.sigreload }
  | .stopped => return w
  | .stopping => return w

/-- `daemon_end` -/
def daemonEnd (a : Addr) (w : World) : Except Trap World := do
  let daemon ← w.read a
  match daemon.state with
  | .started => return { w with toMachine := w.kill a daemon.pid sigkill }
  | .stopped => return w
  | .stopping => return { w with toMachine := w.kill a daemon.pid sigkill }

/-- `spawns_stop_element` -/
def spawnsStopElement (a : Addr) (w : World) : Except Trap World := do
  let daemon ← w.read a
  let start : Start := ⟨false, false, false, false, false, false⟩
  daemonStop a
    { w with toMachine := w.write a { daemon with conf := { daemon.conf with start := start } } }

/-- `spawns_stop` -/
def spawnsStop (w : World) : Except Trap World := treeMutate spawnsStopElement w.spawns w

/-- `reaped_daemon` -/
def reapedDaemon (info : Siginfo) (a : Addr) (w : World) : Except Trap World := do
  let daemon ← w.read a
  let w := { w with toMachine := w.write a { daemon with state := .stopped } }
  if info.restarts daemon.conf.start then daemonStart a w else return w

/-- The body of the loop of `reap_children`, with the child that was waited for. -/
def reapChild (info : Siginfo) (w : World) : Except Trap World := do
  let (found, w) ← spawnsRetrieve info.pid w
  match found with
  | some a => reapedDaemon info a w
  | none => return w

/-- `reap_children`, the last returned value and the children given by `waitid(2)` in
order. The loop ends when there is none left to report. -/
def reapChildren : List Siginfo → World → Except Trap (Int × World)
  | [], w => .ok (if w.children = [] then -1 else 0, w)
  | info :: infos, w =>
    match w.waitid info.pid with
    | none => .ok (if w.children = [] then -1 else 0, w)
    | some m => do
      let w ← reapChild info { w with toMachine := m }
      reapChildren infos w

end Cyberd
