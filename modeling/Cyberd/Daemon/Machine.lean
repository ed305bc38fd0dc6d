import Cyberd.Conf.Values

/-!
# Daemons and processes

The memory that holds the daemons and the processes of the host, with the system calls
that act on them. The system answers as it wants within its contract: `fork` fails or
takes a pid that no process has, and only the processes that exist are waited for. The
calls are recorded as they are made.
-/

namespace Cyberd

open Library

/-- `struct daemon *`. An address is not used again. -/
abbrev Addr := Nat

/-- `enum daemon_state` -/
inductive DaemonState
  /-- Has a pid, spawned. -/
  | started
  /-- Was cleared, no process running. -/
  | stopped
  /-- Sent a signal to shut it, spawned. -/
  | stopping
  deriving DecidableEq, Repr

/-- `struct daemon` -/
structure Daemon where
  /-- Daemon's running state. -/
  state : DaemonState
  /-- Daemon's name, index for configuration. -/
  name : Name
  /-- Daemon's pid, index for spawns. -/
  pid : Int
  /-- Daemon's configuration. -/
  conf : DaemonConf
  deriving DecidableEq, Repr

/-- A child of the process that was not waited for. -/
structure Child where
  /-- Its process identifier. -/
  pid : Int
  /-- The daemon it was forked for, with its name, none for an adopted process. -/
  daemon : Option (Addr × Name)
  deriving DecidableEq, Repr

/-- A call of `fork(2)`. -/
structure Fork where
  /-- The daemon to spawn. -/
  daemon : Addr
  /-- Its name. -/
  name : Name
  /-- The pid of the child, none on failure. -/
  pid : Option Int
  deriving DecidableEq, Repr

/-- A call of `kill(2)`. -/
structure Kill where
  /-- The daemon the signal is meant for. -/
  daemon : Addr
  /-- The target of the call. -/
  pid : Int
  /-- The signal. -/
  signo : Nat
  /-- The child that has this pid, if there is one. -/
  receiver : Option Child
  deriving DecidableEq, Repr

/-- `si_code` of a terminated child. -/
inductive CldCode
  | exited
  | killed
  | dumped
  deriving DecidableEq, Repr

/-- `siginfo_t` of a terminated child. -/
structure Siginfo where
  /-- `si_pid` -/
  pid : Int
  /-- `si_code` -/
  code : CldCode
  /-- `si_status` -/
  status : Int
  deriving DecidableEq, Repr

/-- The start setting that `reaped_daemon` looks at. -/
def Siginfo.restarts (info : Siginfo) (start : Start) : Bool :=
  match info.code with
  | .exited => if info.status = 0 then start.exitsuccess else start.exitfailure
  | .killed => start.killed
  | .dumped => start.dumped

/-- The memory and the processes. -/
structure Machine where
  /-- The allocated daemons. -/
  heap : Addr → Option Daemon
  /-- The address of the next allocation. -/
  next : Addr
  /-- The pid that the memory holds before it is initialized. -/
  stale : Addr → Int
  /-- The addresses given to `free(3)`. -/
  freed : List Addr
  /-- The children that were not waited for. -/
  children : List Child
  /-- The pids that the next forks take, one that is not available is a failure. -/
  pids : List Int
  /-- The calls of `fork(2)`. -/
  forks : List Fork
  /-- The calls of `kill(2)`. -/
  kills : List Kill

namespace Machine

/-- The dereference of a daemon. -/
def read (m : Machine) (a : Addr) : Except Trap Daemon :=
  match m.heap a with
  | some daemon => .ok daemon
  | none => .error .badPointer

/-- The dereference of every daemon of a list. -/
def readAll (m : Machine) (l : List Addr) : Except Trap Unit :=
  if ∀ a ∈ l, (m.heap a).isSome then .ok () else .error .badPointer

/-- The name of a daemon. -/
def name (m : Machine) (a : Addr) : Name := ((m.heap a).map Daemon.name).getD []

/-- The pid of a daemon. -/
def pid (m : Machine) (a : Addr) : Int := ((m.heap a).map Daemon.pid).getD 0

/-- The store of a daemon. -/
def write (m : Machine) (a : Addr) (daemon : Daemon) : Machine :=
  { m with heap := fun b => if b = a then some daemon else m.heap b }

/-- `malloc(3)` of a daemon whose other fields are then initialized. -/
def malloc (m : Machine) (init : Int → Daemon) : Machine :=
  { m.write m.next (init (m.stale m.next)) with next := m.next + 1 }

/-- `free(3)` -/
def free (m : Machine) (a : Addr) : Machine :=
  { m with heap := fun b => if b = a then none else m.heap b, freed := m.freed ++ [a] }

/-- The pid is positive, in the range of `pid_t`, and no process has it. -/
def Available (m : Machine) (pid : Int) : Prop :=
  0 < pid ∧ pid < 2 ^ 31 ∧ ∀ child ∈ m.children, child.pid ≠ pid

instance (m : Machine) (pid : Int) : Decidable (m.Available pid) :=
  inferInstanceAs (Decidable (_ ∧ _ ∧ _))

/-- The answer of the next call of `fork(2)`. -/
def forked (m : Machine) : Option Int := m.pids.head?.filter fun pid => m.Available pid

/-- `fork(2)` for a daemon. -/
def fork (m : Machine) (a : Addr) (name : Name) : Machine :=
  { m with
    children := (m.forked.toList.map fun pid => ⟨pid, some (a, name)⟩) ++ m.children
    pids := m.pids.tail
    forks := m.forks ++ [⟨a, name, m.forked⟩] }

/-- `kill(2)` for a daemon. -/
def kill (m : Machine) (a : Addr) (pid : Int) (signo : Nat) : Machine :=
  { m with kills := m.kills ++ [⟨a, pid, signo, m.children.find? fun c => c.pid = pid⟩] }

/-- `waitid(2)` on a terminated child, none if there is no such child. -/
def waitid (m : Machine) (pid : Int) : Option Machine :=
  if ∃ child ∈ m.children, child.pid = pid then
    some { m with children := m.children.filter fun child => child.pid ≠ pid }
  else none

/-- A process whose parent has exited becomes a child. -/
def adopt (m : Machine) (pid : Int) : Machine :=
  if m.Available pid then { m with children := ⟨pid, none⟩ :: m.children } else m

end Machine

/-- The daemon after a fork, whether it failed or not. -/
def Daemon.spawned (daemon : Daemon) : Option Int → Daemon
  | none => daemon
  | some pid => { daemon with pid := pid, state := .started }

/-- The memory at the entry of the program, with the processes that were adopted. -/
def Machine.setup (stale : Addr → Int) (pids orphans : List Int) : Machine :=
  orphans.foldl Machine.adopt ⟨fun _ => none, 0, stale, [], [], pids, [], []⟩

section Access

variable {m : Machine} {a b : Addr} {daemon : Daemon}

@[simp] theorem Machine.write_heap :
    (m.write a daemon).heap b = if b = a then some daemon else m.heap b := rfl

@[simp] theorem Machine.free_heap : (m.free a).heap b = if b = a then none else m.heap b := rfl

@[simp] theorem Machine.malloc_heap {init : Int → Daemon} :
    (m.malloc init).heap b = if b = m.next then some (init (m.stale m.next)) else m.heap b := rfl

@[simp] theorem Machine.fork_heap {name : Name} : (m.fork a name).heap = m.heap := rfl

@[simp] theorem Machine.kill_heap {pid : Int} {signo : Nat} :
    (m.kill a pid signo).heap = m.heap := rfl

/-- A daemon that is in memory is read. -/
theorem Machine.read_ok (h : m.heap a = some daemon) : m.read a = .ok daemon := by
  rw [read, h]

/-- Daemons that are in memory are all read. -/
theorem Machine.readAll_ok {l : List Addr} (h : ∀ a ∈ l, ∃ daemon, m.heap a = some daemon) :
    m.readAll l = .ok () :=
  if_pos fun a ha => Option.isSome_iff_exists.mpr (h a ha)

theorem Machine.name_eq (h : m.heap a = some daemon) : m.name a = daemon.name := by
  simp [name, h]

theorem Machine.pid_eq (h : m.heap a = some daemon) : m.pid a = daemon.pid := by
  simp [pid, h]

/-- Storing what is already there changes nothing. -/
theorem Machine.write_self (h : m.heap a = some daemon) : m.write a daemon = m := by
  have hheap : (fun b => if b = a then some daemon else m.heap b) = m.heap := by
    funext b
    split
    · rename_i hb
      rw [hb, h]
    · rfl
  unfold write
  rw [hheap]

end Access

end Cyberd
