import Cyberd.Daemon.Teardown
import Cyberd.Main.Handlers
import Cyberd.Server.Switch

/-!
# The program and its signals

`main` and `teardown` of `main.c` from one system call to the next one, while children
terminate and signals are sent at any time. A signal is only delivered in `pselect(2)` and
in `sigsuspend(2)`, when the mask of the call does not block it, and a terminated child is
only waited for in `reap_children`.
-/

namespace Cyberd

open Library

/-- The reboot that an action queues. -/
def Action.howto : Action → Option Howto
  | .queueReboot howto => some howto
  | .endpointCreate _ _ | .daemon _ _ => none

/-- The reboots that a node queues when it is operated. -/
def SocketNode.reboots (platform : Platform) (answer : SocketAnswer) (node : SocketNode) :
    List Howto :=
  match node.nodeClass, answer.read with
  | .connection parser, some (memory, count) =>
    if count = 0 then []
    else (parserFeed platform parser memory count).1.actions.filterMap Action.howto
  | _, _ => []

namespace Server

/-- The reboots that the node of a descriptor queues when it is operated. -/
def reboots (platform : Platform) (answers : Fd → SocketAnswer) (fd : Fd) (s : Server) :
    List Howto :=
  match treeFind compareBySub s.nodeFd fd s.snodes with
  | some a =>
    match s.nodes a with
    | some snode => snode.reboots platform (answers fd)
    | none => []
  | none => []

/-- The loop of `socket_switch_operate` from a descriptor on, with the reboots it queues. -/
def operateRebootsFrom (platform : Platform) (host : Host) (answers : Fd → SocketAnswer) :
    List Fd → Nat → Server → Except Trap (List Howto × Server)
  | [], _, s => .ok ([], s)
  | fd :: fds, nfds, s =>
    if nfds = 0 then .ok ([], s)
    else if s.readset fd then do
      let howtos := s.reboots platform answers fd
      let s ← socketNodeOperate platform host answers fd s
      let (more, s) ← operateRebootsFrom platform host answers fds (nfds - 1) s
      return (howtos ++ more, s)
    else operateRebootsFrom platform host answers fds nfds s

/-- One round of the main loop, with the reboots it queues. -/
def roundReboots (platform : Platform) (host : Host) (ready : Fd → Bool)
    (answers : Fd → SocketAnswer) (s : Server) : Except Trap (List Howto × Server) := do
  let (fds, s) ← s.socketSwitchPrepare
  let (fds, s) := s.pselect fds ready
  operateRebootsFrom platform host answers (List.range fdSetSize) fds s

end Server

/-- Where the program is. -/
inductive MainPhase
  /-- In `pselect(2)`. -/
  | selecting
  /-- In `pselect(2)`, which a handler has interrupted. -/
  | interrupted
  /-- At `configuration_reload`. -/
  | reloading
  /-- In `reap_children(WNOHANG)` of the main loop. -/
  | reaping
  /-- At `teardown`, the main loop is left. -/
  | leaving
  /-- In `sigsuspend(2)`. -/
  | suspended
  /-- In `sigsuspend(2)`, which a handler has interrupted. -/
  | woken
  /-- In `reap_children(WNOHANG)` of the teardown. -/
  | sweeping
  /-- In `reap_children(0)`, after `kill(-1, SIGKILL)`. -/
  | ending
  /-- At `reboot(2)`. -/
  | rebooting
  deriving DecidableEq, Repr

/-- The state of the program. -/
structure Program where
  /-- The daemons, the processes and the socket switch. -/
  server : Server
  /-- The signals. -/
  signals : Signals
  /-- The mask of `pselect(2)`, then the one of `sigsuspend(2)`. -/
  sigmask : Sigset
  /-- The children that have terminated and were not waited for. -/
  zombies : List Siginfo
  /-- Where it is. -/
  phase : MainPhase

/-- What the system does, and what the program does with its answers. -/
inductive MainEvent
  /-- A child terminates. -/
  | terminated (info : Siginfo) (sending : Sending)
  /-- A signal is sent by another process, or by the alarm. -/
  | sent (signal : Signal) (siginfo : SignalInfo) (sending : Sending)
  /-- A process becomes a child because its parent has exited. -/
  | adopt (pid : Int)
  /-- A pending signal is delivered. -/
  | deliver (signal : Signal)
  /-- `pselect(2)` or `sigsuspend(2)` returns, with `EINTR`. -/
  | interrupt
  /-- `pselect(2)` fails in another way. -/
  | failure
  /-- `pselect(2)` returns as descriptors are ready. -/
  | ready (ready : Fd → Bool) (answers : Fd → SocketAnswer) (queues : List (Option Sending))
  /-- `configuration_reload` on the directory as it is. -/
  | reload (dirp : Option Directory) (answer : OpenAnswer)
  /-- `waitid(2)` reports a terminated child. -/
  | reported (info : Siginfo)
  /-- `waitid(2)` has nothing to report. -/
  | nothing
  /-- The teardown begins. -/
  | teardown

/-- The program is in a system call that signals are delivered in. -/
def MainPhase.delivers : MainPhase → Bool
  | .selecting | .interrupted | .suspended | .woken => true
  | .reloading | .reaping | .leaving | .sweeping | .ending | .rebooting => false

/-- The program is in `reap_children`. -/
def MainPhase.reaps : MainPhase → Bool
  | .reaping | .sweeping | .ending => true
  | .selecting | .interrupted | .reloading | .leaving | .suspended | .woken | .rebooting => false

/-- The same system call, once a handler has interrupted it. -/
def MainPhase.interrupt : MainPhase → MainPhase
  | .selecting => .interrupted
  | .suspended => .woken
  | phase => phase

namespace Program

/-- The event can happen. -/
def Enabled (p : Program) : MainEvent → Prop
  | .terminated info _ =>
    (∃ child ∈ p.server.world.children, child.pid = info.pid) ∧
      ∀ zombie ∈ p.zombies, zombie.pid ≠ info.pid
  | .sent _ _ _ => True
  | .adopt _ => True
  | .deliver signal =>
    p.phase.delivers = true ∧ p.sigmask signal = false ∧ p.signals.pending signal ≠ []
  | .interrupt => p.phase = .interrupted ∨ p.phase = .woken
  | .failure => p.phase = .selecting
  | .ready _ _ _ => p.phase = .selecting
  | .reload _ _ => p.phase = .reloading
  | .reported info => p.phase.reaps = true ∧ info ∈ p.zombies
  | .nothing =>
    -- Without `WNOHANG`, `waitid(2)` blocks as long as there are children.
    p.phase.reaps = true ∧ p.zombies = [] ∧ (p.phase = .ending → p.server.world.children = [])
  | .teardown => p.phase = .leaving

instance (p : Program) (event : MainEvent) : Decidable (p.Enabled event) :=
  match event with
  | .terminated _ _ | .deliver _ | .reported _ | .nothing => inferInstanceAs (Decidable (_ ∧ _))
  | .sent _ _ _ | .adopt _ => inferInstanceAs (Decidable True)
  | .interrupt => inferInstanceAs (Decidable (_ ∨ _))
  | .failure | .ready _ _ _ | .reload _ _ | .teardown => inferInstanceAs (Decidable (_ = _))

/-- The program goes elsewhere. -/
def goto (p : Program) (phase : MainPhase) : Program := { p with phase := phase }

/-- The condition of the main loop, `!sigreboot`. -/
def loop (p : Program) : Program :=
  p.goto (if p.signals.sigreboot = 0 then .selecting else .leaving)

/-- The second condition of an interruption, `sigchld`. -/
def checkChildren (p : Program) : Program := if p.signals.sigchld then p.goto .reaping else p.loop

/-- The first condition of an interruption, `sighup`. -/
def checkHangup (p : Program) : Program :=
  if p.signals.sighup then p.goto .reloading else p.checkChildren

/-- The end of `teardown`. Nothing is cleaned up with `NDEBUG`. -/
def close (ndebug : Bool) (p : Program) : Except Trap Program :=
  if ndebug then .ok (p.goto .rebooting)
  else do
    let w ← configurationCleanup p.server.world
    return { p with server := p.server.record w, phase := .rebooting }

/-- The end of the body of the loop of `teardown`. -/
def swept (ndebug : Bool) (p : Program) : Except Trap Program :=
  let children : Bool := p.server.world.waitNothing = 0
  if children && !p.signals.sigalrm && !spawnsEmpty p.server.world then .ok (p.goto .suspended)
  else if children then .ok (p.goto .ending)
  else p.close ndebug

/-- The beginning of `teardown`. -/
def startTeardown (p : Program) : Except Trap Program := do
  let w ← spawnsStop p.server.world
  let s ← (p.server.record w).socketSwitchTeardown
  let (sigmask, signals) := p.signals.signalsAlarm
  return { p with server := s, signals := signals, sigmask := sigmask, phase := .suspended }

/-- What an event that can happen does. -/
def act (platform : Platform) (host : Host) (ndebug : Bool) (p : Program) :
    MainEvent → Except Trap Program
  | .terminated info sending =>
    .ok { p with
      zombies := p.zombies ++ [info]
      signals := p.signals.send .sigchld .other sending }
  | .sent signal siginfo sending =>
    .ok { p with signals := p.signals.send signal siginfo sending }
  | .adopt pid => do
    let s ← p.server.step platform host (.adopt pid)
    return { p with server := s }
  | .deliver signal =>
    .ok { p with signals := p.signals.deliver signal, phase := p.phase.interrupt }
  | .interrupt => .ok (if p.phase = .woken then p.goto .sweeping else p.checkHangup)
  | .failure => .ok p.loop
  | .ready ready answers queues => do
    let (howtos, s) ← p.server.roundReboots platform host ready answers
    return { p with server := s, signals := p.signals.queueReboots howtos queues }.loop
  | .reload dirp answer => do
    let s ← p.server.configurationReload host dirp answer
    return { p with server := s, signals := { p.signals with sighup := false } }.checkChildren
  | .reported info => do
    let s ← p.server.step platform host (.reap [info])
    return { p with
      server := s
      zombies := p.zombies.filter fun zombie => zombie.pid ≠ info.pid }
  | .nothing =>
    match p.phase with
    | .sweeping => p.swept ndebug
    | .ending => p.close ndebug
    | _ => .ok { p with signals := { p.signals with sigchld := false } }.loop
  | .teardown => p.startTeardown

/-- One more event, before the system reboots. -/
def step (platform : Platform) (host : Host) (ndebug : Bool) (p : Program) (event : MainEvent) :
    Except Trap Program :=
  if p.phase ≠ .rebooting ∧ p.Enabled event then p.act platform host ndebug event else .ok p

/-- `setup`, up to the first call of `pselect(2)`. -/
def setup (host : Host) (boot : ServerBoot) : Except Trap Program := do
  let (sigmask, signals) := Signals.initial.signalsSetup
  let s ← Server.setup host boot
  return ⟨s, signals, sigmask, [], .selecting⟩

/-- `main`, until some events have happened. -/
def run (platform : Platform) (host : Host) (ndebug : Bool) (boot : ServerBoot)
    (events : List MainEvent) : Except Trap Program := do
  let p ← setup host boot
  events.foldlM (step platform host ndebug) p

/-- The argument of `reboot(2)`. -/
def reboot (p : Program) : Option Int :=
  if p.phase = .rebooting then some p.signals.sigreboot else none

end Program

end Cyberd
