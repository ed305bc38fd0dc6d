import Cyberd.Main.Reboots

/-!
# The run commands

`rc` of `main.c`, between two system calls. It records a daemon of its own frame in the
spawns storage, and waits until its process has terminated. Whatever happens meanwhile, it
returns once and only once the process was waited for, without any pointer to its frame,
and the main loop begins with every signal that was sent.
-/

namespace Cyberd

open Library

/-- The end of a call, whose frame held the daemon. -/
def Machine.leave (m : Machine) (a : Addr) : Machine :=
  { m with heap := fun b => if b = a then none else m.heap b }

/-- A configuration that is zeroed out. -/
def DaemonConf.zero : DaemonConf where
  path := none
  arguments := none
  environment := none
  workdir := none
  stdin := none
  stdout := none
  stderr := none
  sigfinish := 0
  sigreload := 0
  uid := 0
  gid := 0
  nosid := false
  umask := 0
  priority := 0
  start := ⟨false, false, false, false, false, false⟩

/-- `*argv` of `rc` -/
def rcName : Name := ascii "rc"

/-- Where `rc` is. -/
inductive RcPhase
  /-- In `sigsuspend(2)`. -/
  | suspended
  /-- In `sigsuspend(2)`, which a handler has interrupted. -/
  | woken
  /-- In `reap_children(WNOHANG)`. -/
  | sweeping
  /-- It has returned. -/
  | returned
  deriving DecidableEq, Repr

/-- `rc` is in `sigsuspend(2)`. -/
def RcPhase.delivers : RcPhase → Bool
  | .suspended | .woken => true
  | .sweeping | .returned => false

/-- The state of `rc`. -/
structure Rc where
  /-- The daemons and the processes. -/
  world : World
  /-- The signals. -/
  signals : Signals
  /-- The mask of `sigsuspend(2)`. -/
  sigmask : Sigset
  /-- The children that have terminated and were not waited for. -/
  zombies : List Siginfo
  /-- `daemon`, in the frame. -/
  daemon : Addr
  /-- Where it is. -/
  phase : RcPhase

namespace Rc

/-- `rc`, up to `sigsuspend(2)`. The frame of the call is memory that it alone has. -/
def enter (w : World) (signals : Signals) : Except Trap Rc :=
  let a := w.next
  let m := w.fork a rcName
  let sigmask := sigdelset .sigchld signals.procmask
  match w.forked with
  | none => .ok ⟨{ w with toMachine := m }, signals, sigmask, [], a, .returned⟩
  | some pid => do
    let m := m.malloc fun _ => ⟨.started, rcName, pid, .zero⟩
    let w ← spawnsRecord a { w with toMachine := m }
    return ⟨w, signals, sigmask, [], a, .suspended⟩

/-- The event can happen. -/
def Enabled (r : Rc) : MainEvent → Prop
  | .terminated info _ =>
    (∃ child ∈ r.world.children, child.pid = info.pid) ∧
      ∀ zombie ∈ r.zombies, zombie.pid ≠ info.pid
  | .sent _ _ _ | .adopt _ => True
  | .deliver signal =>
    r.phase.delivers = true ∧ r.sigmask signal = false ∧ r.signals.pending signal ≠ []
  | .interrupt => r.phase = .woken
  | .reported info => r.phase = .sweeping ∧ info ∈ r.zombies
  | .nothing => r.phase = .sweeping ∧ r.zombies = []
  | .failure | .ready _ _ _ | .reload _ _ | .teardown => False

instance (r : Rc) (event : MainEvent) : Decidable (r.Enabled event) :=
  match event with
  | .terminated _ _ | .deliver _ | .reported _ | .nothing => inferInstanceAs (Decidable (_ ∧ _))
  | .sent _ _ _ | .adopt _ => inferInstanceAs (Decidable True)
  | .interrupt => inferInstanceAs (Decidable (_ = _))
  | .failure | .ready _ _ _ | .reload _ _ | .teardown => inferInstanceAs (Decidable False)

/-- What an event that can happen does. -/
def act (r : Rc) : MainEvent → Except Trap Rc
  | .terminated info sending =>
    .ok { r with
      zombies := r.zombies ++ [info]
      signals := r.signals.send .sigchld .other sending }
  | .sent signal siginfo sending =>
    .ok { r with signals := r.signals.send signal siginfo sending }
  | .adopt pid => .ok { r with world := { r.world with toMachine := r.world.adopt pid } }
  | .deliver signal => .ok { r with signals := r.signals.deliver signal, phase := .woken }
  | .interrupt => .ok { r with phase := .sweeping }
  | .reported info => do
    let (_, w) ← reapChildren [info] r.world
    return { r with
      world := w
      zombies := r.zombies.filter fun zombie => zombie.pid ≠ info.pid }
  | .nothing =>
    if spawnsEmpty r.world then
      .ok { r with
        world := { r.world with toMachine := r.world.leave r.daemon }
        signals := { r.signals with sigchld := false }
        phase := .returned }
    else .ok { r with phase := .suspended }
  | .failure | .ready _ _ _ | .reload _ _ | .teardown => .ok r

/-- One more event, before it returns. -/
def step (r : Rc) (event : MainEvent) : Except Trap Rc :=
  if r.phase ≠ .returned ∧ r.Enabled event then r.act event else .ok r

/-- `rc` after `signals_setup`, until some events have happened. -/
def run (w : World) (events : List MainEvent) : Except Trap Rc := do
  let r ← enter w Signals.initial.signalsSetup.2
  events.foldlM step r

end Rc

/-- `setup` with `rc`, up to the first call of `pselect(2)`, none when `rc` did not return. -/
def Program.setupRc (host : Host) (boot : ServerBoot) (events : List MainEvent) :
    Except Trap (Option Program) := do
  let s ← (Server.openlog boot).socketSwitchSetup boot.path boot.root boot.mkdir boot.create
  let r ← Rc.run s.world events
  if r.phase = .returned then
    let s ← (s.record r.world).configurationLoad host boot.boot.dirp boot.load
    return some ⟨s, r.signals, Signals.initial.signalsSetup.1, r.zombies, .selecting⟩
  else return none

namespace Rc

/-- The memory and the processes while `rc` runs: its daemon is the only one there is, and it
is not started again. -/
structure Frame (w : World) (a : Addr) : Prop where
  /-- The storage is the index of the daemons that run. -/
  indexed : Indexed w.toMachine w.spawns
  /-- The configuration is not loaded. -/
  daemons : w.daemons = .null
  /-- The daemon of the frame. -/
  frame : ∃ daemon, w.heap a = some daemon ∧ daemon.name = rcName ∧ daemon.conf = .zero
  /-- There is no other one. -/
  alone : ∀ b, b ≠ a → w.heap b = none
  /-- Its process is the only one that was forked. -/
  owners : ∀ child ∈ w.children, ∀ b name, child.daemon = some (b, name) → b = a
  /-- It was forked once. -/
  forks : w.forks.map Fork.name = [rcName]

/-- The signals and the terminated children agree with where `rc` is. -/
structure Waits (r : Rc) : Prop where
  /-- The signals have a handler, but for the alarm. -/
  handled : ∀ signal, r.signals.handled signal = (signal != .sigalrm)
  /-- The process blocks them. -/
  procmask : ∀ signal, r.signals.procmask signal = (signal != .sigalrm)
  /-- `sigsuspend(2)` does so, but for the one of the children. -/
  sigmask : ∀ signal, r.sigmask signal = (signal != .sigalrm && signal != .sigchld)
  /-- There is no alarm. -/
  silent : r.signals.pending .sigalrm = []
  /-- Terminated children are children. -/
  zombies : ∀ zombie ∈ r.zombies, ∃ child ∈ r.world.children, child.pid = zombie.pid
  /-- Each of them has terminated once. -/
  distinct : (r.zombies.map Siginfo.pid).Nodup
  /-- Their signal is pending, or they are about to be reaped. -/
  noticed : r.zombies ≠ [] →
    r.signals.pending .sigchld ≠ [] ∨ r.phase = .woken ∨ r.phase = .sweeping
  /-- No other signal was delivered. -/
  flags : r.signals.sigreboot = 0 ∧ r.signals.sighup = false ∧ r.signals.sigalrm = false ∧
    (r.phase = .returned → r.signals.sigchld = false)

/-- Once it has returned, no pointer to the frame is left, nor is its process. -/
structure Over (r : Rc) : Prop where
  /-- The daemons and the processes are sound. -/
  invariant : r.world.Invariant
  /-- The configuration is not loaded. -/
  daemons : r.world.daemons = .null
  /-- No daemon is in memory. -/
  heap : ∀ a, r.world.heap a = none
  /-- None is in the storage. -/
  spawns : spawnsEmpty r.world = true
  /-- The children are adopted processes. -/
  children : ∀ child ∈ r.world.children, child.daemon = none
  /-- It was forked once, or it failed. -/
  forks : r.world.forks.map Fork.name = [rcName]

/-- The state of `rc` is sound. -/
structure Sound (r : Rc) : Prop where
  /-- Its signals are. -/
  waits : r.Waits
  /-- So is its frame, until it returns. -/
  running : r.phase ≠ .returned → Frame r.world r.daemon
  /-- The storage is only empty where it is looked at. -/
  held : r.phase.delivers = true → spawnsEmpty r.world = false
  /-- Nothing is left of it then. -/
  ended : r.phase = .returned → r.Over

variable {w w' : World} {a : Addr} {r r' : Rc} {event : MainEvent} {events : List MainEvent}

section Memory

variable {m : Machine} {daemon : Daemon}

/-- Nothing of the processes changes when a frame is left whose daemon is stopped. -/
theorem leave_sound (h : m.Sound) (ha : m.heap a = some daemon) : (m.leave a).Sound := by
  have hfree := h.free ha
  exact
    { fresh := hfree.fresh
      freed := fun b hb => hfree.freed b (List.mem_append_left _ hb)
      freed_nodup := h.freed_nodup
      pids := hfree.pids
      range := hfree.range
      forked := hfree.forked
      process := hfree.process
      running := hfree.running }

/-- A zeroed configuration restarts nothing. -/
theorem zero_disarmed (h : daemon.conf = .zero) : daemon.Disarmed := by
  intro info
  rw [h]
  cases hcode : info.code <;> simp [Siginfo.restarts, DaemonConf.zero, hcode]

/-- An empty memory is sound. -/
theorem invariant_of_empty (hsound : w.toMachine.Sound) (hheap : ∀ a, w.heap a = none)
    (hdaemons : w.daemons = .null) (hspawns : w.spawns = .null) : w.Invariant := by
  refine ⟨⟨hsound, ?_, fun a => ?_⟩, ?_, TreeNode.wellFormed_null, ?_, fun a => ?_⟩
  · rw [hspawns]
    exact TreeNode.wellFormed_null
  · simp only [Machine.Running, hheap, hspawns]
    simp
  · rw [hdaemons]
    exact TreeNode.wellFormed_null
  · exact fun _ _ b hb => by simp at hb
  · simp only [hheap, hdaemons]
    simp

/-- A terminated child is waited for, and the daemon of the frame is not started again. -/
theorem Frame.reap (h : Frame w a) (info : Siginfo) :
    ∃ status w', reapChildren [info] w = .ok (status, w') ∧ Frame w' a := by
  refine reapChildren_ok (fun w => Frame w a) (fun w hw => hw.indexed) ?_ [info] h
  intro w m info found spawns hw hwait hfound hindexed
  obtain ⟨-, hm⟩ := Machine.waitid_some hwait
  have hheap : m.heap = w.heap := by rw [hm]
  obtain ⟨daemon, ha, hname, hconf⟩ := hw.frame
  have howners : ∀ child ∈ m.children, ∀ b name, child.daemon = some (b, name) → b = a := by
    rw [hm]
    exact fun child hc => hw.owners child (List.mem_of_mem_filter hc)
  have hforks : m.forks.map Fork.name = [rcName] := by
    rw [hm]
    exact hw.forks
  cases found with
  | none =>
    refine ⟨hindexed, hw.daemons, ⟨daemon, ?_, hname, hconf⟩, fun b hb => ?_, howners, hforks⟩
    · exact (congrFun hheap a).trans ha
    · exact (congrFun hheap b).trans (hw.alone b hb)
  | some b =>
    have hb : b = a := by
      obtain ⟨daemon', hb, -⟩ := (hfound b).mp rfl
      by_contra hne
      rw [hw.alone b hne] at hb
      cases hb
    subst hb
    have hreaped := Machine.reaped_disarmed info (hheap ▸ ha) (zero_disarmed hconf)
    rw [hreaped] at hindexed ⊢
    refine ⟨hindexed, hw.daemons, ⟨_, if_pos rfl, hname, hconf⟩, fun c hc => ?_, howners, hforks⟩
    rw [Machine.write_heap, if_neg hc, hheap]
    exact hw.alone c hc

/-- An adopted process leaves the frame as it is. -/
theorem Frame.adopt (h : Frame w a) (pid : Int) :
    Frame { w with toMachine := w.adopt pid } a := by
  have hsame : (w.adopt pid).heap = w.heap ∧ (w.adopt pid).forks = w.forks ∧
      ∀ child ∈ (w.adopt pid).children, child ∈ w.children ∨ child.daemon = none := by
    rw [Machine.adopt]
    split
    · refine ⟨rfl, rfl, fun child hc => ?_⟩
      rcases List.mem_cons.mp hc with rfl | hc
      · exact Or.inr rfl
      · exact Or.inl hc
    · exact ⟨rfl, rfl, fun child hc => Or.inl hc⟩
  obtain ⟨hheap, hforks, hchildren⟩ := hsame
  have hpid : (w.adopt pid).pid = w.pid := by
    funext b
    rw [Machine.pid, Machine.pid, hheap]
  refine ⟨h.indexed.congr (h.indexed.sound.adopt pid) hpid fun b => ?_, h.daemons, ?_, ?_, ?_, ?_⟩
  · rw [Machine.Running, Machine.Running, hheap]
  · rw [hheap]
    exact h.frame
  · rw [hheap]
    exact h.alone
  · intro child hc b name howner
    rcases hchildren child hc with hc | hnone
    · exact h.owners child hc b name howner
    · rw [hnone] at howner
      cases howner
  · rw [hforks]
    exact h.forks

/-- Once the storage is empty, `rc` leaves nothing of its frame. -/
theorem Frame.leave (h : Frame r.world r.daemon) (hempty : spawnsEmpty r.world = true)
    {signals : Signals} :
    Over { r with
      world := { r.world with toMachine := r.world.leave r.daemon }
      signals := signals
      phase := .returned } := by
  obtain ⟨daemon, ha, -⟩ := h.frame
  have hheap : ∀ b, (r.world.leave r.daemon).heap b = none := by
    intro b
    change (if b = r.daemon then none else r.world.heap b) = none
    split
    · rfl
    · rename_i hne
      exact h.alone b hne
  have hspawns : r.world.spawns = .null := by
    rw [spawnsEmpty] at hempty
    cases hs : r.world.spawns with
    | null => rfl
    | node element left right height =>
      rw [hs] at hempty
      cases hempty
  refine ⟨invariant_of_empty (leave_sound h.indexed.sound ha) hheap h.daemons hspawns, h.daemons,
    hheap, hempty, fun child hc => ?_, h.forks⟩
  cases howner : child.daemon with
  | none => rfl
  | some owner =>
    -- The process of the daemon would still be in the storage.
    obtain ⟨b, name⟩ := owner
    rw [h.owners child hc b name howner] at howner
    have hrun := h.indexed.sound.process child hc _ name daemon howner ha
    have hmem := (h.indexed.mem _).mpr ⟨daemon, ha, hrun.1⟩
    rw [hspawns] at hmem
    simp at hmem

end Memory

section Steps

/-- What `rc` begins with. -/
structure Fresh (w : World) : Prop where
  /-- The daemons and the processes are sound. -/
  invariant : w.Invariant
  /-- The configuration is not loaded. -/
  daemons : w.daemons = .null
  /-- No daemon is in memory. -/
  heap : ∀ a, w.heap a = none
  /-- None is in the storage. -/
  spawns : w.spawns = .null
  /-- The children are adopted processes. -/
  children : ∀ child ∈ w.children, child.daemon = none
  /-- No process was forked. -/
  forks : w.forks = []

/-- The signals as `signals_setup` leaves them. -/
theorem waits_of_fresh {s : Signals} (hs : s = Signals.initial.signalsSetup.2)
    {phase : RcPhase} (w : World) (a : Addr) :
    Waits ⟨w, s, sigdelset .sigchld s.procmask, [], a, phase⟩ := by
  subst hs
  refine
    { handled := fun n => by cases n <;> rfl
      procmask := fun n => by cases n <;> rfl
      sigmask := fun n => by cases n <;> rfl
      silent := rfl
      zombies := fun zombie hz => absurd hz List.not_mem_nil
      distinct := List.nodup_nil
      noticed := fun hz => absurd rfl hz
      flags := ⟨rfl, rfl, rfl, fun _ => rfl⟩ }

/-- The memory at the entry of the program is one that `rc` begins with. -/
theorem boot_fresh (boot : Boot) : Fresh boot.world := by
  have hadopt : ∀ (orphans : List Int) (m : Machine),
      (∀ a, m.heap a = none) ∧ (∀ child ∈ m.children, child.daemon = none) ∧ m.forks = [] →
      (∀ a, (orphans.foldl Machine.adopt m).heap a = none) ∧
        (∀ child ∈ (orphans.foldl Machine.adopt m).children, child.daemon = none) ∧
        (orphans.foldl Machine.adopt m).forks = [] := by
    intro orphans
    induction orphans with
    | nil => exact fun m h => h
    | cons pid orphans ih =>
      refine fun m h => ih _ ?_
      rw [Machine.adopt]
      split
      · refine ⟨h.1, fun child hc => ?_, h.2.2⟩
        rcases List.mem_cons.mp hc with rfl | hc
        · rfl
        · exact h.2.1 child hc
      · exact h
  obtain ⟨hheap, hchildren, hforks⟩ := hadopt boot.orphans
    ⟨fun _ => none, 0, boot.stale, [], [], boot.pids, [], []⟩
    ⟨fun _ => rfl, fun _ hc => absurd hc List.not_mem_nil, rfl⟩
  exact ⟨boot.world_invariant, rfl, hheap, rfl, hchildren, hforks⟩

/-- A fork that fails changes no process. -/
theorem Fresh.failed (h : Fresh w) (hfork : w.forked = none) :
    (w.fork w.next rcName).children = w.children ∧ (w.fork w.next rcName).Sound := by
  have hsound := h.invariant.indexed.sound
  have hchildren : (w.fork w.next rcName).children = w.children := by
    rw [Machine.fork, hfork]
    rfl
  refine ⟨hchildren, ?_⟩
  exact
    { fresh := hsound.fresh
      freed := hsound.freed
      freed_nodup := hsound.freed_nodup
      pids := hchildren ▸ hsound.pids
      range := hchildren ▸ hsound.range
      forked := hchildren ▸ hsound.forked
      process := hchildren ▸ hsound.process
      running := hchildren ▸ hsound.running }

/-- A fork that succeeds leads to a daemon that is recorded, as its start would. -/
theorem Fresh.recorded (h : Fresh w) {pid : Int} (hfork : w.forked = some pid) :
    ∃ w', spawnsRecord w.next
        ⟨(w.fork w.next rcName).malloc fun _ => ⟨.started, rcName, pid, .zero⟩, w.daemons,
          w.spawns⟩ = .ok w' ∧ Frame w' w.next ∧ spawnsEmpty w' = false := by
  -- The same daemon, before its start.
  generalize hd : (⟨.stopped, rcName, 0, .zero⟩ : Daemon) = stopped
  have hstate : stopped.state = .stopped := by rw [← hd]
  have hname : stopped.name = rcName := by rw [← hd]
  have hconf : stopped.conf = .zero := by rw [← hd]
  have hmalloc : (w.malloc fun _ => stopped).Sound :=
    h.invariant.indexed.sound.malloc fun _ => hstate
  generalize hm : (w.malloc fun _ => stopped) = m at hmalloc
  have hheap : ∀ b, m.heap b = if b = w.next then some stopped else none := by
    intro b
    rw [← hm, Machine.malloc_heap, h.heap]
  have ha : m.heap w.next = some stopped := by rw [hheap, if_pos rfl]
  have hforked : m.forked = some pid := by
    rw [← hfork, ← hm]
    rfl
  have hindexed : Indexed m w.spawns := by
    refine ⟨hmalloc, ?_, fun b => ?_⟩
    · rw [h.spawns]
      exact TreeNode.wellFormed_null
    · rw [h.spawns, Machine.Running]
      simp only [TreeNode.toList_null, List.not_mem_nil, hheap, false_iff]
      rintro ⟨daemon, hdaemon, hrun⟩
      split at hdaemon
      · cases hdaemon
        exact hrun hstate
      · cases hdaemon
  obtain ⟨spawns, hstart, hstarted⟩ := @daemonStart_ok ⟨m, w.daemons, w.spawns⟩ w.next stopped
    hindexed ha
  have hsame : (m.fork w.next rcName).write w.next ⟨.started, rcName, pid, .zero⟩ =
      (w.fork w.next rcName).malloc fun _ => ⟨.started, rcName, pid, .zero⟩ := by
    rw [← hm]
    have hwrite : ∀ d : Daemon, (fun b => if b = w.next then some d else
        if b = w.next then some stopped else w.heap b) =
        fun b => if b = w.next then some d else w.heap b := by
      intro d
      funext b
      by_cases hb : b = w.next <;> simp [hb]
    exact congrArg (fun heap => { (w.fork w.next rcName) with heap := heap, next := w.next + 1 })
      (hwrite _)
  have hchildren : (m.fork w.next rcName).children =
      ⟨pid, some (w.next, rcName)⟩ :: w.children := by
    rw [Machine.fork, hforked, ← hm]
    rfl
  have hforks : (m.fork w.next rcName).forks = [⟨w.next, rcName, some pid⟩] := by
    rw [Machine.fork, hforked, ← hm]
    change w.forks ++ _ = _
    rw [h.forks]
    rfl
  have heffect : m.start w.next =
      (m.fork w.next rcName).write w.next ⟨.started, rcName, pid, .zero⟩ := by
    rw [Machine.start_stopped ha hstate, hforked, hname, Daemon.spawned, hname, hconf]
  simp only [heffect] at hstart hstarted
  refine ⟨⟨_, w.daemons, spawns⟩, ?_, ⟨hstarted, h.daemons, ⟨_, if_pos rfl, rfl, rfl⟩,
    fun b hb => ?_, fun child hc b name howner => ?_, ?_⟩, ?_⟩
  · simp only [daemonStart, daemonSpawn, Machine.read_ok ha, except_bind_ok, hstate, hforked,
      hname, hconf] at hstart
    obtain ⟨⟨status, w'⟩, hspawn, hw'⟩ := except_bind_eq_ok.mp hstart
    obtain ⟨w'', hrecord, hspawn⟩ := except_bind_eq_ok.mp hspawn
    cases hspawn
    cases hw'
    rw [← hsame]
    exact hrecord
  · exact (if_neg hb).trans ((hheap b).trans (if_neg hb))
  · have hmem : child ∈ (m.fork w.next rcName).children := hc
    rw [hchildren] at hmem
    rcases List.mem_cons.mp hmem with rfl | hold
    · cases howner
      rfl
    · rw [h.children child hold] at howner
      cases howner
  · change (m.fork w.next rcName).forks.map Fork.name = [rcName]
    rw [hforks]
    rfl
  · have hmem := (hstarted.mem w.next).mpr ⟨_, if_pos rfl, DaemonState.noConfusion⟩
    cases spawns with
    | null => simp at hmem
    | node => rfl

/-- `rc` begins with its daemon in the storage, or does not begin. -/
theorem enter_ok (h : Fresh w) :
    ∃ r, enter w Signals.initial.signalsSetup.2 = .ok r ∧ r.Sound := by
  rw [enter]
  dsimp only
  cases hfork : w.forked with
  | none =>
    obtain ⟨hchildren, hsound⟩ := h.failed hfork
    refine ⟨_, rfl, waits_of_fresh rfl _ _, fun hno => absurd rfl hno, ?_, fun _ => ?_⟩
    · exact fun hno => absurd hno Bool.false_ne_true
    refine ⟨invariant_of_empty hsound h.heap h.daemons h.spawns, h.daemons, h.heap, ?_,
      hchildren ▸ h.children, ?_⟩
    · rw [spawnsEmpty, h.spawns]
      rfl
    · rw [Machine.fork, h.forks]
      rfl
  | some pid =>
    obtain ⟨w', hrecord, hframe, hheld⟩ := h.recorded hfork
    simp only [hrecord, except_bind_ok]
    exact ⟨_, rfl, waits_of_fresh rfl _ _, fun _ => hframe, fun _ => hheld,
      fun hno => RcPhase.noConfusion hno⟩

/-- Signals that are sent are noticed. -/
theorem Waits.send (h : r.Waits) (signal : Signal) (siginfo : SignalInfo) (sending : Sending) :
    Waits { r with signals := r.signals.send signal siginfo sending } := by
  have hpre := Program.send_pending signal siginfo sending r.signals .sigchld
  have hsilent : (r.signals.send signal siginfo sending).pending .sigalrm = [] := by
    cases signal with
    | sigalrm =>
      rw [Program.send_discards, h.silent]
      rw [Signals.discards, h.handled, h.procmask]
      rfl
    | sigterm | sigchld | sighup => rw [Program.send_other (by decide), h.silent]
  rw [Program.send_frame]
  exact { h with
    silent := hsilent
    noticed := fun hz => (h.noticed hz).imp_left fun hpending hnil =>
      hpending (List.prefix_nil.mp (hnil ▸ hpre)) }

/-- A child that terminates is noticed. -/
theorem Waits.terminated (h : r.Waits) {info : Siginfo} (sending : Sending)
    (hchild : ∃ child ∈ r.world.children, child.pid = info.pid)
    (hnew : ∀ zombie ∈ r.zombies, zombie.pid ≠ info.pid) :
    Waits { r with
      zombies := r.zombies ++ [info]
      signals := r.signals.send .sigchld .other sending } := by
  have hsent := h.send .sigchld .other sending
  refine { hsent with
    zombies := fun zombie hz => ?_, distinct := ?_, noticed := fun _ => Or.inl ?_ }
  · rcases List.mem_append.mp hz with hz | hz
    · exact h.zombies zombie hz
    · rw [List.mem_singleton.mp hz]
      exact hchild
  · rw [List.map_append, List.nodup_append]
    refine ⟨h.distinct, List.nodup_singleton _, fun pid hpid pid' hpid' heq => ?_⟩
    obtain ⟨zombie, hz, rfl⟩ := List.mem_map.mp hpid
    rw [List.map_singleton, List.mem_singleton] at hpid'
    exact hnew zombie hz (heq.trans hpid')
  · exact Program.send_self (h.handled .sigchld)

/-- The only signal that is delivered is the one of the children. -/
theorem Waits.sigchld (h : r.Waits) {signal : Signal} (hmask : r.sigmask signal = false)
    (hpending : r.signals.pending signal ≠ []) : signal = .sigchld := by
  rw [h.sigmask] at hmask
  cases signal with
  | sigchld => rfl
  | sigalrm => exact absurd h.silent hpending
  | sigterm | sighup => cases hmask

/-- Its delivery is noticed. -/
theorem Waits.deliver (h : r.Waits) (hpending : r.signals.pending .sigchld ≠ []) :
    Waits { r with signals := r.signals.deliver .sigchld, phase := .woken } := by
  obtain ⟨siginfo, infos, heq⟩ := List.exists_cons_of_ne_nil hpending
  rw [Program.deliver_eq heq]
  exact
    { handled := h.handled
      procmask := h.procmask
      sigmask := h.sigmask
      silent := h.silent
      zombies := h.zombies
      distinct := h.distinct
      noticed := fun _ => Or.inr (Or.inl rfl)
      flags := ⟨h.flags.1, h.flags.2.1, h.flags.2.2.1, fun hno => RcPhase.noConfusion hno⟩ }

/-- Without any terminated child, `rc` goes on to its next call, or returns. -/
theorem Waits.settle (h : r.Waits) (hz : r.zombies = []) (w : World) (sigchld : Bool)
    (phase : RcPhase) (hflag : phase = .returned → sigchld = false) :
    Waits { r with
      world := w, signals := { r.signals with sigchld := sigchld }, phase := phase } :=
  { h with
    zombies := fun _ hmem => absurd (hz ▸ hmem) List.not_mem_nil
    noticed := fun hno => absurd hz hno
    flags := ⟨h.flags.1, h.flags.2.1, h.flags.2.2.1, hflag⟩ }

/-- No event stops `rc`, and each of them keeps it sound. -/
theorem Sound.step (h : r.Sound) (event : MainEvent) : ∃ r', r.step event = .ok r' ∧ r'.Sound := by
  rw [Rc.step]
  split
  swap
  · exact ⟨r, rfl, h⟩
  rename_i hcan
  obtain ⟨hphase, henabled⟩ := hcan
  have hframe := h.running hphase
  have hover : ∀ {P : Prop}, r.phase = .returned → P := fun hno => absurd hno hphase
  cases event with
  | terminated info sending =>
    exact ⟨_, rfl, h.waits.terminated sending henabled.1 henabled.2, fun _ => hframe, h.held, hover⟩
  | sent signal siginfo sending =>
    exact ⟨_, rfl, h.waits.send signal siginfo sending, fun _ => hframe, h.held, hover⟩
  | adopt pid =>
    refine ⟨_, rfl, { h.waits with zombies := fun zombie hz => ?_ }, fun _ => hframe.adopt pid,
      h.held, hover⟩
    obtain ⟨child, hc, hpid⟩ := h.waits.zombies zombie hz
    refine ⟨child, ?_, hpid⟩
    change child ∈ (r.world.adopt pid).children
    rw [Machine.adopt]
    split
    · exact List.mem_cons_of_mem _ hc
    · exact hc
  | deliver signal =>
    obtain ⟨hdelivers, hmask, hpending⟩ := henabled
    have hsignal := h.waits.sigchld hmask hpending
    subst hsignal
    exact ⟨_, rfl, h.waits.deliver hpending, fun _ => hframe, fun _ => h.held hdelivers,
      fun hno => RcPhase.noConfusion hno⟩
  | interrupt =>
    refine ⟨_, rfl, { h.waits with noticed := fun _ => Or.inr (Or.inr rfl), flags := ?_ },
      fun _ => hframe, fun hno => absurd hno Bool.false_ne_true, fun hno => RcPhase.noConfusion hno⟩
    obtain ⟨hreboot, hhup, halrm, -⟩ := h.waits.flags
    exact ⟨hreboot, hhup, halrm, fun hno => RcPhase.noConfusion hno⟩
  | reported info =>
    obtain ⟨hsweeping, hmem⟩ := henabled
    obtain ⟨status, w', hreap, hframe'⟩ := hframe.reap info
    simp only [act, hreap, except_bind_ok]
    refine ⟨_, rfl, { h.waits with zombies := fun zombie hz => ?_, distinct := ?_, noticed := ?_ },
      fun _ => hframe', ?_, hover⟩
    · obtain ⟨hz, hne⟩ := List.mem_filter.mp hz
      obtain ⟨child, hc, hpid⟩ := h.waits.zombies zombie hz
      exact ⟨child, reapChildren_retains hreap child hc (hpid ▸ of_decide_eq_true hne), hpid⟩
    · exact (List.filter_sublist.map Siginfo.pid).nodup h.waits.distinct
    · exact fun _ => Or.inr (Or.inr hsweeping)
    · rw [hsweeping]
      exact fun hno => absurd hno Bool.false_ne_true
  | nothing =>
    obtain ⟨-, hz⟩ := henabled
    rw [act]
    split
    · rename_i hempty
      exact ⟨_, rfl, h.waits.settle hz _ false _ fun _ => rfl, fun hno => absurd rfl hno,
        fun hno => absurd hno Bool.false_ne_true, fun _ => hframe.leave hempty⟩
    · rename_i hheld
      have hsettled := h.waits.settle hz r.world r.signals.sigchld .suspended fun hno =>
        RcPhase.noConfusion hno
      exact ⟨_, rfl, hsettled, fun _ => hframe, fun _ => Bool.eq_false_of_not_eq_true hheld,
        fun hno => RcPhase.noConfusion hno⟩
  | failure | ready | reload | teardown => exact henabled.elim

/-- Every run of `rc` is sound, and none of them stops. -/
theorem run_sound (h : Fresh w) (events : List MainEvent) :
    ∃ r, run w events = .ok r ∧ r.Sound := by
  obtain ⟨r₀, henter, hr₀⟩ := enter_ok h
  have hevents : ∀ (events : List MainEvent) (r : Rc), r.Sound →
      ∃ r', events.foldlM step r = .ok r' ∧ r'.Sound := by
    intro events
    induction events with
    | nil => exact fun r hr => ⟨r, rfl, hr⟩
    | cons event events ih =>
      intro r hr
      obtain ⟨r', hstep, hr'⟩ := hr.step event
      rw [List.foldlM_cons, hstep, except_bind_ok]
      exact ih r' hr'
  rw [run, henter, except_bind_ok]
  exact hevents events r₀ hr₀

end Steps

end Rc

end Cyberd
