import Cyberd.Daemon.Reload

/-!
# Signals

Only a daemon that is not stopped is signalled, by the pid that it holds. This pid is the
one of its own process, which was not waited for: the state of a daemon tells whether its
pid is up to date, through every event.
-/

namespace Cyberd

open Library

/-- A daemon that is not started again. -/
def Daemon.disarmed (daemon : Daemon) : Daemon :=
  { daemon with
    conf := { daemon.conf with start := ⟨false, false, false, false, false, false⟩ } }

namespace Machine

/-- The effect of `daemon_stop`. -/
def stop (m : Machine) (a : Addr) : Machine :=
  match m.heap a with
  | some daemon =>
    if daemon.state = .started then
      (m.kill a daemon.pid daemon.conf.sigfinish).write a { daemon with state := .stopping }
    else m
  | none => m

/-- The effect of `daemon_reload`. -/
def reload (m : Machine) (a : Addr) : Machine :=
  match m.heap a with
  | some daemon =>
    if daemon.state = .started then m.kill a daemon.pid daemon.conf.sigreload else m
  | none => m

/-- The effect of `daemon_end`. -/
def terminate (m : Machine) (a : Addr) : Machine :=
  match m.heap a with
  | some daemon => if daemon.state ≠ .stopped then m.kill a daemon.pid sigkill else m
  | none => m

/-- The effect of `spawns_stop_element`. -/
def disarm (m : Machine) (a : Addr) : Machine :=
  match m.heap a with
  | some daemon => (m.write a daemon.disarmed).stop a
  | none => m

/-- The effect of an action on a daemon. -/
def perform (m : Machine) (a : Addr) : DaemonAction → Machine
  | .daemonStart => m.start a
  | .daemonStop => m.stop a
  | .daemonReload => m.reload a
  | .daemonEnd => m.terminate a

/-- The signal reaches a process that was forked for its daemon and not waited for. -/
def Reaches (m : Machine) (k : Kill) : Prop :=
  0 < k.pid ∧ ∃ name, ⟨k.daemon, name, some k.pid⟩ ∈ m.forks ∧
    k.receiver = some ⟨k.pid, some (k.daemon, name)⟩

/-- The processes of daemons were forked for them, and so were the receivers of signals. -/
structure Signalled (m : Machine) : Prop where
  /-- A process of a daemon was forked for it. -/
  forked : ∀ child ∈ m.children, ∀ a name, child.daemon = some (a, name) →
    ⟨a, name, some child.pid⟩ ∈ m.forks
  /-- Every signal reached the process of its daemon. -/
  kills : ∀ k ∈ m.kills, m.Reaches k

variable {m m' : Machine} {a : Addr} {daemon : Daemon}

theorem stop_started (ha : m.heap a = some daemon) (hs : daemon.state = .started) :
    m.stop a =
      (m.kill a daemon.pid daemon.conf.sigfinish).write a { daemon with state := .stopping } := by
  simp [stop, ha, hs]

theorem stop_other (ha : m.heap a = some daemon) (hs : daemon.state ≠ .started) :
    m.stop a = m := by
  simp [stop, ha, hs]

/-- The process of a running daemon is the child that has its pid. -/
theorem Sound.find_process (h : m.Sound) (ha : m.heap a = some daemon)
    (hs : daemon.state ≠ .stopped) :
    m.children.find? (fun c => c.pid = daemon.pid) =
      some ⟨daemon.pid, some (a, daemon.name)⟩ := by
  have hmem := h.running a daemon ha hs
  cases hfind : m.children.find? (fun c => c.pid = daemon.pid) with
  | none =>
    have hnone := List.find?_eq_none.mp hfind _ hmem
    simp at hnone
  | some child =>
    have hpid : child.pid = daemon.pid := by simpa using List.find?_some hfind
    rw [List.inj_on_of_nodup_map h.pids (List.mem_of_find?_eq_some hfind) hmem hpid]

/-- More forks, fewer processes of daemons, and the same signals. -/
theorem Signalled.mono (h : m.Signalled) (hforks : ∀ f ∈ m.forks, f ∈ m'.forks)
    (hchildren : ∀ child ∈ m'.children, ∀ a name, child.daemon = some (a, name) →
      child ∈ m.children ∨ ⟨a, name, some child.pid⟩ ∈ m'.forks)
    (hkills : m'.kills = m.kills) : m'.Signalled := by
  constructor
  · intro child hc a name howner
    rcases hchildren child hc a name howner with hold | hnew
    · exact hforks _ (h.forked child hold a name howner)
    · exact hnew
  · intro k hk
    rw [hkills] at hk
    obtain ⟨hpos, name, hfork, hreceiver⟩ := h.kills k hk
    exact ⟨hpos, name, hforks _ hfork, hreceiver⟩

/-- A signal to a running daemon reaches its process. -/
theorem Signalled.kill (h : m.Signalled) (hsound : m.Sound) (ha : m.heap a = some daemon)
    (hs : daemon.state ≠ .stopped) (signo : Nat) : (m.kill a daemon.pid signo).Signalled := by
  constructor
  · exact h.forked
  · intro k hk
    rcases List.mem_append.mp hk with hk | hk
    · exact h.kills k hk
    · have hmem := hsound.running a daemon ha hs
      rw [List.mem_singleton.mp hk]
      refine ⟨(hsound.range _ hmem).1, daemon.name, h.forked _ hmem a daemon.name rfl, ?_⟩
      exact hsound.find_process ha hs

/-- A store sends no signal. -/
theorem Signalled.write (h : m.Signalled) (a : Addr) (daemon : Daemon) :
    (m.write a daemon).Signalled := ⟨h.forked, h.kills⟩

/-- What only touches one daemon sends no signal. -/
theorem Signalled.touches {forks : List Fork} (h : m.Signalled) (ht : Touches m m' a forks) :
    m'.Signalled := by
  apply h.mono
  · intro f hf
    rw [ht.forks_eq]
    exact List.mem_append_left _ hf
  · intro child hc b name howner
    rcases (ht.children child).mp hc with hold | ⟨f, hf, hpid, hdaemon⟩
    · exact Or.inl hold
    · rw [howner] at hdaemon
      cases hdaemon
      right
      rw [ht.forks_eq, ← hpid]
      exact List.mem_append_right _ hf
  · exact ht.kills_eq

/-- Stopping a daemon signals its process. -/
theorem Signalled.stop (h : m.Signalled) (hsound : m.Sound) (a : Addr) :
    (m.stop a).Signalled := by
  cases ha : m.heap a with
  | none => rwa [Machine.stop, ha]
  | some daemon =>
    by_cases hs : daemon.state = .started
    · rw [stop_started ha hs]
      exact (h.kill hsound ha (by rw [hs]; decide) _).write a _
    · rwa [stop_other ha hs]

/-- A stop keeps the processes sound. -/
theorem Sound.stop (h : m.Sound) (a : Addr) : (m.stop a).Sound := by
  cases ha : m.heap a with
  | none => rwa [Machine.stop, ha]
  | some daemon =>
    by_cases hs : daemon.state = .started
    · rw [stop_started ha hs]
      exact (h.kill a daemon.pid daemon.conf.sigfinish).write ha rfl rfl (by simp [hs])
    · rwa [stop_other ha hs]

/-- Reloading a daemon signals its process. -/
theorem Signalled.reload (h : m.Signalled) (hsound : m.Sound) (a : Addr) :
    (m.reload a).Signalled := by
  cases ha : m.heap a with
  | none => rwa [Machine.reload, ha]
  | some daemon =>
    simp only [Machine.reload, ha]
    split
    · rename_i hs
      exact h.kill hsound ha (by rw [hs]; decide) _
    · exact h

/-- Ending a daemon signals its process. -/
theorem Signalled.terminate (h : m.Signalled) (hsound : m.Sound) (a : Addr) :
    (m.terminate a).Signalled := by
  cases ha : m.heap a with
  | none => rwa [Machine.terminate, ha]
  | some daemon =>
    simp only [Machine.terminate, ha]
    split
    · rename_i hs
      exact h.kill hsound ha hs _
    · exact h

/-- A start sends no signal. -/
theorem Signalled.start (h : m.Signalled) (a : Addr) : (m.start a).Signalled := by
  cases ha : m.heap a with
  | none => rwa [Machine.start, ha]
  | some daemon =>
    obtain ⟨forks, -, ht, -⟩ := touches_start ha
    exact h.touches ht

/-- No action signals anything but the process of its daemon. -/
theorem Signalled.perform (h : m.Signalled) (hsound : m.Sound) (a : Addr)
    (action : DaemonAction) : (m.perform a action).Signalled := by
  cases action with
  | daemonStart => exact h.start a
  | daemonStop => exact h.stop hsound a
  | daemonReload => exact h.reload hsound a
  | daemonEnd => exact h.terminate hsound a

/-- A daemon of the spawns is disarmed soundly. -/
theorem Sound.disarm (h : m.Sound) (a : Addr) : (m.disarm a).Sound := by
  cases ha : m.heap a with
  | none => rwa [Machine.disarm, ha]
  | some daemon =>
    simp only [Machine.disarm, ha]
    have hwrite : (m.write a daemon.disarmed).Sound := h.write ha rfl rfl Iff.rfl
    exact hwrite.stop a

/-- Disarming a daemon signals its process. -/
theorem Signalled.disarm (h : m.Signalled) (hsound : m.Sound) (a : Addr) :
    (m.disarm a).Signalled := by
  cases ha : m.heap a with
  | none => rwa [Machine.disarm, ha]
  | some daemon =>
    simp only [Machine.disarm, ha]
    have hwrite : (m.write a daemon.disarmed).Sound := hsound.write ha rfl rfl Iff.rfl
    exact (h.write a daemon.disarmed).stop hwrite a

/-- A stop leaves the names. -/
theorem sameNames_stop (m : Machine) (a : Addr) : m.SameNames (m.stop a) := by
  cases ha : m.heap a with
  | none => simp [Machine.stop, ha, SameNames]
  | some daemon =>
    by_cases hs : daemon.state = .started
    · rw [stop_started ha hs]
      have hkill : (m.kill a daemon.pid daemon.conf.sigfinish).heap a = some daemon := ha
      exact sameNames_write (m := m.kill a daemon.pid daemon.conf.sigfinish) hkill rfl
    · rw [stop_other ha hs]
      exact fun _ => rfl

/-- Disarming a daemon leaves the names. -/
theorem sameNames_disarm (m : Machine) (a : Addr) : m.SameNames (m.disarm a) := by
  cases ha : m.heap a with
  | none => simp [Machine.disarm, ha, SameNames]
  | some daemon =>
    simp only [Machine.disarm, ha]
    have hwrite : m.SameNames (m.write a daemon.disarmed) := sameNames_write ha rfl
    exact hwrite.trans (sameNames_stop _ a)

/-- Disarming daemons one after the other signals their processes. -/
theorem Signalled.foldl_disarm (h : m.Signalled) (hsound : m.Sound) (l : List Addr) :
    (l.foldl Machine.disarm m).Signalled := by
  induction l generalizing m with
  | nil => exact h
  | cons a l ih => exact ih (h.disarm hsound a) (hsound.disarm a)

/-- A child that was waited for is signalled by nobody. -/
theorem Signalled.waitid {pid : Int} (h : m.Signalled) (hw : m.waitid pid = some m') :
    m'.Signalled := by
  have hmem : ∀ child ∈ m'.children, child ∈ m.children :=
    fun child hc => ((mem_waitid hw).mp hc).1
  obtain ⟨-, rfl⟩ := waitid_some hw
  exact h.mono (fun _ hf => hf) (fun child hc _ _ _ => Or.inl (hmem child hc)) rfl

/-- The reaping of a child signals nobody. -/
theorem Signalled.reaped (h : m.Signalled) (info : Siginfo) (found : Option Addr) :
    (m.reaped info found).Signalled := by
  cases found with
  | none => exact h
  | some a =>
    cases ha : m.heap a with
    | none => rwa [Machine.reaped, ha]
    | some daemon =>
      rw [reaped_some info ha]
      split
      · exact (h.write a _).start a
      · exact h.write a _

/-- An adopted process was not forked for a daemon. -/
theorem Signalled.adopt (h : m.Signalled) (pid : Int) : (m.adopt pid).Signalled := by
  rw [Machine.adopt]
  split
  · refine h.mono (fun _ hf => hf) ?_ rfl
    intro child hc a name howner
    rcases List.mem_cons.mp hc with rfl | hc
    · cases howner
    · exact Or.inl hc
  · exact h

/-- Freeing daemons signals nobody. -/
theorem Signalled.foldl_free (h : m.Signalled) (l : List Addr) :
    (l.foldl Machine.free m).Signalled := by
  obtain ⟨-, -, hforks, hkills, hchildren⟩ := Cyberd.foldl_free l m
  apply h.mono _ _ hkills
  · rw [hforks]
    exact fun _ hf => hf
  · rw [hchildren]
    exact fun _ hc _ _ _ => Or.inl hc

end Machine

section Effects

variable {host : Host} {w : World} {a : Addr} {daemon : Daemon} {entry : DirEntry}
variable {s s' : TreeNode Addr × World}

/-- `daemon_stop` by its effect. -/
theorem daemonStop_eq (ha : w.heap a = some daemon) :
    daemonStop a w = .ok { w with toMachine := w.stop a } := by
  rw [daemonStop, Machine.read_ok ha, except_bind_ok, Machine.stop, ha]
  cases hs : daemon.state <;> simp [hs]

/-- `daemon_reload` by its effect. -/
theorem daemonReload_eq (ha : w.heap a = some daemon) :
    daemonReload a w = .ok { w with toMachine := w.reload a } := by
  rw [daemonReload, Machine.read_ok ha, except_bind_ok, Machine.reload, ha]
  cases hs : daemon.state <;> simp [hs]

/-- `daemon_end` by its effect. -/
theorem daemonEnd_eq (ha : w.heap a = some daemon) :
    daemonEnd a w = .ok { w with toMachine := w.terminate a } := by
  rw [daemonEnd, Machine.read_ok ha, except_bind_ok, Machine.terminate, ha]
  cases hs : daemon.state <;> simp [hs]

/-- `spawns_stop_element` by its effect. -/
theorem spawnsStopElement_eq (ha : w.heap a = some daemon) :
    spawnsStopElement a w = .ok { w with toMachine := w.disarm a } := by
  rw [spawnsStopElement, Machine.read_ok ha, except_bind_ok, Machine.disarm, ha]
  exact daemonStop_eq (if_pos rfl)

/-- The elements of the spawns are disarmed one after the other. -/
theorem spawnsStopAll_eq (l : List Addr) (h : ∀ a ∈ l, ∃ daemon, w.heap a = some daemon) :
    l.foldlM (fun w a => spawnsStopElement a w) w =
      .ok { w with toMachine := l.foldl Machine.disarm w.toMachine } := by
  induction l generalizing w with
  | nil => rfl
  | cons a l ih =>
    obtain ⟨daemon, ha⟩ := h a List.mem_cons_self
    rw [List.foldlM_cons, spawnsStopElement_eq ha, except_bind_ok]
    refine ih fun b hb => ?_
    have hnames := (w.sameNames_disarm a).live b
    exact hnames.mpr (h b (List.mem_cons_of_mem _ hb))

/-- `spawns_stop` by its effect. -/
theorem spawnsStop_eq (h : Indexed w.toMachine w.spawns) :
    spawnsStop w =
      .ok { w with toMachine := w.spawns.preorder.foldl Machine.disarm w.toMachine } := by
  rw [spawnsStop, treeMutate_eq]
  apply spawnsStopAll_eq
  intro a ha
  obtain ⟨daemon, hheap, -⟩ := (h.mem a).mp (w.spawns.preorder_perm.mem_iff.mp ha)
  exact ⟨daemon, hheap⟩

/-- An action is performed by its effect. -/
theorem DaemonAction.perform_ok (h : w.Invariant) (action : DaemonAction)
    (ha : w.heap a = some daemon) :
    ∃ w', action.perform a w = .ok w' ∧ w'.toMachine = w.toMachine.perform a action := by
  cases action with
  | daemonStart =>
    obtain ⟨spawns, hstart, -⟩ := daemonStart_ok h.indexed ha
    exact ⟨_, hstart, rfl⟩
  | daemonStop => exact ⟨_, daemonStop_eq ha, rfl⟩
  | daemonReload => exact ⟨_, daemonReload_eq ha, rfl⟩
  | daemonEnd => exact ⟨_, daemonEnd_eq ha, rfl⟩

/-- A command performs its action on the daemon of its name, if there is one. -/
theorem command_eq (h : w.Invariant) (action : DaemonAction) (name : Name) :
    ∃ w', w.step host (.command action name) = .ok w' ∧ (w' = w ∨
      ∃ a daemon, w.heap a = some daemon ∧ w'.toMachine = w.toMachine.perform a action) := by
  have hread : w.readAll w.daemons.toList = .ok () :=
    Machine.readAll_ok fun a ha => (h.owned.live a).mp (Or.inl ha)
  simp only [World.step, configurationFind, hread, except_bind_ok, except_pure]
  cases hfind : treeFind strcmp w.name name w.daemons with
  | none => exact ⟨w, rfl, Or.inl rfl⟩
  | some a =>
    obtain ⟨ha, -⟩ := (treeFind_key h.owned.wellFormed name a).mp hfind
    obtain ⟨daemon, hheap⟩ := (h.owned.live a).mp (Or.inl ha)
    obtain ⟨w', hw', heffect⟩ := action.perform_ok h hheap
    exact ⟨w', hw', Or.inr ⟨a, daemon, hheap, heffect⟩⟩

/-- An entry of the configuration signals nobody. -/
theorem MergeStep.signalled (hstep : MergeStep host entry s s') (hs : Merging s)
    (h : s.2.Signalled) : s'.2.Signalled := by
  cases hstep with
  | skipped => exact h
  | rejected _ _ _ _ _ hm =>
    rw [hm]
    exact h.touches (touches_reject hs.indexed.sound.next_none entry.name _)
  | loaded _ _ _ _ _ hm =>
    obtain ⟨forks, -, ht, -⟩ := touches_load _ entry.name _
    rw [hm]
    exact h.touches ht
  | kept _ _ _ _ _ _ _ hm =>
    rw [hm]
    exact h
  | reloaded _ _ _ _ _ _ _ hm =>
    obtain ⟨forks, -, ht, -⟩ := touches_reconfigure _ _ _ _
    rw [hm]
    exact h.touches ht

/-- At the entry of the program nobody was signalled. -/
theorem Boot.world_signalled (boot : Boot) : boot.world.Signalled := by
  have hadopt : ∀ (orphans : List Int) (m : Machine), m.Signalled →
      (orphans.foldl Machine.adopt m).Signalled := by
    intro orphans
    induction orphans with
    | nil => exact fun m h => h
    | cons pid orphans ih => exact fun m h => ih _ (h.adopt pid)
  exact hadopt boot.orphans _ ⟨by simp, by simp⟩

/-- Every event signals processes of their daemons only. -/
theorem World.step_signalled (h : w.Invariant) (hsig : w.Signalled) (event : Event) :
    Outcome (Unreadable event.entries) (fun w' => w'.Signalled) (w.step host event) := by
  cases event with
  | command action name =>
    obtain ⟨w', hw', rfl | ⟨a, daemon, -, heffect⟩⟩ := @command_eq host w h action name
    · rw [hw']
      exact hsig
    · rw [hw', outcome_ok, heffect]
      exact hsig.perform h.indexed.sound a action
  | reap infos =>
    obtain ⟨w', hw', -, hsig'⟩ := @reap_ok host w Machine.Signalled h hsig
      (fun _ _ info found _ hm hwait _ => (hm.waitid hwait).reaped info found) infos
    rw [hw']
    exact hsig'
  | reload dirp =>
    cases dirp with
    | none => exact hsig
    | some dir =>
      refine (configurationReload_ok (fun _ s => s.2.Signalled) h hsig
        fun _ _ _ _ _ _ hs _ hinv hstep _ => hstep.signalled hs hinv).mono ?_ fun _ ht => ht
      rintro w' ⟨-, s, -, hinv, -, hm⟩
      rw [hm]
      exact hinv.foldl_free s.1.preorder
  | stop =>
    rw [World.step, spawnsStop_eq h.indexed]
    exact hsig.foldl_disarm h.indexed.sound _
  | adopt pid => exact hsig.adopt pid

/-- The load at the entry of the program signals nobody. -/
theorem Boot.load_signalled (host : Host) (boot : Boot) :
    Outcome (Unreadable ((boot.dirp.map Directory.read).getD [])) (fun w => w.Signalled)
      (configurationLoad host boot.dirp boot.world) := by
  cases hdirp : boot.dirp with
  | none => exact boot.world_signalled
  | some dir =>
    refine (loadEntries_ok (fun _ w => w.Signalled) dir.read_nodup boot.world_invariant rfl
      boot.world_signalled ?_).mono (fun _ hw => hw.2) fun _ ht => ht
    intro _ _ _ w _ _ hw _ hinv hstep _
    exact hstep.signalled hw hinv

/-- In every run of commands, reaps, loads and reloads, every signal is sent to a positive
pid, which is the one of a child that was forked for the daemon and not waited for. -/
theorem signals_over_runs (host : Host) (boot : Boot) (events : List Event) :
    Outcome (Unreadable (runEntries boot events)) (fun w => ∀ k ∈ w.kills, w.Reaches k)
      (World.run host boot events) := by
  have hrun := World.run_induction (fun w => w.Signalled) host boot events
    (boot.load_signalled host) fun w event _ hw hsig => World.step_signalled hw hsig event
  exact hrun.mono (fun w hw => hw.2.kills) fun _ ht => ht

end Effects

end Cyberd
