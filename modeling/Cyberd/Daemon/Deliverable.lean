import Cyberd.Conf.Signals
import Cyberd.Daemon.Signals

/-!
# Signals that are sent

A configuration names signals that exist if its file does not name the number 0 or `NSIG`.
Then every call of `kill(2)` is for such a signal, and a daemon only turns to stopping
when its process has received one.
-/

namespace Cyberd

open Library

/-- The call sends a signal to the process of the daemon. -/
structure Kill.Delivers (k : Kill) (a : Addr) (daemon : Daemon) : Prop where
  /-- It is meant for the daemon. -/
  addr : k.daemon = a
  /-- Its target is the pid of the daemon. -/
  pid : k.pid = daemon.pid
  /-- The signal exists. -/
  signo : 0 < k.signo ∧ k.signo < nsig
  /-- The process of the daemon receives it. -/
  receiver : k.receiver = some ⟨daemon.pid, some (a, daemon.name)⟩

/-- The daemon was stopping, and is still the same. -/
def Daemon.StillStopping (daemon after : Daemon) : Prop :=
  daemon.state = .stopping ∧ daemon.pid = after.pid ∧ daemon.name = after.name

namespace Machine

/-- The signals of every configuration exist. -/
def Configured (m : Machine) : Prop :=
  ∀ a daemon, m.heap a = some daemon → daemon.conf.Deliverable

/-- What leads from one memory to another: signals that exist are sent, and one to each
daemon that turns to stopping. -/
structure Stops (m m' : Machine) : Prop where
  /-- The signals of every configuration still exist. -/
  configured : m'.Configured
  /-- The signals that were sent. -/
  sent : ∃ kills, m'.kills = m.kills ++ kills ∧ (∀ k ∈ kills, 0 < k.signo ∧ k.signo < nsig) ∧
    ∀ a daemon', m'.heap a = some daemon' → daemon'.state = .stopping →
      (∃ daemon, m.heap a = some daemon ∧ daemon.StillStopping daemon') ∨
        ∃ k ∈ kills, k.Delivers a daemon'

/-- Every signal that was sent exists, and was received by each daemon that is stopping. -/
structure Sent (m : Machine) : Prop where
  /-- The signals of every configuration exist. -/
  configured : m.Configured
  /-- So do those that were sent. -/
  kills : ∀ k ∈ m.kills, 0 < k.signo ∧ k.signo < nsig
  /-- A daemon that is stopping has received one. -/
  stopping : ∀ a daemon, m.heap a = some daemon → daemon.state = .stopping →
    ∃ k ∈ m.kills, k.Delivers a daemon

variable {m m' m'' : Machine} {a : Addr} {daemon : Daemon} {conf : DaemonConf}

/-- Two steps after each other. -/
theorem Stops.trans (h : m.Stops m') (h' : m'.Stops m'') : m.Stops m'' := by
  obtain ⟨kills, hkills, hsigno, hstopping⟩ := h.sent
  obtain ⟨kills', hkills', hsigno', hstopping'⟩ := h'.sent
  refine ⟨h'.configured, kills ++ kills', ?_, ?_, fun a daemon'' ha hs => ?_⟩
  · rw [hkills', hkills, List.append_assoc]
  · intro k hk
    exact (List.mem_append.mp hk).elim (hsigno k) (hsigno' k)
  · rcases hstopping' a daemon'' ha hs with ⟨daemon', ha', hs', hpid', hname'⟩ | ⟨k, hk, hnew⟩
    · rcases hstopping a daemon' ha' hs' with ⟨daemon, hold, hstill, hpid, hname⟩ | ⟨k, hk, hsent⟩
      · exact Or.inl ⟨daemon, hold, hstill, hpid.trans hpid', hname.trans hname'⟩
      · refine Or.inr ⟨k, List.mem_append_left _ hk, hsent.addr, hsent.pid.trans hpid',
          hsent.signo, ?_⟩
        rw [hsent.receiver, hpid', hname']
    · exact Or.inr ⟨k, List.mem_append_right _ hk, hnew⟩

/-- Where no signal is sent, only a daemon that was stopping is stopping. -/
theorem stops_quiet (hkills : m'.kills = m.kills)
    (h : ∀ a daemon', m'.heap a = some daemon' → daemon'.conf.Deliverable ∧
      (daemon'.state = .stopping →
        ∃ daemon, m.heap a = some daemon ∧ daemon.StillStopping daemon')) : m.Stops m' := by
  refine ⟨fun a daemon' ha => (h a daemon' ha).1, [], ?_, ?_, fun a daemon' ha hs => ?_⟩
  · rw [hkills, List.append_nil]
  · simp
  · exact Or.inl ((h a daemon' ha).2 hs)

/-- Where no signal is sent, daemons may be freed. -/
theorem Configured.fewer (h : m.Configured) (hkills : m'.kills = m.kills)
    (hheap : ∀ a daemon, m'.heap a = some daemon → m.heap a = some daemon) : m.Stops m' :=
  stops_quiet hkills fun a daemon ha =>
    ⟨h a daemon (hheap a daemon ha), fun hs => ⟨daemon, hheap a daemon ha, hs, rfl, rfl⟩⟩

/-- Nothing happens. -/
theorem Configured.refl (h : m.Configured) : m.Stops m := h.fewer rfl fun _ _ ha => ha

/-- A store of a daemon that is not stopping, or still is. -/
theorem Configured.write (h : m.Configured) (hconf : daemon.conf.Deliverable)
    (hs : daemon.state = .stopping →
      ∃ before, m.heap a = some before ∧ before.StillStopping daemon) :
    m.Stops (m.write a daemon) := by
  refine stops_quiet rfl fun b daemon' hb => ?_
  rw [write_heap] at hb
  split at hb
  · rename_i heq
    obtain rfl := Option.some.inj hb
    exact ⟨hconf, fun hstopping => heq ▸ hs hstopping⟩
  · exact ⟨h b daemon' hb, fun hstopping => ⟨daemon', hb, hstopping, rfl, rfl⟩⟩

/-- A daemon that was just started or not is not stopping. -/
theorem spawned_state (hs : daemon.state = .stopped) (pid : Option Int) :
    (daemon.spawned pid).state ≠ .stopping := by
  cases pid with
  | none => simp [Daemon.spawned, hs]
  | some pid => simp [Daemon.spawned]

/-- A start sends no signal. -/
theorem Configured.start (h : m.Configured) (a : Addr) : m.Stops (m.start a) := by
  cases ha : m.heap a with
  | none => simpa [Machine.start, ha] using h.refl
  | some daemon =>
    by_cases hs : daemon.state = .stopped
    · have hfork : m.Stops (m.fork a daemon.name) := h.fewer rfl fun _ _ ha => ha
      rw [start_stopped ha hs]
      refine hfork.trans (hfork.configured.write ?_ fun hstopping => ?_)
      · rw [spawned_conf]
        exact h a daemon ha
      · exact absurd hstopping (spawned_state hs _)
    · rw [start_running ha hs]
      exact h.refl

/-- A signal that exists is sent. -/
theorem Configured.kill (h : m.Configured) (a : Addr) (pid : Int) {signo : Nat}
    (hsigno : 0 < signo ∧ signo < nsig) : m.Stops (m.kill a pid signo) := by
  refine ⟨h, [_], rfl, fun k hk => ?_, fun b daemon hb hs => Or.inl ⟨daemon, hb, hs, rfl, rfl⟩⟩
  rw [List.mem_singleton.mp hk]
  exact hsigno

/-- A stop signals the process of the daemon. -/
theorem Configured.stop (h : m.Configured) (hsound : m.Sound) (a : Addr) : m.Stops (m.stop a) := by
  cases ha : m.heap a with
  | none => simpa [Machine.stop, ha] using h.refl
  | some daemon =>
    by_cases hs : daemon.state = .started
    · rw [stop_started ha hs]
      have hconf := h a daemon ha
      have hfind := hsound.find_process ha (by rw [hs]; decide)
      refine ⟨fun b daemon' hb => ?_, [_], rfl, fun k hk => ?_, fun b daemon' hb hstopping => ?_⟩
      · rw [write_heap] at hb
        split at hb
        · obtain rfl := Option.some.inj hb
          exact hconf
        · exact h b daemon' hb
      · rw [List.mem_singleton.mp hk]
        exact hconf.sigfinish
      · rw [write_heap] at hb
        split at hb
        · rename_i heq
          obtain rfl := Option.some.inj hb
          exact Or.inr ⟨_, List.mem_singleton_self _, heq.symm, rfl, hconf.sigfinish, by
            rw [hfind, heq]⟩
        · exact Or.inl ⟨daemon', hb, hstopping, rfl, rfl⟩
    · rw [stop_other ha hs]
      exact h.refl

/-- A reload signals a daemon. -/
theorem Configured.reload (h : m.Configured) (a : Addr) : m.Stops (m.reload a) := by
  cases ha : m.heap a with
  | none => simpa [Machine.reload, ha] using h.refl
  | some daemon =>
    simp only [Machine.reload, ha]
    split
    · exact h.kill a _ (h a daemon ha).sigreload
    · exact h.refl

/-- An end signals a daemon. -/
theorem Configured.terminate (h : m.Configured) (a : Addr) : m.Stops (m.terminate a) := by
  cases ha : m.heap a with
  | none => simpa [Machine.terminate, ha] using h.refl
  | some daemon =>
    simp only [Machine.terminate, ha]
    split
    · exact h.kill a _ (by decide)
    · exact h.refl

/-- Every action only stops a daemon that it signals. -/
theorem Configured.perform (h : m.Configured) (hsound : m.Sound) (a : Addr)
    (action : DaemonAction) : m.Stops (m.perform a action) := by
  cases action with
  | daemonStart => exact h.start a
  | daemonStop => exact h.stop hsound a
  | daemonReload => exact h.reload a
  | daemonEnd => exact h.terminate a

/-- A daemon of the spawns is disarmed and stopped. -/
theorem Configured.disarm (h : m.Configured) (hsound : m.Sound) (a : Addr) :
    m.Stops (m.disarm a) := by
  cases ha : m.heap a with
  | none => simpa [Machine.disarm, ha] using h.refl
  | some daemon =>
    simp only [Machine.disarm, ha]
    have hconf := h a daemon ha
    have hdisarm : m.Stops (m.write a daemon.disarmed) :=
      h.write ⟨hconf.sigfinish, hconf.sigreload⟩ fun hs => ⟨daemon, ha, hs, rfl, rfl⟩
    have hwrite : (m.write a daemon.disarmed).Sound := hsound.write ha rfl rfl Iff.rfl
    exact hdisarm.trans (hdisarm.configured.stop hwrite a)

/-- The daemons of the spawns are stopped one after the other. -/
theorem Configured.foldl_disarm (h : m.Configured) (hsound : m.Sound) (l : List Addr) :
    m.Stops (l.foldl Machine.disarm m) := by
  induction l generalizing m with
  | nil => exact h.refl
  | cons a l ih =>
    have hdisarm := h.disarm hsound a
    exact hdisarm.trans (ih hdisarm.configured (hsound.disarm a))

/-- A daemon whose process has ended is not stopping any more. -/
theorem Configured.reaped (h : m.Configured) (info : Siginfo) (found : Option Addr) :
    m.Stops (m.reaped info found) := by
  cases found with
  | none => exact h.refl
  | some a =>
    cases ha : m.heap a with
    | none => simpa [Machine.reaped, ha] using h.refl
    | some daemon =>
      have hwrite : m.Stops (m.write a { daemon with state := .stopped }) :=
        h.write (h a daemon ha) fun hs => by cases hs
      rw [reaped_some info ha]
      split
      · exact hwrite.trans (hwrite.configured.start a)
      · exact hwrite

/-- An adopted process is no daemon. -/
theorem Configured.adopt (h : m.Configured) (pid : Int) : m.Stops (m.adopt pid) := by
  rw [Machine.adopt]
  split
  · exact h.fewer rfl fun _ _ ha => ha
  · exact h.refl

/-- Daemons that are stopping have received a signal after each step. -/
theorem Stops.sent_of (h : m.Stops m') (hm : m.Sent) : m'.Sent := by
  obtain ⟨kills, hkills, hsigno, hstopping⟩ := h.sent
  refine ⟨h.configured, fun k hk => ?_, fun a daemon' ha hs => ?_⟩
  · rw [hkills] at hk
    exact (List.mem_append.mp hk).elim (hm.kills k) (hsigno k)
  · rw [hkills]
    rcases hstopping a daemon' ha hs with ⟨daemon, hold, hstill, hpid, hname⟩ | ⟨k, hk, hsent⟩
    · obtain ⟨k, hk, hsent⟩ := hm.stopping a daemon hold hstill
      refine ⟨k, List.mem_append_left _ hk, hsent.addr, hsent.pid.trans hpid, hsent.signo, ?_⟩
      rw [hsent.receiver, hpid, hname]
    · exact ⟨k, List.mem_append_right _ hk, hsent⟩

end Machine

section Files

variable {host : Host} {w : World} {entry : DirEntry} {s s' : TreeNode Addr × World}

/-- The values of a file for signals are neither the number 0 nor `NSIG`. -/
def DirEntry.WithinLimits (host : Host) (entry : DirEntry) : Prop :=
  ∀ filep, entry.stream = some filep →
    ∀ values, handedValues host filep.before filep.content = .ok values →
      ∀ handed ∈ values, handed.WithinLimits

/-- The default signals exist. -/
theorem daemonConfInit_deliverable (host : Host) : (daemonConfInit host).Deliverable :=
  have hsigterm : 0 < sigterm ∧ sigterm < nsig := by decide
  have hsighup : 0 < sighup ∧ sighup < nsig := by decide
  ⟨hsigterm, hsighup⟩

/-- The configuration of a file whose values are within the limits. -/
theorem DirEntry.WithinLimits.conf (h : entry.WithinLimits host) {filep : Stream}
    (hstream : entry.stream = some filep) {conf : DaemonConf}
    (hconf : filep.conf host = some conf) : conf.Deliverable := by
  rw [Stream.conf] at hconf
  cases hparse : filep.parse host (daemonConfInit host) with
  | error trap =>
    rw [hparse] at hconf
    cases hconf
  | ok result =>
    obtain ⟨status, final⟩ := result
    rw [hparse] at hconf
    obtain ⟨-, hfinal⟩ := Option.ite_none_right_eq_some.mp hconf
    obtain rfl := Option.some.inj hfinal
    rw [Stream.parse] at hparse
    cases hvalues : handedValues host filep.before filep.content with
    | error trap =>
      rw [daemonConfParse_eq, hvalues] at hparse
      cases hparse
    | ok values =>
      rw [daemonConfParse_ok hvalues hparse]
      exact foldl_deliverable (h filep hstream values hvalues) (daemonConfInit_deliverable host)

/-- A new configuration only starts its daemon. -/
theorem Machine.Configured.reconfigure {m : Machine} (h : m.Configured) {a : Addr}
    {daemon : Daemon} (ha : m.heap a = some daemon) {conf : DaemonConf}
    (hconf : conf.Deliverable) : m.Stops (m.reconfigure a daemon conf) := by
  have hwrite : m.Stops (m.write a { daemon with conf := conf }) :=
    h.write hconf fun hs => ⟨daemon, ha, hs, rfl, rfl⟩
  rw [Machine.reconfigure]
  split
  · exact hwrite.trans (hwrite.configured.start a)
  · exact hwrite

/-- A new daemon is at most started. -/
theorem Machine.Configured.load {m : Machine} (h : m.Configured) (name : Name)
    {conf : DaemonConf} (hconf : conf.Deliverable) : m.Stops (m.load name conf) := by
  have hcreate : m.Stops (m.create name conf) := by
    refine stops_quiet rfl fun b daemon hb => ?_
    rw [Machine.create_heap] at hb
    split at hb
    · obtain rfl := Option.some.inj hb
      exact ⟨hconf, fun hs => by cases hs⟩
    · exact ⟨h b daemon hb, fun hs => ⟨daemon, hb, hs, rfl, rfl⟩⟩
  rw [Machine.load]
  split
  · exact hcreate.trans (hcreate.configured.start _)
  · exact hcreate

/-- An entry of the configuration stops nobody. -/
theorem MergeStep.stops (hstep : MergeStep host entry s s') (hs : Merging s)
    (h : s.2.Configured) (hentry : entry.WithinLimits host) :
    s.2.toMachine.Stops s'.2.toMachine := by
  cases hstep with
  | skipped => exact h.refl
  | rejected _ _ _ _ _ hm =>
    rw [hm]
    refine h.fewer rfl fun b daemon hb => ?_
    rwa [Machine.create_free_heap hs.indexed.sound.next_none] at hb
  | loaded hstream _ hconf _ _ hm =>
    rw [hm]
    exact h.load _ (hentry.conf hstream hconf)
  | kept _ _ _ _ _ _ _ hm =>
    rw [hm]
    exact h.refl
  | reloaded hstream _ hheap _ hconf _ _ hm =>
    rw [hm]
    exact h.reconfigure hheap (hentry.conf hstream hconf)

/-- Every event sends signals that exist, one to each daemon that it stops. -/
theorem World.step_stops (h : w.Invariant) (hconf : w.Configured) (event : Event)
    (hentries : ∀ entry ∈ event.entries, entry.WithinLimits host) :
    Outcome (Unreadable event.entries) (fun w' => w.Stops w'.toMachine) (w.step host event) := by
  cases event with
  | command action name =>
    obtain ⟨w', hw', rfl | ⟨a, daemon, -, heffect⟩⟩ := @command_eq host w h action name
    · rw [hw']
      exact hconf.refl
    · rw [hw', outcome_ok, heffect]
      exact hconf.perform h.indexed.sound a action
  | reap infos =>
    obtain ⟨w', hw', -, hstops⟩ := @reap_ok host w (fun m => w.Stops m) h hconf.refl
      (fun m m' info found _ hm hwait _ => by
        have hwaited : m.Stops m' := by
          obtain ⟨-, rfl⟩ := Machine.waitid_some hwait
          exact hm.configured.fewer rfl fun _ _ ha => ha
        exact hm.trans (hwaited.trans (hwaited.configured.reaped info found))) infos
    rw [hw']
    exact hstops
  | reload dirp =>
    cases dirp with
    | none => exact hconf.refl
    | some dir =>
      refine (configurationReload_ok (fun _ s => w.Stops s.2.toMachine) h hconf.refl
        fun done entry rest s s' hread hs _ hinv hstep _ => hinv.trans
          (hstep.stops hs hinv.configured (hentries entry ?_))).mono ?_ fun _ ht => ht
      · rw [Event.entries, hread]
        exact List.mem_append_right _ List.mem_cons_self
      · rintro w' ⟨-, s, -, hinv, -, hm⟩
        obtain ⟨hheap, -, -, hkills, -⟩ := foldl_free s.1.preorder s.2.toMachine
        rw [hm]
        refine hinv.trans (hinv.configured.fewer hkills fun a daemon ha => ?_)
        rw [hheap] at ha
        exact (Option.ite_none_left_eq_some.mp ha).2
  | stop =>
    rw [World.step, spawnsStop_eq h.indexed]
    exact hconf.foldl_disarm h.indexed.sound _
  | adopt pid => exact hconf.adopt pid

/-- At the entry of the program there is no daemon, and no signal was sent. -/
theorem Boot.world_sent (boot : Boot) : boot.world.Sent := by
  have hnone : ∀ a, boot.world.heap a = none := fun a => by
    cases ha : boot.world.heap a with
    | none => rfl
    | some daemon =>
      have hmem := (boot.world_invariant.owned.live a).mpr ⟨daemon, ha⟩
      simp [Boot.world] at hmem
  have hkills : boot.world.kills = [] := by
    have hadopt : ∀ (orphans : List Int) (m : Machine), m.kills = [] →
        (orphans.foldl Machine.adopt m).kills = [] := by
      intro orphans
      induction orphans with
      | nil => exact fun m h => h
      | cons pid orphans ih =>
        refine fun m h => ih _ ?_
        rw [Machine.adopt]
        split <;> exact h
    exact hadopt boot.orphans _ rfl
  refine ⟨fun a daemon ha => ?_, fun k hk => ?_, fun a daemon ha => ?_⟩
  · rw [hnone] at ha
    cases ha
  · rw [hkills] at hk
    cases hk
  · rw [hnone] at ha
    cases ha

/-- The load at the entry of the program stops nobody. -/
theorem Boot.load_sent (host : Host) (boot : Boot)
    (hentries : ∀ entry ∈ (boot.dirp.map Directory.read).getD [], entry.WithinLimits host) :
    Outcome (Unreadable ((boot.dirp.map Directory.read).getD [])) (fun w => w.Sent)
      (configurationLoad host boot.dirp boot.world) := by
  cases hdirp : boot.dirp with
  | none => exact boot.world_sent
  | some dir =>
    rw [hdirp] at hentries
    refine (loadEntries_ok (fun _ w => w.Sent) dir.read_nodup boot.world_invariant rfl
      boot.world_sent ?_).mono (fun _ hw => hw.2) fun _ ht => ht
    intro done entry rest w _ hread hw _ hinv hstep _
    refine (hstep.stops hw hinv.configured (hentries entry ?_)).sent_of hinv
    rw [Option.map_some, Option.getD_some, hread]
    exact List.mem_append_right _ List.mem_cons_self

/-- A value gives the signal that it denotes exactly if it is plain. In every run over files
without the numbers 0 and `NSIG`, all configured signals exist, the daemons that are
stopping have received one, and so has every daemon that a further event stops. -/
theorem signals_denote_iff (host : Host) (boot : Boot) (events : List Event) :
    (∀ value, SignalExact host value ↔ SignalPlain host value) ∧
    ((∀ entry ∈ runEntries boot events, entry.WithinLimits host) →
      Outcome (Unreadable (runEntries boot events))
        (fun w => w.Sent ∧ ∀ event : Event, (∀ entry ∈ event.entries, entry.WithinLimits host) →
          Outcome (Unreadable event.entries) (fun w' => w.Stops w'.toMachine) (w.step host event))
        (World.run host boot events)) := by
  refine ⟨signalExact_iff host, fun hentries => ?_⟩
  have hrun := World.run_induction (fun w => w.Sent) host boot events
    (boot.load_sent host fun entry hentry => hentries entry (List.mem_append_left _ hentry))
    fun w event hevent hw hsent => (World.step_stops hw hsent.configured event fun entry hentry =>
      hentries entry (List.mem_append_right _ (List.mem_flatMap.mpr ⟨event, hevent, hentry⟩))).mono
      (fun _ hstops => hstops.sent_of hsent) fun _ ht => ht
  exact hrun.mono (fun w hw => ⟨hw.2, fun event hevent =>
    World.step_stops hw.1 hw.2.configured event hevent⟩) fun _ ht => ht

/-- A daemon whose file names no signal, stopped by a command. -/
theorem signals_denote_iff_stop :
    SignalExact bareHost (ascii "sigusr1") ∧
    Outcome (Unreadable (runEntries loadBoot [.command .daemonStop [97]])) (fun w => w.Sent)
      (World.run bareHost loadBoot [.command .daemonStop [97]]) := by
  have hsignals := signals_denote_iff bareHost loadBoot [.command .daemonStop [97]]
  refine ⟨(hsignals.1 _).mpr ⟨fun n hn => ?_, fun _ body tail hsig hrt => ?_⟩,
    (hsignals.2 fun entry hentry filep hstream values hvalues => ?_).mono (fun w hw => hw.1)
      fun _ ht => ht⟩
  · exact absurd (hn.digits 115 (by decide)) (by decide)
  · have hbody := (afterSig_iff bareHost (.inr ⟨tail, hrt⟩)).mp hsig
    have husr1 : body = ascii "usr1" := hbody
    exact absurd (husr1 ▸ hrt.head (by decide)) (by decide)
  · obtain rfl : entry = ⟨[97], some loadFile⟩ := List.mem_singleton.mp hentry
    obtain rfl : loadFile = filep := Option.some.inj hstream
    have hread : handedValues bareHost loadFile.before loadFile.content =
        .ok [⟨.general, ascii "path", some (ascii "/b")⟩, ⟨.start, ascii "load", none⟩] := by
      decide +kernel
    rw [hread] at hvalues
    obtain rfl := Except.ok.inj hvalues
    intro handed hmem hsec hkey
    rcases List.mem_cons.mp hmem with rfl | hmem
    · exact absurd hkey (by decide)
    · obtain rfl := List.mem_singleton.mp hmem
      cases hsec

/-- The file `"path=/b\nsigfinish=0\n[start]\nload\n"`, in buffers that a null byte precedes. -/
def nullSignalFile : Stream where
  content := ascii "path=/b\nsigfinish=0\n[start]\nload\n"
  before := fun _ => some 0

/-- A host where the daemon `a` of this file is started at first. -/
def nullSignalBoot : Boot where
  stale := fun _ => 0
  pids := [5]
  orphans := []
  dirp := some ⟨[⟨[97], some nullSignalFile⟩], List.nodup_singleton _, none⟩

/-- The numbers 0 and 65 and a bare `RT` are taken for signals. A daemon with the signal 0
turns to stopping without being signalled. -/
theorem signals_denote_fails :
    (¬ SignalExact bareHost (ascii "0") ∧ ¬ SignalExact bareHost (ascii "65") ∧
      ¬ SignalExact bareHost (ascii "RT")) ∧
    (World.run bareHost nullSignalBoot [.command .daemonStop [97]]).toOption.map
      (fun w => ((w.heap 0).map fun daemon => daemon.state, w.kills.map fun k => k.signo)) =
      some (some .stopping, [0]) := by
  refine ⟨⟨fun h => ?_, fun h => ?_, fun h => ?_⟩, by decide +kernel⟩
  · have hplain := (signalExact_iff _ _).mp h
    exact (hplain.number 0 ⟨by decide, by decide +kernel, by decide⟩).1 rfl
  · have hplain := (signalExact_iff _ _).mp h
    exact (hplain.number 65 ⟨by decide, by decide +kernel, by decide⟩).2 rfl
  · have hplain := (signalExact_iff _ _).mp h
    exact (hplain.realtime rfl (ascii "RT") [] (Or.inr rfl) ⟨ascii "RT", rfl, rfl⟩).1 rfl

end Files

end Cyberd
