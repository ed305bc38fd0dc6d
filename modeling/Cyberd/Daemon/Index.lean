import Cyberd.Daemon.Effects
import Cyberd.Tree.Index

/-!
# The index of running daemons

The spawns storage holds the daemons that are not stopped, by their pids. Each function
is described by its effect on the memory and the processes: it returns, and the storage
it leaves is the index of the new state.
-/

namespace Cyberd

open Library

/-- The storage is the index of the daemons that run. -/
structure Indexed (m : Machine) (spawns : TreeNode Addr) : Prop where
  /-- Daemons and processes are sound. -/
  sound : m.Sound
  /-- The storage is ordered by pid. -/
  wellFormed : spawns.WellFormed compareBySub m.pid
  /-- It holds the running daemons. -/
  mem : ∀ a, a ∈ spawns.toList ↔ m.Running a

variable {m m' : Machine} {spawns : TreeNode Addr} {w : World} {a : Addr} {daemon daemon' : Daemon}

/-- The daemons of the index are in memory. -/
theorem Indexed.readAll (h : Indexed m spawns) : m.readAll spawns.toList = .ok () :=
  Machine.readAll_ok fun a ha => by
    obtain ⟨daemon, hheap, -⟩ := (h.mem a).mp ha
    exact ⟨daemon, hheap⟩

/-- Other sound processes with the same running daemons have the same index. -/
theorem Indexed.congr (h : Indexed m spawns) (hs : m'.Sound) (hpid : m'.pid = m.pid)
    (hrun : ∀ a, m'.Running a ↔ m.Running a) : Indexed m' spawns :=
  ⟨hs, hpid ▸ h.wellFormed, fun a => (h.mem a).trans (hrun a).symm⟩

/-- A store that changes neither the pid nor whether the daemon runs keeps the index. -/
theorem Indexed.write (h : Indexed m spawns) (ha : m.heap a = some daemon)
    (hname : daemon'.name = daemon.name) (hpid : daemon'.pid = daemon.pid)
    (hstate : daemon'.state = .stopped ↔ daemon.state = .stopped) :
    Indexed (m.write a daemon') spawns := by
  refine h.congr (h.sound.write ha hname hpid hstate) ?_ fun b => ?_
  · funext b
    by_cases hb : b = a
    · simp [Machine.pid, hb, ha, hpid]
    · simp [Machine.pid, hb]
  · by_cases hb : b = a
    · simp [Machine.Running, hb, ha, hstate]
    · simp [Machine.Running, hb]

/-- A signal keeps the index. -/
theorem Indexed.kill (h : Indexed m spawns) (a : Addr) (pid : Int) (signo : Nat) :
    Indexed (m.kill a pid signo) spawns :=
  ⟨h.sound.kill a pid signo, h.wellFormed, h.mem⟩

/-- `spawns_retrieve` takes the daemon of a pid out of a well-formed storage. -/
theorem spawnsRetrieve_ok (hread : w.readAll w.spawns.toList = .ok ())
    (hwf : w.spawns.WellFormed compareBySub w.pid) (pid : Int) :
    ∃ found spawns, spawnsRetrieve pid w = .ok (found, { w with spawns := spawns }) ∧
      spawns.WellFormed compareBySub w.pid ∧
      (∀ a, found = some a ↔ a ∈ w.spawns.toList ∧ w.pid a = pid) ∧
      ∀ a, a ∈ spawns.toList ↔ a ∈ w.spawns.toList ∧ w.pid a ≠ pid := by
  obtain ⟨r, hrem, hwf', hfound, hmem⟩ := treeRemove_key hwf pid
  exact ⟨r.element, r.root, by rw [spawnsRetrieve, hread, except_bind_ok, hrem]; rfl, hwf',
    hfound, hmem⟩

/-- A daemon of a pid, among those that run. -/
theorem Indexed.found_iff (h : Indexed m spawns) {pid : Int} (a : Addr) :
    (a ∈ spawns.toList ∧ m.pid a = pid) ↔
      ∃ daemon, m.heap a = some daemon ∧ daemon.state ≠ .stopped ∧ daemon.pid = pid := by
  rw [h.mem]
  constructor
  · rintro ⟨⟨daemon, ha, hs⟩, hpid⟩
    exact ⟨daemon, ha, hs, (Machine.pid_eq ha).symm.trans hpid⟩
  · rintro ⟨daemon, ha, hs, hpid⟩
    exact ⟨⟨daemon, ha, hs⟩, (Machine.pid_eq ha).trans hpid⟩

/-- `daemon_start` starts the daemon and indexes it. -/
theorem daemonStart_ok (h : Indexed w.toMachine w.spawns) (ha : w.heap a = some daemon) :
    ∃ spawns, daemonStart a w = .ok ⟨w.start a, w.daemons, spawns⟩ ∧
      Indexed (w.start a) spawns := by
  have hsound := h.sound.start ha
  rw [daemonStart, Machine.read_ok ha, except_bind_ok]
  by_cases hs : daemon.state = .stopped
  swap
  · rw [Machine.start_running ha hs]
    refine ⟨w.spawns, ?_, h⟩
    cases hstate : daemon.state with
    | started => rfl
    | stopped => exact absurd hstate hs
    | stopping => rfl
  rw [Machine.start_stopped ha hs] at hsound ⊢
  simp only [hs, daemonSpawn, Machine.read_ok ha, except_bind_ok]
  cases hf : w.forked with
  | none =>
    have hself : (w.fork a daemon.name).write a (daemon.spawned none) = w.fork a daemon.name :=
      Machine.write_self ha
    rw [hf, hself] at hsound
    rw [hself]
    exact ⟨w.spawns, rfl, hsound, h.wellFormed, h.mem⟩
  | some pid =>
    rw [hf] at hsound
    -- The new pid is none of the index, because those are the pids of children.
    have hnew : ∀ b ∈ w.spawns.toList, b ≠ a ∧ w.pid b ≠ pid := by
      intro b hb
      obtain ⟨d, hheap, hrun⟩ := (h.mem b).mp hb
      refine ⟨fun heq => hrun ?_, fun hpid => ?_⟩
      · rw [heq, ha] at hheap
        cases hheap
        exact hs
      · obtain ⟨-, child, hc, hchild⟩ := h.sound.running_pid hheap hrun
        rw [Machine.pid_eq hheap] at hpid
        exact (Machine.forked_available hf).2.2 child hc (hchild.trans hpid)
    have hpidOf : ∀ b, ((w.fork a daemon.name).write a (daemon.spawned (some pid))).pid b =
        if b = a then pid else w.pid b := by
      intro b
      by_cases hb : b = a
      · simp [Machine.pid, hb, Daemon.spawned]
      · simp [Machine.pid, hb]
    have hwf : w.spawns.WellFormed compareBySub
        ((w.fork a daemon.name).write a (daemon.spawned (some pid))).pid :=
      h.wellFormed.congr fun b hb => by rw [hpidOf, if_neg (hnew b hb).1]
    obtain ⟨spawns, hins, hwf', hmem⟩ := treeInsert_key hwf (x := a) fun b hb => by
      rw [hpidOf, hpidOf, if_pos rfl, if_neg (hnew b hb).1]
      exact (hnew b hb).2
    have hread : ((w.fork a daemon.name).write a (daemon.spawned (some pid))).readAll
        (a :: w.spawns.toList) = .ok () := by
      refine Machine.readAll_ok fun b hb => ?_
      rw [Machine.write_heap]
      split
      · exact ⟨_, rfl⟩
      · rename_i hne
        obtain ⟨d, hheap, -⟩ := (h.mem b).mp ((List.mem_cons.mp hb).resolve_left hne)
        exact ⟨d, hheap⟩
    refine ⟨spawns, ?_, hsound, hwf', fun b => ?_⟩
    · simp only [Daemon.spawned] at hread hins
      simp only [spawnsRecord, hread, except_bind_ok, hins]
      rfl
    · rw [hmem]
      by_cases hb : b = a
      · simp [Machine.Running, hb, Daemon.spawned]
      · rw [h.mem]
        simp [Machine.Running, hb]

/-- `daemon_destroy` frees the daemon, and takes it out of the index if it was there. -/
theorem daemonDestroy_ok (h : Indexed w.toMachine w.spawns) (ha : w.heap a = some daemon) :
    ∃ spawns, daemonDestroy a w = .ok ⟨w.free a, w.daemons, spawns⟩ ∧
      Indexed (w.free a) spawns := by
  have hsound := h.sound.free ha
  have hrun : ∀ b, (w.free a).Running b ↔ w.Running b ∧ b ≠ a := by
    intro b
    by_cases hb : b = a <;> simp [Machine.Running, hb]
  have hpidOf : ∀ b, b ≠ a → (w.free a).pid b = w.pid b := by
    intro b hb
    simp [Machine.pid, hb]
  rw [daemonDestroy, Machine.read_ok ha, except_bind_ok]
  by_cases hs : daemon.state = .stopped
  · rw [if_neg (by simp [hs])]
    have hne : ∀ b ∈ w.spawns.toList, b ≠ a := by
      rintro b hb rfl
      obtain ⟨d, hheap, hd⟩ := (h.mem b).mp hb
      rw [ha] at hheap
      cases hheap
      exact hd hs
    refine ⟨w.spawns, rfl, hsound, h.wellFormed.congr fun b hb => hpidOf b (hne b hb),
      fun b => ?_⟩
    rw [hrun, h.mem]
    exact ⟨fun hb => ⟨hb, hne b ((h.mem b).mpr hb)⟩, fun hb => hb.1⟩
  · rw [if_pos hs]
    obtain ⟨found, spawns, hret, hwf, -, hmem⟩ :=
      spawnsRetrieve_ok h.readAll h.wellFormed daemon.pid
    have hsame : ∀ b, w.Running b → (w.pid b ≠ daemon.pid ↔ b ≠ a) := by
      rintro b ⟨d, hheap, hd⟩
      rw [Machine.pid_eq hheap]
      refine ⟨fun hpid hb => ?_, fun hb hpid => hb (h.sound.running_inj hheap hd ha hs hpid)⟩
      rw [hb, ha] at hheap
      cases hheap
      exact hpid rfl
    have hiff : ∀ b, b ∈ spawns.toList ↔ w.Running b ∧ b ≠ a := by
      intro b
      rw [hmem, h.mem]
      exact and_congr_right (hsame b)
    refine ⟨spawns, by rw [hret]; rfl, hsound, ?_, fun b => by rw [hiff, hrun]⟩
    exact hwf.congr fun b hb => hpidOf b ((hiff b).mp hb).2

/-- `daemon_stop` signals a started daemon, which is then stopping. -/
theorem daemonStop_ok (h : Indexed w.toMachine w.spawns) (ha : w.heap a = some daemon) :
    ∃ m, daemonStop a w = .ok { w with toMachine := m } ∧ Indexed m w.spawns ∧
      w.SameProcesses m := by
  rw [daemonStop, Machine.read_ok ha, except_bind_ok]
  cases hs : daemon.state with
  | stopped => exact ⟨w.toMachine, rfl, h, .refl _⟩
  | stopping => exact ⟨w.toMachine, rfl, h, .refl _⟩
  | started =>
    have hkill := h.kill a daemon.pid daemon.conf.sigfinish
    have hsame := @Machine.sameProcesses_write (w.kill a daemon.pid daemon.conf.sigfinish) a daemon
      { daemon with state := .stopping } ha rfl rfl (by simp [hs])
    exact ⟨_, rfl, hkill.write ha rfl rfl (by simp [hs]), hsame.daemons, rfl⟩

/-- `daemon_reload` only signals. -/
theorem daemonReload_ok (h : Indexed w.toMachine w.spawns) (ha : w.heap a = some daemon) :
    ∃ m, daemonReload a w = .ok { w with toMachine := m } ∧ Indexed m w.spawns ∧
      w.SameProcesses m := by
  rw [daemonReload, Machine.read_ok ha, except_bind_ok]
  cases daemon.state with
  | stopped => exact ⟨w.toMachine, rfl, h, .refl _⟩
  | stopping => exact ⟨w.toMachine, rfl, h, .refl _⟩
  | started => exact ⟨_, rfl, h.kill a daemon.pid daemon.conf.sigreload, fun _ => rfl, rfl⟩

/-- `daemon_end` only signals. -/
theorem daemonEnd_ok (h : Indexed w.toMachine w.spawns) (ha : w.heap a = some daemon) :
    ∃ m, daemonEnd a w = .ok { w with toMachine := m } ∧ Indexed m w.spawns ∧
      w.SameProcesses m := by
  rw [daemonEnd, Machine.read_ok ha, except_bind_ok]
  cases daemon.state with
  | stopped => exact ⟨w.toMachine, rfl, h, .refl _⟩
  | stopping => exact ⟨_, rfl, h.kill a daemon.pid sigkill, fun _ => rfl, rfl⟩
  | started => exact ⟨_, rfl, h.kill a daemon.pid sigkill, fun _ => rfl, rfl⟩

/-- `spawns_stop_element` disallows the restarts of a daemon and stops it. -/
theorem spawnsStopElement_ok (h : Indexed w.toMachine w.spawns) (ha : w.heap a = some daemon) :
    ∃ m, spawnsStopElement a w = .ok { w with toMachine := m } ∧ Indexed m w.spawns ∧
      w.SameProcesses m := by
  rw [spawnsStopElement, Machine.read_ok ha, except_bind_ok]
  simp only
  generalize hd : ({ daemon with conf := { daemon.conf with
    start := ⟨false, false, false, false, false, false⟩ } } : Daemon) = daemon'
  have hindexed : Indexed (w.write a daemon') w.spawns := by
    subst hd
    exact h.write ha rfl rfl Iff.rfl
  have hsame : w.SameProcesses (w.write a daemon') := by
    subst hd
    exact Machine.sameProcesses_write ha rfl rfl Iff.rfl
  obtain ⟨m, hstop, hm, hsame'⟩ := @daemonStop_ok { w with toMachine := w.write a daemon' } a
    daemon' hindexed (if_pos rfl)
  exact ⟨m, hstop, hm, hsame.trans hsame'⟩

/-- `spawns_stop` stops every daemon of the index, which stays the same. -/
theorem spawnsStop_ok (h : Indexed w.toMachine w.spawns) :
    ∃ m, spawnsStop w = .ok { w with toMachine := m } ∧ Indexed m w.spawns ∧
      w.SameProcesses m := by
  have hloop : ∀ (l : List Addr) (m : Machine), (∀ a ∈ l, a ∈ w.spawns.toList) →
      Indexed m w.spawns →
      ∃ m', l.foldlM (fun w a => spawnsStopElement a w) { w with toMachine := m } =
        .ok { w with toMachine := m' } ∧ Indexed m' w.spawns ∧ m.SameProcesses m' := by
    intro l
    induction l with
    | nil => exact fun m _ hm => ⟨m, rfl, hm, .refl m⟩
    | cons a l ih =>
      intro m hl hm
      obtain ⟨daemon, ha, -⟩ := (hm.mem a).mp (hl a (List.mem_cons_self ..))
      obtain ⟨m', hstop, hm', hsame⟩ :=
        @spawnsStopElement_ok { w with toMachine := m } a daemon hm ha
      obtain ⟨m'', hrest, hm'', hsame'⟩ :=
        ih m' (fun b hb => hl b (List.mem_cons_of_mem _ hb)) hm'
      refine ⟨m'', ?_, hm'', hsame.trans hsame'⟩
      rw [List.foldlM_cons, hstop, except_bind_ok]
      exact hrest
  rw [spawnsStop, treeMutate_eq]
  exact hloop _ w.toMachine (fun a ha => w.spawns.preorder_perm.mem_iff.mp ha) h

/-- A child that was waited for is the process of at most one daemon, the one that is
found in the index. -/
theorem reapChild_ok (h : Indexed w.toMachine w.spawns) {info : Siginfo}
    (hw : w.waitid info.pid = some m) :
    ∃ found spawns, reapChild info { w with toMachine := m } =
        .ok ⟨m.reaped info found, w.daemons, spawns⟩ ∧
      Indexed (m.reaped info found) spawns ∧
      ∀ a, found = some a ↔ ∃ daemon, w.heap a = some daemon ∧ daemon.state ≠ .stopped ∧
        daemon.pid = info.pid := by
  have hheap : m.heap = w.heap := by rw [(Machine.waitid_some hw).2]
  have hpid : m.pid = w.pid := by
    funext a
    rw [Machine.pid, Machine.pid, hheap]
  have hread : m.readAll w.spawns.toList = .ok () := by
    rw [← h.readAll, Machine.readAll, Machine.readAll, hheap]
  obtain ⟨found, spawns, hret, hwf, hfound, hmem⟩ := @spawnsRetrieve_ok { w with toMachine := m }
    hread (hpid ▸ h.wellFormed) info.pid
  have hiff : ∀ a, found = some a ↔ ∃ daemon, w.heap a = some daemon ∧ daemon.state ≠ .stopped ∧
      daemon.pid = info.pid := fun a => by
    rw [← h.found_iff, hfound, hpid]
  refine ⟨found, ?_⟩
  rw [reapChild, hret]
  simp only [except_bind_ok]
  cases found with
  | none =>
    have hnone : ∀ a daemon, w.heap a = some daemon → daemon.state ≠ .stopped →
        daemon.pid ≠ info.pid :=
      fun a d hd hs hp => Option.some_ne_none a ((hiff a).mpr ⟨d, hd, hs, hp⟩).symm
    refine ⟨spawns, rfl, ⟨h.sound.waitid_orphan hw hnone, hwf, fun a => ?_⟩, hiff⟩
    rw [hmem, hpid, h.mem, Machine.Running, Machine.reaped, Machine.Running, hheap]
    refine ⟨fun ha => ha.1, fun ha => ⟨ha, ?_⟩⟩
    obtain ⟨d, hd, hs⟩ := ha
    rw [Machine.pid_eq hd]
    exact hnone a d hd hs
  | some a =>
    obtain ⟨daemon, ha, hs, hp⟩ := (hiff a).mp rfl
    have ha' : m.heap a = some daemon := by rw [hheap, ha]
    have hstopped : Indexed (m.write a { daemon with state := .stopped }) spawns := by
      refine ⟨h.sound.waitid_daemon (hp ▸ hw) ha hs, ?_, fun b => ?_⟩
      · refine hwf.congr fun b hb => ?_
        by_cases hba : b = a <;> simp [Machine.pid, hba, ha']
      · rw [hmem, hpid, h.mem]
        by_cases hba : b = a
        · simp [Machine.Running, hba, Machine.pid_eq ha, hp]
        · have hother : w.Running b → w.pid b ≠ info.pid := by
            rintro ⟨d, hd, hrun⟩ hb
            rw [Machine.pid_eq hd] at hb
            exact hba (h.sound.running_inj hd hrun ha hs (hb.trans hp.symm))
          rw [and_iff_left_of_imp hother]
          simp [Machine.Running, hba, hheap]
    rw [Machine.reaped_some info ha']
    simp only [reapedDaemon, Machine.read_ok ha', except_bind_ok]
    by_cases hrestart : info.restarts daemon.conf.start = true
    · rw [if_pos hrestart, if_pos hrestart]
      obtain ⟨spawns', hstart, hindexed⟩ := @daemonStart_ok
        ⟨m.write a { daemon with state := .stopped }, w.daemons, spawns⟩ a
        { daemon with state := .stopped } hstopped (if_pos rfl)
      exact ⟨spawns', hstart, hindexed, hiff⟩
    · rw [if_neg hrestart, if_neg hrestart]
      exact ⟨spawns, rfl, hstopped, hiff⟩

/-- What the reaping of one child keeps, the reaping of all of them keeps. -/
theorem reapChildren_ok (inv : World → Prop) (hindexed : ∀ w, inv w → Indexed w.toMachine w.spawns)
    (hstep : ∀ (w : World) m info found spawns, inv w → w.waitid info.pid = some m →
      (∀ a, found = some a ↔ ∃ daemon, w.heap a = some daemon ∧ daemon.state ≠ .stopped ∧
        daemon.pid = info.pid) →
      Indexed (m.reaped info found) spawns → inv ⟨m.reaped info found, w.daemons, spawns⟩)
    (infos : List Siginfo) (h : inv w) :
    ∃ status w', reapChildren infos w = .ok (status, w') ∧ inv w' := by
  induction infos generalizing w with
  | nil => exact ⟨_, w, rfl, h⟩
  | cons info infos ih =>
    rw [reapChildren]
    cases hw : w.waitid info.pid with
    | none => exact ⟨_, w, rfl, h⟩
    | some m =>
      obtain ⟨found, spawns, hreap, hm, hfound⟩ := reapChild_ok (hindexed w h) hw
      simp only [hreap, except_bind_ok]
      exact ih (hstep w m info found spawns h hw hfound hm)

end Cyberd
