import Cyberd.Conf.Bounds
import Cyberd.Daemon.Configuration
import Cyberd.Daemon.Index

/-!
# One entry of the configuration

Every daemon is owned by the configuration under its name, during a reload by the old
tree or by the new one. What the loading or the reloading of one entry does is listed
once: the entry is skipped, its file makes a new daemon or none, or it is the one of an
old daemon that moves to the new tree.
-/

namespace Cyberd

open Library

/-- The configuration of a file that was parsed. -/
def Stream.conf (host : Host) (filep : Stream) : Option DaemonConf :=
  match filep.parse host (daemonConfInit host) with
  | .ok (status, conf) => if status = 0 then some conf else none
  | .error _ => none

/-- What precedes the line buffers stops their trimming. -/
def Stream.Readable (filep : Stream) : Prop := ∀ number, StopsBefore (filep.before number)

/-- The opened stream of an entry that is not skipped. -/
def DirEntry.stream (entry : DirEntry) : Option Stream :=
  if entry.hidden then none else entry.filep

/-- The trimming of a line of one of the files has left its buffer. -/
def Unreadable (entries : List DirEntry) (trap : Trap) : Prop :=
  trap = .outOfBounds ∧ ∃ entry ∈ entries, ∃ filep, entry.filep = some filep ∧ ¬ filep.Readable

/-- Each daemon is in one of both trees, under its own name. -/
structure Owned (m : Machine) (new old : TreeNode Addr) : Prop where
  /-- The new tree is ordered by name. -/
  wellFormed : new.WellFormed strcmp m.name
  /-- The old tree is ordered by name. -/
  wellFormed_old : old.WellFormed strcmp m.name
  /-- No name is in both trees. -/
  apart : ∀ a ∈ new.toList, ∀ b ∈ old.toList, m.name a ≠ m.name b
  /-- The trees hold the daemons that are in memory. -/
  live : ∀ a, (a ∈ new.toList ∨ a ∈ old.toList) ↔ ∃ daemon, m.heap a = some daemon

/-- The state of a reload, with the old tree. -/
structure Merging (s : TreeNode Addr × World) : Prop where
  /-- The storage is the index of the daemons that run. -/
  indexed : Indexed s.2.toMachine s.2.spawns
  /-- The daemons are owned by both trees. -/
  owned : Owned s.2.toMachine s.2.daemons s.1

/-- The state between two events. -/
abbrev World.Invariant (w : World) : Prop := Merging (.null, w)

/-- The new configuration of an old daemon. -/
def Machine.reconfigure (m : Machine) (a : Addr) (daemon : Daemon) (conf : DaemonConf) : Machine :=
  if conf.start.reload then (m.write a { daemon with conf := conf }).start a
  else m.write a { daemon with conf := conf }

/-- The creation of a daemon with its configuration. -/
def Machine.create (m : Machine) (name : Name) (conf : DaemonConf) : Machine :=
  m.malloc fun pid => ⟨.stopped, name, pid, conf⟩

/-- The creation of a daemon that is started if it has to. -/
def Machine.load (m : Machine) (name : Name) (conf : DaemonConf) : Machine :=
  if conf.start.load then (m.create name conf).start m.next else m.create name conf

/-- What one entry does to the old tree and to the state. -/
inductive MergeStep (host : Host) (entry : DirEntry) :
    TreeNode Addr × World → TreeNode Addr × World → Prop
  /-- It is hidden, or it could not be opened. -/
  | skipped {s : TreeNode Addr × World} (hstream : entry.stream = none) :
      MergeStep host entry s s
  /-- Its file makes no daemon, the one that was created is freed. -/
  | rejected {old old' : TreeNode Addr} {w w' : World} {filep : Stream} {conf : DaemonConf}
      (hstream : entry.stream = some filep) (hnew : ∀ a ∈ old.toList, w.name a ≠ entry.name)
      (hconf : filep.conf host = none) (hold : ∀ a, a ∈ old'.toList ↔ a ∈ old.toList)
      (hdaemons : w'.daemons = w.daemons)
      (hm : w'.toMachine = (w.create entry.name conf).free w.next) :
      MergeStep host entry (old, w) (old', w')
  /-- Its file makes a new daemon. -/
  | loaded {old old' : TreeNode Addr} {w w' : World} {filep : Stream} {conf : DaemonConf}
      (hstream : entry.stream = some filep) (hnew : ∀ a ∈ old.toList, w.name a ≠ entry.name)
      (hconf : filep.conf host = some conf) (hold : ∀ a, a ∈ old'.toList ↔ a ∈ old.toList)
      (hdaemons : ∀ a, a ∈ w'.daemons.toList ↔ a = w.next ∨ a ∈ w.daemons.toList)
      (hm : w'.toMachine = w.load entry.name conf) :
      MergeStep host entry (old, w) (old', w')
  /-- An old daemon keeps its configuration. -/
  | kept {old old' : TreeNode Addr} {w w' : World} {filep : Stream} {a : Addr} {daemon : Daemon}
      (hstream : entry.stream = some filep) (ha : a ∈ old.toList)
      (hheap : w.heap a = some daemon) (hname : daemon.name = entry.name)
      (hconf : filep.conf host = none)
      (hold : ∀ b, b ∈ old'.toList ↔ b ∈ old.toList ∧ b ≠ a)
      (hdaemons : ∀ b, b ∈ w'.daemons.toList ↔ b = a ∨ b ∈ w.daemons.toList)
      (hm : w'.toMachine = w.toMachine) :
      MergeStep host entry (old, w) (old', w')
  /-- An old daemon takes the configuration of its file. -/
  | reloaded {old old' : TreeNode Addr} {w w' : World} {filep : Stream} {a : Addr}
      {daemon : Daemon} {conf : DaemonConf}
      (hstream : entry.stream = some filep) (ha : a ∈ old.toList)
      (hheap : w.heap a = some daemon) (hname : daemon.name = entry.name)
      (hconf : filep.conf host = some conf)
      (hold : ∀ b, b ∈ old'.toList ↔ b ∈ old.toList ∧ b ≠ a)
      (hdaemons : ∀ b, b ∈ w'.daemons.toList ↔ b = a ∨ b ∈ w.daemons.toList)
      (hm : w'.toMachine = w.reconfigure a daemon conf) :
      MergeStep host entry (old, w) (old', w')

/-- The next address is in none of the trees. -/
theorem Merging.ne_next {s : TreeNode Addr × World} (hs : Merging s) {a : Addr}
    (ha : a ∈ s.2.daemons.toList ∨ a ∈ s.1.toList) : a ≠ s.2.next := by
  obtain ⟨daemon, hheap⟩ := (hs.owned.live a).mp ha
  exact (hs.indexed.sound.fresh a daemon hheap).ne

section Memory

variable {m m' : Machine} {new old : TreeNode Addr} {a b : Addr} {daemon : Daemon}

/-- Names are read the same. -/
theorem Machine.SameNames.name_eq (h : m.SameNames m') : m'.name = m.name := by
  funext a
  rw [Machine.name, Machine.name, h a]

/-- Daemons are at the same addresses. -/
theorem Machine.SameNames.live (h : m.SameNames m') (a : Addr) :
    (∃ daemon, m'.heap a = some daemon) ↔ ∃ daemon, m.heap a = some daemon := by
  rw [← Option.isSome_iff_exists, ← Option.isSome_iff_exists, ← Option.isSome_map, h a,
    Option.isSome_map]

/-- Daemons with the same names are owned by the same trees. -/
theorem Owned.congr (h : Owned m new old) (hs : m.SameNames m') : Owned m' new old :=
  ⟨hs.name_eq ▸ h.wellFormed, hs.name_eq ▸ h.wellFormed_old, hs.name_eq ▸ h.apart,
    fun a => (h.live a).trans (hs.live a).symm⟩

/-- The daemons of the old tree are in memory. -/
theorem Owned.readAll_old (h : Owned m new old) : m.readAll old.toList = .ok () :=
  Machine.readAll_ok fun a ha => (h.live a).mp (Or.inr ha)

/-- A daemon that is not in the new tree can be added to it. -/
theorem Owned.readAll_new (h : Owned m new old) (ha : m.heap a = some daemon) :
    m.readAll (a :: new.toList) = .ok () := by
  refine Machine.readAll_ok fun b hb => ?_
  rcases List.mem_cons.mp hb with rfl | hb
  · exact ⟨daemon, ha⟩
  · exact (h.live b).mp (Or.inl hb)

/-- A daemon moves from the old tree to the new one. -/
theorem Owned.move (h : Owned m new old) {new' old' : TreeNode Addr} (ha : a ∈ old.toList)
    (hnew : new'.WellFormed strcmp m.name) (hold : old'.WellFormed strcmp m.name)
    (hmem : ∀ b, b ∈ new'.toList ↔ b = a ∨ b ∈ new.toList)
    (hmem' : ∀ b, b ∈ old'.toList ↔ b ∈ old.toList ∧ b ≠ a) : Owned m new' old' := by
  refine ⟨hnew, hold, fun b hb c hc => ?_, fun b => ?_⟩
  · obtain ⟨hc, hne⟩ := (hmem' c).mp hc
    rcases (hmem b).mp hb with rfl | hb
    · exact fun heq => hne (h.wellFormed_old.eq_of_key hc ha heq.symm)
    · exact h.apart b hb c hc
  · rw [hmem, hmem', ← h.live]
    by_cases hb : b = a
    · simp [hb, ha]
    · simp [hb]

/-- A new daemon is added to the new tree. -/
theorem Owned.add (h : Owned m new old) (hnone : m.heap a = none)
    (hheap : ∀ b, m'.heap b = if b = a then some daemon else m.heap b) {new' : TreeNode Addr}
    (hnew : new'.WellFormed strcmp m'.name)
    (hmem : ∀ b, b ∈ new'.toList ↔ b = a ∨ b ∈ new.toList)
    (hname : ∀ b ∈ old.toList, m.name b ≠ daemon.name) : Owned m' new' old := by
  have hne : ∀ b, b ∈ new.toList ∨ b ∈ old.toList → b ≠ a := by
    rintro b hb rfl
    obtain ⟨d, hd⟩ := (h.live b).mp hb
    rw [hnone] at hd
    cases hd
  have hsame : ∀ b, b ≠ a → m'.name b = m.name b := fun b hb => by
    rw [Machine.name, Machine.name, hheap, if_neg hb]
  refine ⟨hnew, h.wellFormed_old.congr fun b hb => hsame b (hne b (Or.inr hb)), fun b hb c hc => ?_,
    fun b => ?_⟩
  · rw [hsame c (hne c (Or.inr hc))]
    rcases (hmem b).mp hb with rfl | hb
    · rw [Machine.name_eq ((hheap b).trans (if_pos rfl))]
      exact (hname c hc).symm
    · rw [hsame b (hne b (Or.inl hb))]
      exact h.apart b hb c hc
  · rw [hmem, hheap]
    by_cases hb : b = a
    · simp [hb]
    · rw [if_neg hb, ← h.live]
      simp [hb]

/-- A created daemon is the only new one in memory. -/
theorem Machine.create_heap (m : Machine) (name : Name) (conf : DaemonConf) (b : Addr) :
    (m.create name conf).heap b =
      if b = m.next then some ⟨.stopped, name, m.stale m.next, conf⟩ else m.heap b := rfl

/-- The configuration is stored in a daemon that was just created. -/
theorem Machine.create_write (m : Machine) (name : Name) (conf conf' : DaemonConf) :
    (m.create name conf).write m.next ⟨.stopped, name, m.stale m.next, conf'⟩ =
      m.create name conf' := by
  have hheap : ((m.create name conf).write m.next ⟨.stopped, name, m.stale m.next, conf'⟩).heap =
      (m.create name conf').heap := by
    funext b
    rw [write_heap, create_heap, create_heap]
    split <;> rfl
  simp only [Machine.write, create, malloc] at hheap ⊢
  rw [hheap]

/-- The start of a created daemon leaves the names. -/
theorem Machine.sameNames_load (m : Machine) (name : Name) (conf : DaemonConf) :
    (m.create name conf).SameNames (m.load name conf) := by
  rw [load]
  split
  · exact sameNames_start _ _
  · exact fun _ => rfl

/-- A new configuration leaves the names. -/
theorem Machine.sameNames_reconfigure (ha : m.heap a = some daemon) (conf : DaemonConf) :
    m.SameNames (m.reconfigure a daemon conf) := by
  have hwrite : m.SameNames (m.write a { daemon with conf := conf }) := sameNames_write ha rfl
  rw [reconfigure]
  split
  · exact hwrite.trans (sameNames_start _ _)
  · exact hwrite

/-- A daemon that was loaded has the name it was given. -/
theorem Machine.load_name (m : Machine) (name : Name) (conf : DaemonConf) :
    (m.load name conf).name m.next = name := by
  rw [(m.sameNames_load name conf).name_eq,
    name_eq ((m.create_heap name conf m.next).trans (if_pos rfl))]

/-- A created daemon is not in the index. -/
theorem Indexed.create {spawns : TreeNode Addr} (h : Indexed m spawns) (name : Name)
    (conf : DaemonConf) : Indexed (m.create name conf) spawns := by
  have hne : ∀ b, m.Running b → b ≠ m.next := by
    rintro b ⟨d, hd, -⟩
    exact (h.sound.fresh b d hd).ne
  refine ⟨h.sound.malloc fun _ => rfl, h.wellFormed.congr fun b hb => ?_, fun b => ?_⟩
  · rw [Machine.pid, Machine.pid, Machine.create_heap, if_neg (hne b ((h.mem b).mp hb))]
  · rw [h.mem]
    by_cases hb : b = m.next
    · subst hb
      refine iff_of_false (fun hrun => hne _ hrun rfl) ?_
      rintro ⟨d, hd, hs⟩
      rw [Machine.create_heap, if_pos rfl] at hd
      cases hd
      exact hs rfl
    · simp [Machine.Running, Machine.create_heap, hb]

/-- A created daemon that is freed leaves the other ones as they were. -/
theorem Machine.create_free_heap (hnone : m.heap m.next = none) (name : Name) (conf : DaemonConf) :
    ((m.create name conf).free m.next).heap = m.heap := by
  funext b
  rw [free_heap, create_heap]
  by_cases hb : b = m.next
  · rw [if_pos hb, hb, hnone]
  · rw [if_neg hb, if_neg hb]

end Memory

variable {host : Host} {w : World} {old : TreeNode Addr} {entry : DirEntry} {filep : Stream}

/-- `tree_insert(&daemons, daemon)` adds a daemon whose name is new. -/
theorem daemonsInsert_ok {a : Addr} (hread : w.readAll (a :: w.daemons.toList) = .ok ())
    (hwf : w.daemons.WellFormed strcmp w.name)
    (hname : ∀ b ∈ w.daemons.toList, w.name b ≠ w.name a) :
    ∃ daemons, daemonsInsert a w = .ok { w with daemons := daemons } ∧
      daemons.WellFormed strcmp w.name ∧
      ∀ b, b ∈ daemons.toList ↔ b = a ∨ b ∈ w.daemons.toList := by
  obtain ⟨daemons, hins, hwf', hmem⟩ := treeInsert_key hwf hname
  exact ⟨daemons, by rw [daemonsInsert, hread, except_bind_ok, hins]; rfl, hwf', hmem⟩

/-- A file is parsed from the defaults, unless it leaves a line buffer. -/
theorem Stream.parse_outcome (host : Host) (filep : Stream) :
    Outcome (fun trap => trap = .outOfBounds ∧ ¬ filep.Readable)
      (fun r => filep.conf host = if r.1 = 0 then some r.2 else none)
      (filep.parse host (daemonConfInit host)) := by
  have h := daemonConfParse_outcome host filep.before (daemonConfInit host) filep.content
  rw [Stream.conf]
  cases hparse : filep.parse host (daemonConfInit host) with
  | error trap =>
    rw [Stream.parse] at hparse
    rw [hparse] at h
    obtain ⟨number, htrap, hstop⟩ := h
    exact ⟨htrap, fun hread => hstop (hread number)⟩
  | ok r => exact rfl

/-- `configuration_load_daemon` makes a daemon of a file that is parsed. -/
theorem configurationLoadDaemon_ok (h : Merging (old, w))
    (hstream : entry.stream = some filep) (hnew : ∀ a ∈ w.daemons.toList, w.name a ≠ entry.name)
    (hold : ∀ a ∈ old.toList, w.name a ≠ entry.name) {old' : TreeNode Addr}
    (hold' : ∀ a, a ∈ old'.toList ↔ a ∈ old.toList)
    (hwf' : old'.WellFormed strcmp w.name) :
    Outcome (fun trap => trap = .outOfBounds ∧ ¬ filep.Readable)
      (fun w' => Merging (old', w') ∧ MergeStep host entry (old, w) (old', w'))
      (configurationLoadDaemon host entry.name filep w) := by
  have hne : ∀ b ∈ w.daemons.toList, b ≠ w.next := fun b hb => h.ne_next (Or.inl hb)
  obtain ⟨hindexed, howned⟩ := h
  simp only at hindexed howned
  have hnone := hindexed.sound.next_none
  have howned' : Owned w.toMachine w.daemons old' :=
    ⟨howned.wellFormed, hwf', fun a ha b hb => howned.apart a ha b ((hold' b).mp hb),
      fun a => by rw [hold']; exact howned.live a⟩
  have hread : (w.create entry.name (daemonConfInit host)).read w.next =
      .ok ⟨.stopped, entry.name, w.stale w.next, daemonConfInit host⟩ :=
    Machine.read_ok (if_pos rfl)
  simp only [configurationLoadDaemon, daemonCreate]
  rw [show (w.malloc fun pid => ⟨.stopped, entry.name, pid, daemonConfInit host⟩) =
    w.create entry.name (daemonConfInit host) from rfl, hread, except_bind_ok]
  refine (filep.parse_outcome host).bind fun ⟨status, conf⟩ hconf => ?_
  simp only [Machine.create_write] at hconf ⊢
  have hcreate := hindexed.create entry.name conf
  have hheap : ∀ b, (w.create entry.name conf).heap b =
      if b = w.next then some ⟨.stopped, entry.name, w.stale w.next, conf⟩ else w.heap b :=
    w.create_heap entry.name conf
  by_cases hstatus : status = 0
  swap
  · rw [if_pos hstatus]
    rw [if_neg hstatus] at hconf
    obtain ⟨spawns, hdestroy, hfree⟩ := @daemonDestroy_ok
      { w with toMachine := w.create entry.name conf } w.next _ hcreate (if_pos rfl)
    rw [hdestroy]
    refine ⟨⟨hfree, howned'.congr fun b => ?_⟩, .rejected hstream hold hconf hold' rfl rfl⟩
    exact congrArg (Option.map Daemon.name)
      (congrFun (Machine.create_free_heap hnone entry.name conf) b)
  · rw [if_neg (not_not.mpr hstatus)]
    rw [if_pos hstatus] at hconf
    have hsame : ∀ b, b ≠ w.next → (w.create entry.name conf).name b = w.name b := fun b hb => by
      rw [Machine.name, Machine.name, hheap, if_neg hb]
    have hname : (w.create entry.name conf).name w.next = entry.name := by
      rw [Machine.name_eq ((hheap w.next).trans (if_pos rfl))]
    have hall : (w.create entry.name conf).readAll (w.next :: w.daemons.toList) = .ok () := by
      refine Machine.readAll_ok fun b hb => ?_
      rw [hheap]
      split
      · exact ⟨_, rfl⟩
      · rename_i hb'
        exact (howned.live b).mp (Or.inl ((List.mem_cons.mp hb).resolve_left hb'))
    obtain ⟨daemons, hins, hwf, hmem⟩ := @daemonsInsert_ok
      { w with toMachine := w.create entry.name conf } w.next hall
      (howned.wellFormed.congr fun b hb => hsame b (hne b hb))
      (fun b hb => by
        change (w.create entry.name conf).name b ≠ (w.create entry.name conf).name w.next
        rw [hname, hsame b (hne b hb)]
        exact hnew b hb)
    have hadd : Owned (w.create entry.name conf) daemons old' :=
      howned'.add hnone hheap hwf hmem fun b hb => hold b ((hold' b).mp hb)
    rw [hins, except_bind_ok]
    by_cases hload : conf.start.load = true
    · rw [if_pos hload]
      obtain ⟨spawns, hstart, hindexed'⟩ := @daemonStart_ok
        { w with toMachine := w.create entry.name conf, daemons := daemons } w.next _ hcreate
        (if_pos rfl)
      rw [hstart]
      refine ⟨⟨hindexed', hadd.congr (Machine.sameNames_start _ _)⟩,
        .loaded hstream hold hconf hold' hmem ?_⟩
      rw [Machine.load, if_pos hload]
    · rw [if_neg hload]
      refine ⟨⟨hcreate, hadd⟩, .loaded hstream hold hconf hold' hmem ?_⟩
      rw [Machine.load, if_neg hload]

/-- `configuration_reload_daemon` moves the daemon of the name, or loads a new one. -/
theorem configurationReloadDaemon_ok (h : Merging (old, w))
    (hstream : entry.stream = some filep) (hnew : ∀ a ∈ w.daemons.toList, w.name a ≠ entry.name) :
    Outcome (fun trap => trap = .outOfBounds ∧ ¬ filep.Readable)
      (fun s => Merging s ∧ MergeStep host entry (old, w) s)
      (configurationReloadDaemon host entry.name filep old w) := by
  obtain ⟨hindexed, howned⟩ := h
  simp only at hindexed howned
  obtain ⟨r, hrem, hwf, hfound, hmem⟩ := treeRemove_key howned.wellFormed_old entry.name
  rw [configurationReloadDaemon, daemonsRemoveElement, howned.readAll_old, except_bind_ok, hrem,
    except_bind_ok]
  cases hr : r.element with
  | none =>
    have hold : ∀ a ∈ old.toList, w.name a ≠ entry.name := fun a ha hname =>
      Option.some_ne_none a ((hfound a).mpr ⟨ha, hname⟩ ▸ hr)
    have hold' : ∀ a, a ∈ r.root.toList ↔ a ∈ old.toList := fun a => by
      rw [hmem]
      exact and_iff_left_of_imp (hold a)
    exact (configurationLoadDaemon_ok ⟨hindexed, howned⟩ hstream hnew hold hold' hwf).bind
      fun w' hw' => hw'
  | some a =>
    obtain ⟨ha, hname⟩ := (hfound a).mp hr
    obtain ⟨daemon, hheap⟩ := (howned.live a).mp (Or.inr ha)
    have hname' : daemon.name = entry.name := (Machine.name_eq hheap).symm.trans hname
    have hmem' : ∀ b, b ∈ r.root.toList ↔ b ∈ old.toList ∧ b ≠ a := fun b => by
      rw [hmem]
      refine and_congr_right fun hb => not_congr ⟨fun hbn => ?_, fun hba => hba ▸ hname⟩
      exact howned.wellFormed_old.eq_of_key hb ha (hbn.trans hname.symm)
    -- Whatever was done to the daemon, it is still known by its name when it is inserted.
    have hinsert : ∀ (m : Machine) (spawns : TreeNode Addr), w.SameNames m →
        ∃ daemons, daemonsInsert a ⟨m, w.daemons, spawns⟩ = .ok ⟨m, daemons, spawns⟩ ∧
          Owned m daemons r.root ∧ ∀ b, b ∈ daemons.toList ↔ b = a ∨ b ∈ w.daemons.toList := by
      intro m spawns hsame
      obtain ⟨d, hd⟩ := (hsame.live a).mpr ⟨daemon, hheap⟩
      have howned' := howned.congr hsame
      obtain ⟨daemons, hins, hwf', hmem''⟩ := @daemonsInsert_ok ⟨m, w.daemons, spawns⟩ a
        (howned'.readAll_new hd) howned'.wellFormed (fun b hb => howned'.apart b hb a ha)
      exact ⟨daemons, hins, howned'.move ha hwf' (hsame.name_eq ▸ hwf) hmem'' hmem', hmem''⟩
    refine (filep.parse_outcome host).bind fun ⟨status, conf⟩ hconf => ?_
    simp only at hconf ⊢
    by_cases hstatus : status = 0
    swap
    · rw [if_neg hstatus] at hconf ⊢
      obtain ⟨daemons, hins, howned', hmem''⟩ := hinsert w.toMachine w.spawns fun _ => rfl
      rw [hins]
      exact ⟨⟨hindexed, howned'⟩, .kept hstream ha hheap hname' hconf hmem' hmem'' rfl⟩
    · rw [if_pos hstatus] at hconf ⊢
      have hwrite : Indexed (w.write a { daemon with conf := conf }) w.spawns :=
        hindexed.write hheap rfl rfl Iff.rfl
      have hsame : w.SameNames (w.write a { daemon with conf := conf }) :=
        Machine.sameNames_write hheap rfl
      simp only [Machine.read_ok hheap, except_bind_ok]
      by_cases hreload : conf.start.reload = true
      · obtain ⟨spawns, hstart, hindexed'⟩ := @daemonStart_ok
          { w with toMachine := w.write a { daemon with conf := conf } } a _ hwrite (if_pos rfl)
        obtain ⟨daemons, hins, howned', hmem''⟩ :=
          hinsert _ spawns (hsame.trans (Machine.sameNames_start _ a))
        rw [if_pos hreload, hstart, except_bind_ok, hins]
        refine ⟨⟨hindexed', howned'⟩, .reloaded hstream ha hheap hname' hconf hmem' hmem'' ?_⟩
        rw [Machine.reconfigure, if_pos hreload]
      · obtain ⟨daemons, hins, howned', hmem''⟩ := hinsert _ w.spawns hsame
        rw [if_neg hreload, except_pure, except_bind_ok, hins]
        refine ⟨⟨hwrite, howned'⟩, .reloaded hstream ha hheap hname' hconf hmem' hmem'' ?_⟩
        rw [Machine.reconfigure, if_neg hreload]

end Cyberd
