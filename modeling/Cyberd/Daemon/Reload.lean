import Cyberd.Conf.Grammar
import Cyberd.Daemon.Run

/-!
# The merge of a reload

After every entry of a reload the daemons are parted into those that are left in the old
tree as they were, and those of the new tree, each one made from its file. At the end the
old ones that are left are destroyed, and nothing else has happened.
-/

namespace Cyberd

open Library

/-- The entries have this name with this opened stream. -/
def Listed (entries : List DirEntry) (name : Name) (filep : Stream) : Prop :=
  ∃ entry ∈ entries, entry.name = name ∧ entry.stream = some filep

/-- What a daemon has become, and the forks that were called for it: one if its start was
attempted, which may have failed, and none otherwise. -/
def Attempted (forks : List Fork) (a : Addr) (starts : Bool) (before after : Daemon) : Prop :=
  if starts then
    ∃ pid, (forks.filter fun f => f.daemon = a) = [⟨a, before.name, pid⟩] ∧
      after = before.spawned pid
  else (forks.filter fun f => f.daemon = a) = [] ∧ after = before

/-- The configuration has the daemon, whose start was attempted or not. -/
structure Present (w : World) (forks : List Fork) (a : Addr) (starts : Bool) (before : Daemon) :
    Prop where
  /-- The daemon is in the main storage. -/
  owned : a ∈ w.daemons.toList
  /-- It is in memory as it has become. -/
  after : ∃ daemon, w.heap a = some daemon ∧ Attempted forks a starts before daemon

/-- An old daemon with the configuration of its file, or its own one without any. -/
def Daemon.reconfigured (daemon : Daemon) (conf : Option DaemonConf) : Daemon :=
  { daemon with conf := conf.getD daemon.conf }

/-- The start of an old daemon is attempted. -/
def Daemon.restarted (daemon : Daemon) (conf : Option DaemonConf) : Bool :=
  daemon.state = .stopped && conf.any fun conf => conf.start.reload

/-- A reload of these entries, with the forks that it calls. -/
structure Reloaded (host : Host) (entries : List DirEntry) (w w' : World) (forks : List Fork) :
    Prop where
  /-- The names are the listed ones that were there or that have a configuration. -/
  names : ∀ name, (∃ a ∈ w'.daemons.toList, w'.name a = name) ↔
    ∃ filep, Listed entries name filep ∧
      ((∃ a ∈ w.daemons.toList, w.name a = name) ∨ (filep.conf host).isSome)
  /-- An old daemon that is listed is the same object, with its name, pid and state, and
  with its new configuration if there is one; it is started only if it was stopped and the
  new configuration says so. -/
  kept : ∀ a ∈ w.daemons.toList, ∀ daemon filep, w.heap a = some daemon →
    Listed entries daemon.name filep →
    Present w' forks a (daemon.restarted (filep.conf host))
      (daemon.reconfigured (filep.conf host))
  /-- A new daemon is made of a file with a configuration, and it is started only if this
  configuration says so. -/
  loaded : ∀ name filep conf, Listed entries name filep → filep.conf host = some conf →
    (∀ a ∈ w.daemons.toList, w.name a ≠ name) →
    ∃ a pid, w.next ≤ a ∧ Present w' forks a conf.start.load ⟨.stopped, name, pid, conf⟩
  /-- An old daemon that is not listed is destroyed once, and is in no storage any more. -/
  destroyed : ∀ a ∈ w.daemons.toList, (∀ filep, ¬ Listed entries (w.name a) filep) →
    w.freed.count a = 0 ∧ w'.freed.count a = 1 ∧ w'.heap a = none ∧
      a ∉ w'.daemons.toList ∧ a ∉ w'.spawns.toList
  /-- An old daemon that is listed is not destroyed. -/
  spared : ∀ a ∈ w.daemons.toList, ∀ filep, Listed entries (w.name a) filep → a ∉ w'.freed
  /-- The forks are those of daemons of the configuration. -/
  attempts : ∀ f ∈ forks, f.daemon ∈ w'.daemons.toList
  /-- They are all of the forks. -/
  forks_eq : w'.forks = w.forks ++ forks
  /-- No daemon is signalled. -/
  kills_eq : w'.kills = w.kills
  /-- No child is waited for, the new ones are those that were forked. -/
  children : ∀ child, child ∈ w'.children ↔ child ∈ w.children ∨
    ∃ f ∈ forks, f.pid = some child.pid ∧ child.daemon = some (f.daemon, f.name)

/-- The effect of a function on one daemon only, with the forks that it calls. -/
structure Touches (m m' : Machine) (a : Addr) (forks : List Fork) : Prop where
  /-- The forks are for the daemon. -/
  forked : ∀ f ∈ forks, f.daemon = a
  /-- They are all of the forks. -/
  forks_eq : m'.forks = m.forks ++ forks
  /-- No signal is sent. -/
  kills_eq : m'.kills = m.kills
  /-- The children are the same, with those that were forked. -/
  children : ∀ child, child ∈ m'.children ↔ child ∈ m.children ∨
    ∃ f ∈ forks, f.pid = some child.pid ∧ child.daemon = some (f.daemon, f.name)
  /-- The other daemons are the same. -/
  heap : ∀ b, b ≠ a → m'.heap b = m.heap b
  /-- Addresses are given in order. -/
  next : m.next ≤ m'.next
  /-- No other daemon is freed. -/
  freed : ∀ b ∈ m'.freed, b ∈ m.freed ∨ b = m.next

/-- The state of a reload after some of its entries. -/
structure MergedUpTo (host : Host) (w : World) (done : List DirEntry) (s : TreeNode Addr × World)
    (forks : List Fork) : Prop where
  /-- The daemons that are left are those that were not listed. -/
  left : ∀ a, a ∈ s.1.toList ↔
    a ∈ w.daemons.toList ∧ ∀ filep, ¬ Listed done (w.name a) filep
  /-- They are as they were. -/
  untouched : ∀ a ∈ s.1.toList, s.2.heap a = w.heap a ∧ ∀ f ∈ forks, f.daemon ≠ a
  /-- The old daemons that were listed are there. -/
  kept : ∀ a ∈ w.daemons.toList, ∀ daemon filep, w.heap a = some daemon →
    Listed done daemon.name filep →
    Present s.2 forks a (daemon.restarted (filep.conf host))
      (daemon.reconfigured (filep.conf host))
  /-- The new daemons are there. -/
  loaded : ∀ name filep conf, Listed done name filep → filep.conf host = some conf →
    (∀ a ∈ w.daemons.toList, w.name a ≠ name) →
    ∃ a pid, w.next ≤ a ∧ Present s.2 forks a conf.start.load ⟨.stopped, name, pid, conf⟩
  /-- There are no other ones. -/
  origin : ∀ a ∈ s.2.daemons.toList, ∃ filep, Listed done (s.2.name a) filep ∧
    ((∃ b ∈ w.daemons.toList, w.name b = s.2.name a) ∨ (filep.conf host).isSome)
  /-- The forks are those of daemons of the new tree. -/
  attempts : ∀ f ∈ forks, f.daemon ∈ s.2.daemons.toList
  /-- They are for names that were listed. -/
  named : ∀ f ∈ forks, f.name ∈ done.map DirEntry.name
  /-- They are all of the forks. -/
  forks_eq : s.2.forks = w.forks ++ forks
  /-- No daemon is signalled. -/
  kills_eq : s.2.kills = w.kills
  /-- The children are the same, with those that were forked. -/
  children : ∀ child, child ∈ s.2.children ↔ child ∈ w.children ∨
    ∃ f ∈ forks, f.pid = some child.pid ∧ child.daemon = some (f.daemon, f.name)
  /-- Addresses are given in order. -/
  next : w.next ≤ s.2.next

section Effects

variable {m m' m'' : Machine} {a : Addr} {forks forks' : List Fork} {daemon : Daemon}

theorem Touches.refl (m : Machine) (a : Addr) : Touches m m a [] :=
  ⟨by simp, by simp, rfl, by simp, fun _ _ => rfl, le_rfl, fun _ hb => Or.inl hb⟩

/-- A store only touches its daemon. -/
theorem touches_write (m : Machine) (a : Addr) (daemon : Daemon) :
    Touches m (m.write a daemon) a [] :=
  ⟨by simp, by simp [Machine.write], rfl, by simp [Machine.write], fun b hb => if_neg hb, le_rfl,
    fun _ hb => Or.inl hb⟩

/-- A creation only touches the new daemon. -/
theorem touches_create (m : Machine) (name : Name) (conf : DaemonConf) :
    Touches m (m.create name conf) m.next [] :=
  ⟨by simp, by simp [Machine.create, Machine.malloc, Machine.write], rfl,
    by simp [Machine.create, Machine.malloc, Machine.write], fun b hb => if_neg hb,
    Nat.le_succ _, fun _ hb => Or.inl hb⟩

/-- A start forks once for a daemon that is stopped. -/
theorem touches_start (ha : m.heap a = some daemon) :
    ∃ forks daemon', Touches m (m.start a) a forks ∧ (m.start a).heap a = some daemon' ∧
      Attempted forks a (daemon.state = .stopped) daemon daemon' ∧
      (m.start a).freed = m.freed := by
  by_cases hs : daemon.state = .stopped
  · rw [Machine.start_stopped ha hs]
    refine ⟨[⟨a, daemon.name, m.forked⟩], daemon.spawned m.forked, ⟨by simp, rfl, rfl,
      fun child => ?_, fun b hb => ?_, le_rfl, fun _ hb => Or.inl hb⟩, if_pos rfl, ?_, rfl⟩
    · refine Machine.mem_fork.trans ?_
      simp only [List.mem_singleton, exists_eq_left]
      rw [or_comm]
    · rw [Machine.write_heap, if_neg hb, Machine.fork_heap]
    · rw [Attempted, if_pos (by simp [hs])]
      exact ⟨m.forked, by simp, rfl⟩
  · rw [Machine.start_running ha hs]
    refine ⟨[], daemon, .refl m a, ha, ?_, rfl⟩
    rw [Attempted, if_neg (by simp [hs])]
    exact ⟨rfl, rfl⟩

/-- Two effects on one daemon, of which only the last one forks. -/
theorem Touches.trans (h : Touches m m' a []) (h' : Touches m' m'' a forks)
    (hfreed : m''.freed = m.freed) : Touches m m'' a forks := by
  refine ⟨h'.forked, ?_, h'.kills_eq.trans h.kills_eq, fun child => ?_,
    fun b hb => (h'.heap b hb).trans (h.heap b hb), h.next.trans h'.next,
    fun b hb => Or.inl (hfreed ▸ hb)⟩
  · rw [h'.forks_eq, h.forks_eq, List.append_nil]
  · rw [h'.children, h.children]
    simp

/-- A new configuration only touches its daemon. -/
theorem touches_reconfigure (m : Machine) (a : Addr) (daemon : Daemon) (conf : DaemonConf) :
    ∃ forks daemon', Touches m (m.reconfigure a daemon conf) a forks ∧
      (m.reconfigure a daemon conf).heap a = some daemon' ∧
      Attempted forks a (daemon.restarted (some conf)) (daemon.reconfigured (some conf))
        daemon' := by
  have hwrite := touches_write m a (daemon.reconfigured (some conf))
  rw [Machine.reconfigure]
  by_cases hreload : conf.start.reload = true
  · rw [if_pos hreload]
    obtain ⟨forks, daemon', htouch, hheap, hattempt, hfreed⟩ :=
      @touches_start (m.write a (daemon.reconfigured (some conf))) a _ (if_pos rfl)
    have hstarts : daemon.restarted (some conf) = decide (daemon.state = .stopped) := by
      simp [Daemon.restarted, hreload]
    rw [hstarts]
    exact ⟨forks, daemon', hwrite.trans htouch hfreed, hheap, hattempt⟩
  · rw [if_neg hreload]
    refine ⟨[], _, hwrite, if_pos rfl, ?_⟩
    rw [Attempted, if_neg (by simp [Daemon.restarted, hreload])]
    exact ⟨rfl, rfl⟩

/-- A new daemon is the only one that its load touches. -/
theorem touches_load (m : Machine) (name : Name) (conf : DaemonConf) :
    ∃ forks daemon', Touches m (m.load name conf) m.next forks ∧
      (m.load name conf).heap m.next = some daemon' ∧
      Attempted forks m.next conf.start.load ⟨.stopped, name, m.stale m.next, conf⟩ daemon' := by
  have hcreate := touches_create m name conf
  have hheap : (m.create name conf).heap m.next = some ⟨.stopped, name, m.stale m.next, conf⟩ :=
    if_pos rfl
  rw [Machine.load]
  by_cases hload : conf.start.load = true
  · rw [if_pos hload]
    obtain ⟨forks, daemon', htouch, hheap', hattempt, hfreed⟩ := touches_start hheap
    refine ⟨forks, daemon', hcreate.trans htouch hfreed, hheap', ?_⟩
    simpa [hload] using hattempt
  · rw [if_neg hload]
    refine ⟨[], _, hcreate, hheap, ?_⟩
    rw [Attempted, if_neg (by simp [hload])]
    exact ⟨rfl, rfl⟩

/-- A daemon that is created and freed leaves no other trace. -/
theorem touches_reject (hnone : m.heap m.next = none) (name : Name) (conf : DaemonConf) :
    Touches m ((m.create name conf).free m.next) m.next [] := by
  have hcreate := touches_create m name conf
  refine ⟨by simp, hcreate.forks_eq, hcreate.kills_eq, hcreate.children, fun b _ => ?_,
    hcreate.next, fun b hb => ?_⟩
  · rw [Machine.create_free_heap hnone]
  · rcases List.mem_append.mp hb with hb | hb
    · exact Or.inl hb
    · exact Or.inr (List.mem_singleton.mp hb)

end Effects

section Loop

variable {host : Host} {w : World} {done : List DirEntry} {entry : DirEntry}
variable {s s' : TreeNode Addr × World} {forks forks' : List Fork} {x : Addr}

/-- The listing of one more entry. -/
theorem listed_append {name : Name} {filep : Stream} :
    Listed (done ++ [entry]) name filep ↔
      Listed done name filep ∨ entry.name = name ∧ entry.stream = some filep := by
  constructor
  · rintro ⟨e, he, hname, hstream⟩
    rcases List.mem_append.mp he with he | he
    · exact Or.inl ⟨e, he, hname, hstream⟩
    · rw [List.mem_singleton.mp he] at hname hstream
      exact Or.inr ⟨hname, hstream⟩
  · rintro (⟨e, he, h⟩ | h)
    · exact ⟨e, List.mem_append_left _ he, h⟩
    · exact ⟨entry, by simp, h⟩

/-- A daemon stays there while another one is touched. -/
theorem Present.touch {w w' : World} {a : Addr} {starts : Bool} {before : Daemon}
    (h : Present w forks a starts before) (ht : Touches w.toMachine w'.toMachine x forks')
    (hne : a ≠ x) (hmono : ∀ b ∈ w.daemons.toList, b ∈ w'.daemons.toList) :
    Present w' (forks ++ forks') a starts before := by
  obtain ⟨daemon, hheap, hattempt⟩ := h.after
  refine ⟨hmono a h.owned, daemon, (ht.heap a hne).trans hheap, ?_⟩
  have hnone : (forks'.filter fun f => f.daemon = a) = [] := by
    rw [List.filter_eq_nil_iff]
    intro f hf
    rw [ht.forked f hf]
    simpa using hne.symm
  rw [Attempted, List.filter_append, hnone, List.append_nil]
  exact hattempt

/-- The forks of a daemon that had none. -/
theorem Attempted.append {a : Addr} {starts : Bool} {before after : Daemon}
    (h : Attempted forks' a starts before after) (hnone : ∀ f ∈ forks, f.daemon ≠ a) :
    Attempted (forks ++ forks') a starts before after := by
  have hfilter : (forks.filter fun f => f.daemon = a) = [] := by
    rw [List.filter_eq_nil_iff]
    intro f hf
    simpa using hnone f hf
  rw [Attempted, List.filter_append, hfilter, List.nil_append]
  exact h

/-- The forks of a daemon are for its name. -/
theorem Attempted.fork_name {a : Addr} {starts : Bool} {before after : Daemon}
    (h : Attempted forks a starts before after) {f : Fork} (hf : f ∈ forks) (hfa : f.daemon = a) :
    f.name = before.name := by
  have hmem : f ∈ forks.filter fun f => f.daemon = a := List.mem_filter.mpr ⟨hf, by simp [hfa]⟩
  rw [Attempted] at h
  split at h
  · obtain ⟨pid, heq, -⟩ := h
    rw [heq, List.mem_singleton] at hmem
    rw [hmem]
  · rw [h.1] at hmem
    cases hmem

/-- A daemon keeps its name, whether it was started or not. -/
theorem Present.name {w : World} {a : Addr} {starts : Bool} {before : Daemon}
    (h : Present w forks a starts before) : w.name a = before.name := by
  obtain ⟨-, daemon, hheap, hattempt⟩ := h
  rw [Machine.name_eq hheap]
  rw [Attempted] at hattempt
  split at hattempt
  · obtain ⟨pid, -, rfl⟩ := hattempt
    exact Machine.spawned_name
  · rw [hattempt.2]

/-- What an entry does to the parts of the daemons: it touches one daemon that is not in
the new tree, and lists its own name. -/
structure EntryEffect (host : Host) (w : World) (entry : DirEntry) (s s' : TreeNode Addr × World)
    (x : Addr) (filep : Stream) (forks forks' : List Fork) : Prop where
  /-- The stream of the entry. -/
  stream : entry.stream = some filep
  /-- Only this daemon is touched. -/
  touches : Touches s.2.toMachine s'.2.toMachine x forks'
  /-- It was not in the new tree. -/
  apart : ∀ a ∈ s.2.daemons.toList, a ≠ x
  /-- It leaves the old tree, which holds no other daemon of the name. -/
  old : ∀ a, a ∈ s'.1.toList ↔ a ∈ s.1.toList ∧ a ≠ x
  /-- A daemon of the old tree is the one of the entry exactly when it has the name. -/
  target : ∀ a ∈ s.1.toList, a = x ↔ s.2.name a = entry.name
  /-- The new tree keeps its daemons. -/
  mono : ∀ a ∈ s.2.daemons.toList, a ∈ s'.2.daemons.toList
  /-- It has no other daemon than this one besides. -/
  added : ∀ a ∈ s'.2.daemons.toList, a ∈ s.2.daemons.toList ∨
    a = x ∧ s'.2.name x = entry.name ∧ (x ∈ s.1.toList ∨ (filep.conf host).isSome)
  /-- The forks are for a daemon of the new tree, of the name of the entry. -/
  attempts : ∀ f ∈ forks', f.daemon ∈ s'.2.daemons.toList ∧ f.name = entry.name
  /-- An old daemon is there with its new configuration. -/
  kept : ∀ daemon, x ∈ s.1.toList → s.2.heap x = some daemon →
    Present s'.2 (forks ++ forks') x (daemon.restarted (filep.conf host))
      (daemon.reconfigured (filep.conf host))
  /-- A new daemon is there. -/
  loaded : ∀ conf, (∀ a ∈ s.1.toList, s.2.name a ≠ entry.name) → filep.conf host = some conf →
    ∃ a pid, w.next ≤ a ∧
      Present s'.2 (forks ++ forks') a conf.start.load ⟨.stopped, entry.name, pid, conf⟩

/-- A skipped entry lists nothing. -/
theorem MergedUpTo.skip (h : MergedUpTo host w done s forks) (hstream : entry.stream = none) :
    MergedUpTo host w (done ++ [entry]) s forks := by
  have hlisted : ∀ name filep,
      Listed (done ++ [entry]) name filep ↔ Listed done name filep := fun name filep => by
    rw [listed_append, hstream]
    simp
  obtain ⟨hleft, huntouched, hkept, hloaded, horigin, hattempts, hnamed, hforks, hkills,
    hchildren, hnext⟩ := h
  refine ⟨fun a => ?_, huntouched, fun a ha d filep hd hl => ?_, fun name filep conf hl => ?_,
    fun a ha => ?_, hattempts, fun f hf => ?_, hforks, hkills, hchildren, hnext⟩
  · simp only [hlisted]
    exact hleft a
  · exact hkept a ha d filep hd ((hlisted _ _).mp hl)
  · exact hloaded name filep conf ((hlisted _ _).mp hl)
  · obtain ⟨filep, hl, hor⟩ := horigin a ha
    exact ⟨filep, (hlisted _ _).mpr hl, hor⟩
  · rw [List.map_append]
    exact List.mem_append_left _ (hnamed f hf)

/-- An entry of a new name moves one daemon from a part to another. -/
theorem MergedUpTo.step (h : MergedUpTo host w done s forks) {filep : Stream}
    (he : EntryEffect host w entry s s' x filep forks forks')
    (hdone : entry.name ∉ done.map DirEntry.name) :
    MergedUpTo host w (done ++ [entry]) s' (forks ++ forks') := by
  -- The name of the entry was not listed yet, so that an old daemon of this name is left.
  have hunlisted : ∀ filep, ¬ Listed done entry.name filep := by
    rintro filep ⟨e, hmem, hname, -⟩
    exact hdone (List.mem_map.mpr ⟨e, hmem, hname⟩)
  have hname : ∀ a ∈ s.1.toList, s.2.name a = w.name a := fun a ha => by
    rw [Machine.name, Machine.name, (h.untouched a ha).1]
  refine
    { left := fun a => ?_
      untouched := fun a ha => ?_
      kept := fun a ha daemon filep' hheap hlisted => ?_
      loaded := fun name filep' conf hlisted hconf hnew => ?_
      origin := fun a ha => ?_
      attempts := fun f hf => ?_
      named := fun f hf => ?_
      forks_eq := by rw [he.touches.forks_eq, h.forks_eq, List.append_assoc]
      kills_eq := he.touches.kills_eq.trans h.kills_eq
      children := fun child => ?_
      next := h.next.trans he.touches.next }
  · rw [he.old, h.left]
    constructor
    · rintro ⟨⟨ha, hl⟩, hne⟩
      refine ⟨ha, fun filep' hlisted => ?_⟩
      rcases listed_append.mp hlisted with hlisted | ⟨hentry, -⟩
      · exact hl filep' hlisted
      · have hold := (h.left a).mpr ⟨ha, hl⟩
        exact hne ((he.target a hold).mpr ((hname a hold).trans hentry.symm))
    · rintro ⟨ha, hl⟩
      have hl' : ∀ filep', ¬ Listed done (w.name a) filep' := fun filep' hlisted =>
        hl filep' (listed_append.mpr (Or.inl hlisted))
      have hold := (h.left a).mpr ⟨ha, hl'⟩
      refine ⟨⟨ha, hl'⟩, fun hx => hl filep (listed_append.mpr (Or.inr ⟨?_, he.stream⟩))⟩
      rw [← hname a hold, ← (he.target a hold).mp hx]
  · obtain ⟨hold, hne⟩ := (he.old a).mp ha
    obtain ⟨hheap, hforks⟩ := h.untouched a hold
    refine ⟨(he.touches.heap a hne).trans hheap, fun f hf => ?_⟩
    rcases List.mem_append.mp hf with hf | hf
    · exact hforks f hf
    · rw [he.touches.forked f hf]
      exact hne.symm
  · rcases listed_append.mp hlisted with hlisted | ⟨hentry, hstream⟩
    · have hpresent := h.kept a ha daemon filep' hheap hlisted
      exact hpresent.touch he.touches (he.apart a hpresent.owned) he.mono
    · rw [he.stream] at hstream
      cases hstream
      have hwname : w.name a = entry.name := (Machine.name_eq hheap).trans hentry.symm
      have hold : a ∈ s.1.toList := (h.left a).mpr ⟨ha, fun f => hwname ▸ hunlisted f⟩
      have hx : a = x := (he.target a hold).mpr ((hname a hold).trans hwname)
      subst hx
      exact he.kept daemon hold ((h.untouched a hold).1.trans hheap)
  · rcases listed_append.mp hlisted with hlisted | ⟨hentry, hstream⟩
    · obtain ⟨a, pid, hnext, hpresent⟩ := h.loaded name filep' conf hlisted hconf hnew
      exact ⟨a, pid, hnext, hpresent.touch he.touches (he.apart a hpresent.owned) he.mono⟩
    · rw [he.stream] at hstream
      cases hstream
      subst hentry
      refine he.loaded conf (fun a ha => ?_) hconf
      rw [hname a ha]
      exact hnew a ((h.left a).mp ha).1
  · rcases he.added a ha with ha | ⟨rfl, hxname, hor⟩
    · obtain ⟨filep', hlisted, hor⟩ := h.origin a ha
      have hsame : s'.2.name a = s.2.name a := by
        rw [Machine.name, Machine.name, he.touches.heap a (he.apart a ha)]
      rw [hsame]
      exact ⟨filep', listed_append.mpr (Or.inl hlisted), hor⟩
    · refine ⟨filep, listed_append.mpr (Or.inr ⟨hxname.symm, he.stream⟩), ?_⟩
      rcases hor with hold | hconf
      · refine Or.inl ⟨a, ((h.left a).mp hold).1, ?_⟩
        rw [hxname, ← hname a hold]
        exact (he.target a hold).mp rfl
      · exact Or.inr hconf
  · rcases List.mem_append.mp hf with hf | hf
    · exact he.mono _ (h.attempts f hf)
    · exact (he.attempts f hf).1
  · rw [List.map_append, List.mem_append]
    rcases List.mem_append.mp hf with hf | hf
    · exact Or.inl (h.named f hf)
    · exact Or.inr (by simp [(he.attempts f hf).2])
  · rw [he.touches.children, h.children, or_assoc]
    simp only [List.mem_append, or_and_right, exists_or]

/-- No fork was called yet for a daemon that is not in the new tree. -/
private theorem MergedUpTo.forks_ne (h : MergedUpTo host w done s forks)
    (hx : ∀ a ∈ s.2.daemons.toList, a ≠ x) : ∀ f ∈ forks, f.daemon ≠ x :=
  fun f hf => hx _ (h.attempts f hf)

/-- No daemon is in both trees. -/
private theorem Merging.disjoint (hs : Merging s) {a b : Addr} (ha : a ∈ s.2.daemons.toList)
    (hb : b ∈ s.1.toList) : a ≠ b :=
  fun heq => hs.owned.apart _ ha _ hb (heq ▸ rfl)

/-- An old daemon is the only one of its name in the old tree. -/
private theorem Merging.eq_iff_name (hs : Merging s) {a b : Addr} (ha : a ∈ s.1.toList)
    (hb : b ∈ s.1.toList) : b = a ↔ s.2.name b = s.2.name a :=
  ⟨fun heq => heq ▸ rfl, hs.owned.wellFormed_old.eq_of_key hb ha⟩

/-- Every entry is skipped, or touches one daemon. -/
theorem MergeStep.effect (hstep : MergeStep host entry s s') (hs : Merging s)
    (h : MergedUpTo host w done s forks) :
    (entry.stream = none ∧ s' = s) ∨
      ∃ x filep forks', EntryEffect host w entry s s' x filep forks forks' := by
  cases hstep with
  | skipped hstream => exact Or.inl ⟨hstream, rfl⟩
  | @rejected old old' w₁ w₂ filep conf hstream hnew hconf hold hdaemons hm =>
    refine Or.inr ⟨w₁.next, filep, [], hstream, ?_, fun a ha => hs.ne_next (Or.inl ha),
      fun a => ?_, fun a ha => ?_, fun a ha => ?_, fun a ha => ?_, by simp, fun d hx => ?_,
      fun conf' _ hconf' => ?_⟩
    · rw [hm]
      exact touches_reject hs.indexed.sound.next_none entry.name conf
    · rw [hold]
      exact (and_iff_left_of_imp fun ha => hs.ne_next (Or.inr ha)).symm
    · exact iff_of_false (hs.ne_next (Or.inr ha)) (hnew a ha)
    · rw [hdaemons]
      exact ha
    · rw [hdaemons] at ha
      exact Or.inl ha
    · exact absurd rfl (hs.ne_next (Or.inr hx))
    · rw [hconf] at hconf'
      cases hconf'
  | @loaded old old' w₁ w₂ filep conf hstream hnew hconf hold hdaemons hm =>
    obtain ⟨forks', daemon', htouch, hheap, hattempt⟩ :=
      touches_load w₁.toMachine entry.name conf
    rw [← hm] at htouch hheap
    have hname : w₂.name w₁.next = entry.name := by
      rw [hm, Machine.load_name]
    refine Or.inr ⟨w₁.next, filep, forks', hstream, htouch, fun a ha => hs.ne_next (Or.inl ha),
      fun a => ?_, fun a ha => ?_, fun a ha => (hdaemons a).mpr (Or.inr ha), fun a ha => ?_,
      fun f hf => ?_, fun d hx => absurd rfl (hs.ne_next (Or.inr hx)), fun conf' _ hconf' => ?_⟩
    · rw [hold]
      exact (and_iff_left_of_imp fun ha => hs.ne_next (Or.inr ha)).symm
    · exact iff_of_false (hs.ne_next (Or.inr ha)) (hnew a ha)
    · rcases (hdaemons a).mp ha with rfl | ha
      · exact Or.inr ⟨rfl, hname, Or.inr (by rw [hconf]; rfl)⟩
      · exact Or.inl ha
    · refine ⟨?_, hattempt.fork_name hf (htouch.forked f hf)⟩
      rw [htouch.forked f hf]
      exact (hdaemons _).mpr (Or.inl rfl)
    · rw [hconf] at hconf'
      cases hconf'
      refine ⟨w₁.next, w₁.stale w₁.next, h.next, (hdaemons _).mpr (Or.inl rfl), daemon', hheap, ?_⟩
      exact hattempt.append (h.forks_ne fun a ha => hs.ne_next (Or.inl ha))
  | @kept old old' w₁ w₂ filep a daemon hstream ha hheap hname hconf hold hdaemons hm =>
    have hx : ∀ b ∈ w₁.daemons.toList, b ≠ a := fun b hb => hs.disjoint hb ha
    refine Or.inr ⟨a, filep, [], hstream, ?_, hx, hold, fun b hb => ?_,
      fun b hb => (hdaemons b).mpr (Or.inr hb), fun b hb => ?_, by simp, fun d _ hd => ?_,
      fun conf' hnone => absurd ((Machine.name_eq hheap).trans hname) (hnone a ha)⟩
    · rw [hm]
      exact .refl _ _
    · rw [← hname, ← Machine.name_eq hheap]
      exact hs.eq_iff_name ha hb
    · rcases (hdaemons b).mp hb with rfl | hb
      · exact Or.inr ⟨rfl, by rw [hm, Machine.name_eq hheap, hname], Or.inl ha⟩
      · exact Or.inl hb
    · rw [hheap] at hd
      cases hd
      refine ⟨(hdaemons a).mpr (Or.inl rfl), daemon, by rw [hm, hheap], ?_⟩
      have hnone : Attempted [] a (daemon.restarted (filep.conf host))
          (daemon.reconfigured (filep.conf host)) daemon := by
        rw [hconf, Attempted, if_neg (by simp [Daemon.restarted])]
        exact ⟨rfl, rfl⟩
      exact hnone.append (h.forks_ne hx)
  | @reloaded old old' w₁ w₂ filep a daemon conf hstream ha hheap hname hconf hold hdaemons hm =>
    have hx : ∀ b ∈ w₁.daemons.toList, b ≠ a := fun b hb => hs.disjoint hb ha
    obtain ⟨forks', daemon', htouch, hheap', hattempt⟩ :=
      touches_reconfigure w₁.toMachine a daemon conf
    rw [← hm] at htouch hheap'
    have hname' : w₂.name a = entry.name := by
      rw [hm, (Machine.sameNames_reconfigure hheap conf).name_eq, Machine.name_eq hheap, hname]
    refine Or.inr ⟨a, filep, forks', hstream, htouch, hx, hold, fun b hb => ?_,
      fun b hb => (hdaemons b).mpr (Or.inr hb), fun b hb => ?_, fun f hf => ?_, fun d _ hd => ?_,
      fun conf' hnone => absurd ((Machine.name_eq hheap).trans hname) (hnone a ha)⟩
    · rw [← hname, ← Machine.name_eq hheap]
      exact hs.eq_iff_name ha hb
    · rcases (hdaemons b).mp hb with rfl | hb
      · exact Or.inr ⟨rfl, hname', Or.inl ha⟩
      · exact Or.inl hb
    · refine ⟨?_, (hattempt.fork_name hf (htouch.forked f hf)).trans hname⟩
      rw [htouch.forked f hf]
      exact (hdaemons _).mpr (Or.inl rfl)
    · rw [hheap] at hd
      cases hd
      rw [hconf]
      exact ⟨(hdaemons a).mpr (Or.inl rfl), daemon', hheap', hattempt.append (h.forks_ne hx)⟩

/-- Every entry of a new name keeps the parts of the daemons. -/
theorem MergeStep.mergedUpTo (hstep : MergeStep host entry s s') (hs : Merging s)
    (h : MergedUpTo host w done s forks) (hdone : entry.name ∉ done.map DirEntry.name) :
    ∃ forks', MergedUpTo host w (done ++ [entry]) s' forks' := by
  rcases hstep.effect hs h with ⟨hstream, rfl⟩ | ⟨x, filep, forks', heffect⟩
  · exact ⟨forks, h.skip hstream⟩
  · exact ⟨_, h.step heffect hdone⟩

/-- At the beginning of a reload all of the daemons are left. -/
theorem mergedUpTo_nil (host : Host) (w : World) :
    MergedUpTo host w [] (w.daemons, { w with daemons := .null }) [] := by
  have hlisted : ∀ name filep, ¬ Listed [] name filep := fun name filep ⟨_, he, _⟩ => by
    cases he
  refine ⟨fun a => ?_, fun a ha => ⟨rfl, by simp⟩, fun a ha d filep hd hl => ?_,
    fun name filep conf hl => ?_, fun a ha => ?_, by simp, by simp, by simp, rfl, by simp, le_rfl⟩
  · exact (and_iff_left fun filep => hlisted _ filep).symm
  · exact absurd hl (hlisted _ _)
  · exact absurd hl (hlisted _ _)
  · simp at ha

end Loop

/-- The memory once a list of daemons was freed. -/
theorem foldl_free (l : List Addr) (m : Machine) :
    (∀ a, (l.foldl Machine.free m).heap a = if a ∈ l then none else m.heap a) ∧
      (l.foldl Machine.free m).freed = m.freed ++ l ∧ (l.foldl Machine.free m).forks = m.forks ∧
      (l.foldl Machine.free m).kills = m.kills ∧
      (l.foldl Machine.free m).children = m.children := by
  induction l generalizing m with
  | nil => simp
  | cons a l ih =>
    obtain ⟨hheap, hfreed, hforks, hkills, hchildren⟩ := ih (m.free a)
    refine ⟨fun b => ?_, ?_, hforks, hkills, hchildren⟩
    · rw [List.foldl_cons, hheap, Machine.free_heap]
      by_cases hb : b = a <;> simp [hb]
    · rw [List.foldl_cons, hfreed, Machine.free, List.append_assoc, List.singleton_append]

/-- Once the daemons that are left are destroyed, the merge is the one of the entries. -/
theorem MergedUpTo.reloaded {host : Host} {w w' : World} {entries : List DirEntry}
    {s : TreeNode Addr × World} {forks : List Fork} (hmerged : MergedUpTo host w entries s forks)
    (h : w.Invariant) (hs : Merging s) (hw' : w'.Invariant) (hdaemons : w'.daemons = s.2.daemons)
    (hm : w'.toMachine = s.1.preorder.foldl Machine.free s.2.toMachine) :
    Reloaded host entries w w' forks := by
  obtain ⟨hheap, hfreed, hforks, hkills, hchildren⟩ := foldl_free s.1.preorder s.2.toMachine
  rw [← hm] at hheap hfreed hforks hkills hchildren
  have hpre : ∀ a, a ∈ s.1.preorder ↔ a ∈ s.1.toList := fun a => s.1.preorder_perm.mem_iff
  have hstays : ∀ a ∈ s.2.daemons.toList, w'.heap a = s.2.heap a := fun a ha => by
    rw [hheap, if_neg]
    intro hmem
    exact hs.owned.apart a ha a ((hpre a).mp hmem) rfl
  have hpresent : ∀ {a starts before}, Present s.2 forks a starts before →
      Present w' forks a starts before := by
    rintro a starts before ⟨howned, daemon, hd, hattempt⟩
    exact ⟨hdaemons ▸ howned, daemon, (hstays a howned).trans hd, hattempt⟩
  have hlive : ∀ a ∈ w.daemons.toList, ∃ daemon, w.heap a = some daemon :=
    fun a ha => (h.owned.live a).mp (Or.inl ha)
  refine
    { names := fun name => ⟨?_, ?_⟩
      kept := fun a ha daemon filep hd hl => hpresent (hmerged.kept a ha daemon filep hd hl)
      loaded := fun name filep conf hl hconf hnew => ?_
      destroyed := fun a ha hnone => ?_
      spared := fun a ha filep hl hfree => ?_
      attempts := fun f hf => hdaemons ▸ hmerged.attempts f hf
      forks_eq := hforks.trans hmerged.forks_eq
      kills_eq := hkills.trans hmerged.kills_eq
      children := fun child => by rw [hchildren]; exact hmerged.children child }
  · rintro ⟨a, ha, rfl⟩
    rw [hdaemons] at ha
    have hname : w'.name a = s.2.name a := by rw [Machine.name, Machine.name, hstays a ha]
    rw [hname]
    exact hmerged.origin a ha
  · rintro ⟨filep, hl, hor⟩
    by_cases hold : ∃ a ∈ w.daemons.toList, w.name a = name
    · obtain ⟨a, ha, rfl⟩ := hold
      obtain ⟨daemon, hd⟩ := hlive a ha
      have hp := hpresent (hmerged.kept a ha daemon filep hd (Machine.name_eq hd ▸ hl))
      exact ⟨a, hp.owned, hp.name.trans (Machine.name_eq hd).symm⟩
    · obtain ⟨conf, hconf⟩ := Option.isSome_iff_exists.mp (hor.resolve_left hold)
      obtain ⟨a, pid, -, hp⟩ :=
        hmerged.loaded name filep conf hl hconf fun a ha hn => hold ⟨a, ha, hn⟩
      exact ⟨a, (hpresent hp).owned, (hpresent hp).name⟩
  · obtain ⟨a, pid, hnext, hp⟩ := hmerged.loaded name filep conf hl hconf hnew
    exact ⟨a, pid, hnext, hpresent hp⟩
  · have hleft := (hpre a).mpr ((hmerged.left a).mpr ⟨ha, hnone⟩)
    have hgone : w'.heap a = none := by rw [hheap, if_pos hleft]
    obtain ⟨daemon, hd⟩ := hlive a ha
    refine ⟨List.count_eq_zero.mpr fun hmem => ?_, ?_, hgone, fun hmem => ?_, fun hmem => ?_⟩
    · rw [(h.indexed.sound.freed a hmem).2] at hd
      cases hd
    · refine List.count_eq_one_of_mem hw'.indexed.sound.freed_nodup ?_
      rw [hfreed]
      exact List.mem_append_right _ hleft
    · obtain ⟨d, hd'⟩ := (hw'.owned.live a).mp (Or.inl hmem)
      rw [hgone] at hd'
      cases hd'
    · obtain ⟨d, hd', -⟩ := (hw'.indexed.mem a).mp hmem
      rw [hgone] at hd'
      cases hd'
  · obtain ⟨daemon, hd⟩ := hlive a ha
    obtain ⟨-, d, hd', -⟩ :=
      hpresent (hmerged.kept a ha daemon filep hd (Machine.name_eq hd ▸ hl))
    rw [(hw'.indexed.sound.freed a hfree).2] at hd'
    cases hd'

/-- For every sound state and every directory, a reload makes the configuration of the
entries that are read and opened: daemons keep their name, pid and state, the start of a
daemon is attempted only as its file says, and those that are gone are destroyed. It only
stops if the parsing of a file leaves its line buffer. -/
theorem configurationReload_merges (host : Host) {w : World} (h : w.Invariant) (dir : Directory) :
    Outcome (Unreadable dir.read)
      (fun w' => w'.Invariant ∧ ∃ forks, Reloaded host dir.read w w' forks)
      (configurationReload host (some dir) w) := by
  refine (configurationReload_ok (fun done s => ∃ forks, MergedUpTo host w done s forks) h
    ⟨[], mergedUpTo_nil host w⟩ ?_).mono ?_ fun _ ht => ht
  · rintro done entry rest s s' hread hs - ⟨forks, hmerged⟩ hstep -
    exact hstep.mergedUpTo hs hmerged (dir.read_fresh hread)
  · rintro w' ⟨hw', s, hs, ⟨forks, hmerged⟩, hdaemons, hm⟩
    exact ⟨hw', forks, hmerged.reloaded h hs hw' hdaemons hm⟩

/-- The file `"path=/b\n[start]\nload\n"`, in buffers that a null byte precedes. -/
def loadFile : Stream where
  content := [112, 97, 116, 104, 61, 47, 98, 10, 91, 115, 116, 97, 114, 116, 93, 10, 108, 111, 97,
    100, 10]
  before := fun _ => some 0

/-- A directory with this file under some names. -/
def loadDirectory (names : List Name) (h : names.Nodup) : Directory where
  entries := names.map fun name => ⟨name, some loadFile⟩
  distinct := by simpa [Function.comp_def] using h
  failure := none

theorem loadNames_nodup : ([[97]] : List Name).Nodup := List.nodup_singleton _

/-- A host where the daemon `a` is started at first, and pids are given from 5 on. -/
def loadBoot : Boot := ⟨fun _ => 0, [5, 6], [], some (loadDirectory [[97]] loadNames_nodup)⟩

/-- The first load makes a sound state. -/
theorem loadBoot_run : ∃ w, World.run bareHost loadBoot [] = .ok w ∧ w.Invariant := by
  have hok : (World.run bareHost loadBoot []).toBool = true := by decide
  have hinv := World.run_ok bareHost loadBoot []
  cases hw : World.run bareHost loadBoot [] with
  | ok w =>
    rw [hw] at hinv
    exact ⟨w, rfl, hinv⟩
  | error trap =>
    rw [hw] at hok
    cases hok

/-- The daemon `a` is started, then a reload replaces it by `b`. -/
theorem configurationReload_merges_replace :
    ∃ w, World.run bareHost loadBoot [] = .ok w ∧
      Outcome (Unreadable (loadDirectory [[98]] (by decide)).read)
        (fun w' => w'.Invariant ∧
          ∃ forks, Reloaded bareHost (loadDirectory [[98]] (by decide)).read w w' forks)
        (configurationReload bareHost (some (loadDirectory [[98]] (by decide))) w) := by
  obtain ⟨w, hw, hinv⟩ := loadBoot_run
  exact ⟨w, hw, configurationReload_merges bareHost hinv _⟩

end Cyberd
