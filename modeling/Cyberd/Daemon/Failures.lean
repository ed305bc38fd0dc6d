import Cyberd.Daemon.Reload

/-!
# Failing reloads

A directory that cannot be opened, and a file that cannot be parsed, leave the daemons as
they are. An entry that is not read, or whose file cannot be opened, leaves its daemon in
the old tree, and a reload destroys what is left there.
-/

namespace Cyberd

open Library

/-- The name is in the directory, as far as it could be opened to tell. -/
def StillThere (dirp : Option Directory) (name : Name) : Prop :=
  ∀ dir, dirp = some dir → name ∈ dir.entries.map DirEntry.name

/-- An entry of the name is read, and its file is opened. -/
def Opened (dirp : Option Directory) (name : Name) : Prop :=
  ∀ dir, dirp = some dir → ∃ filep, Listed dir.read name filep

/-- A configuration is read for the name. -/
def Configured (host : Host) (dirp : Option Directory) (name : Name) : Prop :=
  ∃ dir filep, dirp = some dir ∧ Listed dir.read name filep ∧ (filep.conf host).isSome

/-- A daemon as a reload leaves it, with its process if it is not started. -/
structure Daemon.Survives (daemon after : Daemon) : Prop where
  /-- The name is the same. -/
  name : after.name = daemon.name
  /-- The state and the pid are the same, or a stopped daemon is started. -/
  process : after.state = daemon.state ∧ after.pid = daemon.pid ∨
    daemon.state = .stopped ∧ after.state = .started

/-- No daemon whose file is still there is lost. -/
structure LosesNoDaemon (host : Host) (dirp : Option Directory) (w w' : World) : Prop where
  /-- The daemon is still in the storage, with its own configuration if no other is read. -/
  kept : ∀ a ∈ w.daemons.toList, ∀ daemon, w.heap a = some daemon →
    StillThere dirp daemon.name → a ∈ w'.daemons.toList ∧
      ∃ after, w'.heap a = some after ∧ daemon.Survives after ∧
        (¬ Configured host dirp daemon.name → after.conf = daemon.conf)
  /-- A daemon that is destroyed is one whose file is gone. -/
  gone : ∀ a ∈ w.daemons.toList, a ∈ w'.freed → ¬ StillThere dirp (w.name a)

variable {host : Host} {dir : Directory} {w w' : World} {forks : List Fork} {a : Addr}
variable {daemon after : Daemon}

theorem Daemon.survives_refl (daemon : Daemon) : daemon.Survives daemon :=
  ⟨rfl, Or.inl ⟨rfl, rfl⟩⟩

/-- An old daemon survives its new configuration, whether its start was attempted or not. -/
theorem Attempted.survives {conf : Option DaemonConf}
    (h : Attempted forks a (daemon.restarted conf) (daemon.reconfigured conf) after) :
    daemon.Survives after := by
  rw [Attempted] at h
  split at h
  · rename_i hstarts
    obtain ⟨pid, -, rfl⟩ := h
    have hstopped : daemon.state = .stopped := by
      rw [Daemon.restarted, Bool.and_eq_true, decide_eq_true_eq] at hstarts
      exact hstarts.1
    cases pid with
    | none => exact ⟨rfl, Or.inl ⟨rfl, rfl⟩⟩
    | some pid => exact ⟨rfl, Or.inr ⟨hstopped, rfl⟩⟩
  · rw [h.2]
    exact ⟨rfl, Or.inl ⟨rfl, rfl⟩⟩

/-- Without a configuration to take, an old daemon is the same. -/
theorem Attempted.unchanged
    (h : Attempted forks a (daemon.restarted none) (daemon.reconfigured none) after) :
    after = daemon := by
  rw [Attempted, if_neg (by simp [Daemon.restarted])] at h
  exact h.2

/-- A daemon whose file is opened is kept. -/
theorem Reloaded.kept_opened (h : Reloaded host dir.read w w' forks) (ha : a ∈ w.daemons.toList)
    (hheap : w.heap a = some daemon) {filep : Stream} (hl : Listed dir.read daemon.name filep) :
    a ∈ w'.daemons.toList ∧ ∃ after, w'.heap a = some after ∧ daemon.Survives after ∧
      (¬ Configured host (some dir) daemon.name → after.conf = daemon.conf) := by
  obtain ⟨howned, after, hafter, hattempt⟩ := h.kept a ha daemon filep hheap hl
  refine ⟨howned, after, hafter, hattempt.survives, fun hnone => ?_⟩
  cases hconf : filep.conf host with
  | none =>
    rw [hconf] at hattempt
    rw [hattempt.unchanged]
  | some conf =>
    have hread : Configured host (some dir) daemon.name :=
      ⟨dir, filep, rfl, hl, Option.isSome_iff_exists.mpr ⟨conf, hconf⟩⟩
    exact absurd hread hnone

/-- A reload of a directory loses no daemon exactly when it opens their files. -/
theorem Reloaded.loses_iff (h : Reloaded host dir.read w w' forks) (hw : w.Invariant) :
    LosesNoDaemon host (some dir) w w' ↔
      ∀ a ∈ w.daemons.toList, StillThere (some dir) (w.name a) → Opened (some dir) (w.name a) := by
  constructor
  · intro hloses a ha hthere
    by_contra hclosed
    have hunlisted : ∀ filep, ¬ Listed dir.read (w.name a) filep := by
      intro filep hl
      apply hclosed
      intro dir' hdir
      cases hdir
      exact ⟨filep, hl⟩
    obtain ⟨daemon, hheap⟩ := (hw.owned.live a).mp (Or.inl ha)
    rw [Machine.name_eq hheap] at hthere
    obtain ⟨hkept, -⟩ := hloses.kept a ha daemon hheap hthere
    exact (h.destroyed a ha hunlisted).2.2.2.1 hkept
  · intro hopened
    constructor
    · intro a ha daemon hheap hthere
      rw [← Machine.name_eq hheap] at hthere
      obtain ⟨filep, hl⟩ := hopened a ha hthere dir rfl
      rw [Machine.name_eq hheap] at hl
      exact h.kept_opened ha hheap hl
    · intro a ha hfree hthere
      obtain ⟨filep, hl⟩ := hopened a ha hthere dir rfl
      exact h.spared a ha filep hl hfree

/-- A reload that does not open the directory loses no daemon. -/
theorem losesNoDaemon_none (host : Host) (hw : w.Invariant) : LosesNoDaemon host none w w := by
  constructor
  · intro a ha daemon hheap _
    exact ⟨ha, daemon, hheap, daemon.survives_refl, fun _ => rfl⟩
  · intro a ha hfree _
    obtain ⟨daemon, hheap⟩ := (hw.owned.live a).mp (Or.inl ha)
    rw [(hw.indexed.sound.freed a hfree).2] at hheap
    cases hheap

/-- What the accesses of a reload that may fail answer: the directory, and its entries that
are read. -/
def readEntries (dirp : Option Directory) : List DirEntry :=
  (dirp.map Directory.read).getD []

/-- A reload loses no daemon exactly when, once the directory is opened, every daemon that is
still there has its entry read and its file opened. -/
theorem losesNoDaemon_iff (host : Host) (dirp : Option Directory) (w : World)
    (hw : w.Invariant) :
    Outcome (Unreadable (readEntries dirp))
      (fun w' => LosesNoDaemon host dirp w w' ↔
        ∀ a ∈ w.daemons.toList, StillThere dirp (w.name a) → Opened dirp (w.name a))
      (configurationReload host dirp w) := by
  cases dirp with
  | none =>
    have hopened : ∀ name, Opened none name := by
      intro name dir hdir
      cases hdir
    exact iff_of_true (losesNoDaemon_none host hw) fun a _ _ => hopened _
  | some dir =>
    refine (configurationReload_merges host hw dir).mono ?_ fun _ ht => ht
    rintro w' ⟨-, forks, hreloaded⟩
    exact hreloaded.loses_iff hw

/-- The daemon `a` is started, then it is reloaded. -/
theorem losesNoDaemon_iff_reload :
    ∃ w, World.run bareHost loadBoot [] = .ok w ∧
      Outcome (Unreadable (readEntries (some (loadDirectory [[97]] (by decide)))))
        (fun w' => LosesNoDaemon bareHost (some (loadDirectory [[97]] (by decide))) w w' ↔
          ∀ a ∈ w.daemons.toList,
            StillThere (some (loadDirectory [[97]] (by decide))) (w.name a) →
            Opened (some (loadDirectory [[97]] (by decide))) (w.name a))
        (configurationReload bareHost (some (loadDirectory [[97]] (by decide))) w) := by
  obtain ⟨w, hw, hinv⟩ := loadBoot_run
  exact ⟨w, hw, losesNoDaemon_iff bareHost _ w hinv⟩

/-- A directory with the file `a`, which cannot be opened. -/
def closedDirectory : Directory where
  entries := [⟨[97], none⟩]
  distinct := by simp
  failure := none

/-- The daemon `a` is started, then a reload that cannot open its file destroys it. -/
theorem losesNoDaemon_openat_fails :
    ∃ w w', World.run bareHost loadBoot [] = .ok w ∧
      configurationReload bareHost (some closedDirectory) w = .ok w' ∧
      ¬ LosesNoDaemon bareHost (some closedDirectory) w w' := by
  have hrun : ((World.run bareHost loadBoot []).toOption.bind fun w =>
      (configurationReload bareHost (some closedDirectory) w).toOption.map fun w' =>
        (w.daemons.toList, w.name 0, w'.freed)) = some ([0], [97], [0]) := by decide
  obtain ⟨w, hw, hreload⟩ := Option.bind_eq_some_iff.mp hrun
  obtain ⟨w', hw', heq⟩ := Option.map_eq_some_iff.mp hreload
  injection heq with howned heq
  injection heq with hname hfreed
  refine ⟨w, w', ok_of_toOption hw, ok_of_toOption hw', fun hloses => ?_⟩
  apply hloses.gone 0
  · rw [howned]
    exact List.mem_singleton_self 0
  · rw [hfreed]
    exact List.mem_singleton_self 0
  · intro dir hdir
    cases hdir
    rw [hname]
    exact List.mem_singleton_self _

end Cyberd
