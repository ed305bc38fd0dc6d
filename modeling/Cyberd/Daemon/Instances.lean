import Cyberd.Daemon.Reload

/-!
# One process for each name

A daemon has one process, but a name may be the one of two daemons over time: a reload
drops a daemon whose file is gone without ending its process, which no daemon is left to
account for, and a later reload may create another daemon of the same name. As long as
no reload finds such a stray process, every name has at most one process.
-/

namespace Cyberd

open Library

/-- The name that a child was forked for. -/
def Child.name (child : Child) : Option Name := child.daemon.map Prod.snd

/-- The processes that were forked for a name and not waited for. -/
def Machine.instances (m : Machine) (name : Name) : List Child :=
  m.children.filter fun child => child.name = some name

/-- None of these files makes a new daemon of a name that still has a process. -/
def World.FindsNoStray (host : Host) (entries : List DirEntry) (w : World) : Prop :=
  ∀ name filep, Listed entries name filep → (filep.conf host).isSome →
    (∀ a ∈ w.daemons.toList, w.name a ≠ name) → ∀ child ∈ w.children, child.name ≠ some name

/-- The processes of a name are those of its daemon, and there is at most one. -/
structure Machine.Sole (m : Machine) : Prop where
  /-- A process of the name of a daemon is its process. -/
  owner : ∀ child ∈ m.children, ∀ a daemon, m.heap a = some daemon →
    child.name = some daemon.name → daemon.state ≠ .stopped ∧ daemon.pid = child.pid
  /-- Two processes of one name are the same. -/
  single : ∀ child ∈ m.children, ∀ child' ∈ m.children, ∀ name, child.name = some name →
    child'.name = some name → child = child'

/-- Daemons have different names. -/
def Machine.Distinct (m : Machine) : Prop :=
  ∀ a b daemon daemon', m.heap a = some daemon → m.heap b = some daemon' →
    daemon.name = daemon'.name → a = b

section Effects

variable {m m' : Machine} {a : Addr} {daemon : Daemon}

/-- Owned daemons have different names. -/
theorem Owned.distinct {new old : TreeNode Addr} (h : Owned m new old) : m.Distinct := by
  intro a b daemon daemon' ha hb hname
  have hkey : m.name a = m.name b := by rw [Machine.name_eq ha, Machine.name_eq hb, hname]
  rcases (h.live a).mpr ⟨daemon, ha⟩ with ha | ha <;>
    rcases (h.live b).mpr ⟨daemon', hb⟩ with hb | hb
  · exact h.wellFormed.eq_of_key ha hb hkey
  · exact absurd hkey (h.apart a ha b hb)
  · exact absurd hkey.symm (h.apart b hb a ha)
  · exact h.wellFormed_old.eq_of_key ha hb hkey

/-- Daemons with the same names are still different. -/
theorem Machine.SameNames.distinct (h : m.SameNames m') (hd : m.Distinct) : m'.Distinct := by
  intro a b daemon daemon' ha hb hname
  obtain ⟨d, hda⟩ := (h.live a).mp ⟨daemon, ha⟩
  obtain ⟨d', hdb⟩ := (h.live b).mp ⟨daemon', hb⟩
  refine hd a b d d' hda hdb ?_
  have hsame := h.name_eq
  rw [← Machine.name_eq hda, ← Machine.name_eq hdb, ← hsame, Machine.name_eq ha,
    Machine.name_eq hb, hname]

/-- Fewer daemons and fewer processes are as well accounted for. -/
theorem Machine.Sole.subset (h : m.Sole) (hchildren : ∀ child ∈ m'.children, child ∈ m.children)
    (hheap : ∀ a daemon, m'.heap a = some daemon → m.heap a = some daemon) : m'.Sole :=
  ⟨fun c hc a d hd => h.owner c (hchildren c hc) a d (hheap a d hd),
    fun c hc c' hc' => h.single c (hchildren c hc) c' (hchildren c' hc')⟩

/-- Daemons with the same processes are as well accounted for. -/
theorem Machine.Sole.same (h : m.Sole) (hs : m.SameProcesses m') : m'.Sole := by
  refine ⟨fun c hc a d hd hname => ?_, fun c hc c' hc' => ?_⟩
  · rw [hs.children] at hc
    obtain ⟨d', hd', hn, hp, hstate⟩ := hs.heap hd
    have howner := h.owner c hc a d' hd' (by rw [hn]; exact hname)
    exact ⟨hstate.not.mp howner.1, hp.symm.trans howner.2⟩
  · rw [hs.children] at hc hc'
    exact h.single c hc c' hc'

/-- A stopped daemon has no process of its name, so that its start makes the only one. -/
theorem Machine.Sole.start (h : m.Sole) (hd : m.Distinct) (ha : m.heap a = some daemon) :
    (m.start a).Sole := by
  by_cases hs : daemon.state = .stopped
  swap
  · rw [Machine.start_running ha hs]
    exact h
  rw [Machine.start_stopped ha hs]
  have hidle : ∀ child ∈ m.children, child.name ≠ some daemon.name :=
    fun child hc hname => (h.owner child hc a daemon ha hname).1 hs
  have hnew : ∀ child : Child, child.daemon = some (a, daemon.name) →
      child.name = some daemon.name := fun child hc => by rw [Child.name, hc, Option.map_some]
  refine ⟨fun child hc b d hb hname => ?_, fun child hc child' hc' name hname hname' => ?_⟩
  · rw [Machine.write_heap] at hb
    rcases Machine.mem_fork.mp hc with ⟨hf, hc⟩ | hold
    · rw [hnew child hc, Option.some.injEq] at hname
      have hba : b = a := by
        by_contra hne
        rw [if_neg hne] at hb
        exact hne (hd b a d daemon hb ha hname.symm)
      rw [if_pos hba, hf] at hb
      cases hb
      exact ⟨by simp [Daemon.spawned], rfl⟩
    · by_cases hba : b = a
      · rw [if_pos hba] at hb
        cases hb
        rw [Machine.spawned_name] at hname
        exact absurd hname (hidle child hold)
      · rw [if_neg hba] at hb
        exact h.owner child hold b d hb hname
  · rcases Machine.mem_fork.mp hc with ⟨hf, hc⟩ | hold <;>
      rcases Machine.mem_fork.mp hc' with ⟨hf', hc'⟩ | hold'
    · obtain ⟨pid, owner⟩ := child
      obtain ⟨pid', owner'⟩ := child'
      simp only at hc hc' hf hf'
      rw [hf, Option.some.injEq] at hf'
      rw [hc, hc', hf']
    · rw [hnew child hc] at hname
      rw [← hname] at hname'
      exact absurd hname' (hidle child' hold')
    · rw [hnew child' hc'] at hname'
      rw [← hname'] at hname
      exact absurd hname (hidle child hold)
    · exact h.single child hold child' hold' name hname hname'

/-- A daemon that was reaped has no process left of its name. -/
theorem Machine.Sole.reaped (h : m.Sole) (hd : m.Distinct) {info : Siginfo} {found : Option Addr}
    (hw : m.waitid info.pid = some m')
    (hfound : ∀ a, found = some a ↔ ∃ daemon, m.heap a = some daemon ∧ daemon.state ≠ .stopped ∧
      daemon.pid = info.pid) : (m'.reaped info found).Sole := by
  have hchildren : ∀ child, child ∈ m'.children ↔ child ∈ m.children ∧ child.pid ≠ info.pid :=
    fun child => Machine.mem_waitid hw
  have hheap : m'.heap = m.heap := by rw [(Machine.waitid_some hw).2]
  have hwait : m'.Sole := h.subset (fun c hc => ((hchildren c).mp hc).1)
    fun a d ha => by rw [← hheap, ha]
  cases found with
  | none => exact hwait
  | some a =>
    obtain ⟨daemon, ha, hs, hpid⟩ := (hfound a).mp rfl
    have ha' : m'.heap a = some daemon := by rw [hheap, ha]
    have hsame : m.SameNames (m'.write a { daemon with state := .stopped }) :=
      (sameNames_waitid hw).trans (Machine.sameNames_write ha' rfl)
    have hstop : (m'.write a { daemon with state := .stopped }).Sole := by
      refine ⟨fun child hc b d hb hname => ?_, hwait.single⟩
      rw [Machine.write_heap] at hb
      by_cases hba : b = a
      · rw [if_pos hba] at hb
        cases hb
        obtain ⟨hold, hne⟩ := (hchildren child).mp hc
        exact absurd ((h.owner child hold a daemon ha hname).2.symm.trans hpid) hne
      · rw [if_neg hba] at hb
        exact hwait.owner child hc b d hb hname
    rw [Machine.reaped_some info ha']
    split
    · exact hstop.start (hsame.distinct hd) (if_pos rfl)
    · exact hstop

/-- A daemon can be created for a name that has no process. -/
theorem Machine.Sole.create (h : m.Sole) {name : Name} (conf : DaemonConf)
    (hnone : ∀ child ∈ m.children, child.name ≠ some name) : (m.create name conf).Sole := by
  refine ⟨fun child hc b d hb hname => ?_, h.single⟩
  rw [Machine.create_heap] at hb
  split at hb
  · cases hb
    exact absurd hname (hnone child hc)
  · exact h.owner child hc b d hb hname

/-- An adopted process has no name. -/
theorem Machine.Sole.adopt (h : m.Sole) (pid : Int) : (m.adopt pid).Sole := by
  rw [Machine.adopt]
  split
  swap
  · exact h
  refine ⟨fun child hc a d ha hname => ?_, fun child hc child' hc' name hname hname' => ?_⟩
  · rcases List.mem_cons.mp hc with rfl | hc
    · cases hname
    · exact h.owner child hc a d ha hname
  · rcases List.mem_cons.mp hc with rfl | hc
    · cases hname
    · rcases List.mem_cons.mp hc' with rfl | hc'
      · cases hname'
      · exact h.single child hc child' hc' name hname hname'

/-- Every name has at most one process. -/
theorem Machine.Sole.instances (h : m.Sole) (hs : m.Sound) (name : Name) :
    (m.instances name).length ≤ 1 := by
  have hnodup : (m.instances name).Nodup := (hs.pids.of_map _).filter _
  have hmem : ∀ child ∈ m.instances name, child ∈ m.children ∧ child.name = some name :=
    fun child hc => by simpa [Machine.instances] using hc
  rcases hl : m.instances name with _ | ⟨child, _ | ⟨child', rest⟩⟩
  · simp
  · simp
  · rw [hl] at hnodup hmem
    obtain ⟨hc, hn⟩ := hmem child (by simp)
    obtain ⟨hc', hn'⟩ := hmem child' (by simp)
    rw [h.single child hc child' hc' name hn hn'] at hnodup
    simp at hnodup

end Effects

section Loop

variable {host : Host} {w : World} {done rest : List DirEntry} {entry : DirEntry}
variable {s s' : TreeNode Addr × World} {forks : List Fork}

/-- An entry may make a new daemon of a name that has no process. -/
theorem MergeStep.sole (hstep : MergeStep host entry s s') (hs : Merging s) (hs' : Merging s')
    (h : s.2.Sole)
    (hnone : ∀ filep, entry.stream = some filep → (filep.conf host).isSome →
      (∀ a ∈ s.1.toList, s.2.name a ≠ entry.name) →
      ∀ child ∈ s.2.children, child.name ≠ some entry.name) : s'.2.Sole := by
  cases hstep with
  | skipped => exact h
  | rejected _ _ _ _ _ hm =>
    rw [hm]
    refine h.subset (fun c hc => hc) fun a d ha => ?_
    rw [Machine.create_free_heap hs.indexed.sound.next_none] at ha
    exact ha
  | @loaded _ _ w₁ _ filep conf hstream hnew hconf _ _ hm =>
    have hcreate := h.create conf (hnone filep hstream (by rw [hconf]; rfl) hnew)
    have hdistinct := hs'.owned.distinct
    simp only [hm] at hdistinct ⊢
    have hsame : (w₁.load entry.name conf).SameNames (w₁.create entry.name conf) :=
      fun a => (w₁.sameNames_load entry.name conf a).symm
    rw [Machine.load] at hsame hdistinct ⊢
    split
    · exact hcreate.start (hsame.distinct hdistinct) ((w₁.create_heap _ _ _).trans (if_pos rfl))
    · exact hcreate
  | kept _ _ _ _ _ _ _ hm =>
    rw [hm]
    exact h
  | @reloaded _ _ w₁ _ _ a daemon conf _ _ hheap _ _ _ _ hm =>
    have hwrite : (w₁.write a { daemon with conf := conf }).Sole :=
      h.same (Machine.sameProcesses_write hheap rfl rfl Iff.rfl)
    have hsame : w₁.SameNames (w₁.write a { daemon with conf := conf }) :=
      Machine.sameNames_write hheap rfl
    rw [hm, Machine.reconfigure]
    split
    · exact hwrite.start (hsame.distinct hs.owned.distinct) (if_pos rfl)
    · exact hwrite

/-- During a reload, a new daemon has a name without a process: those that were forked
meanwhile are for the entries before. -/
theorem MergedUpTo.findsNoStray (h : MergedUpTo host w done s forks)
    (hstray : w.FindsNoStray host (done ++ entry :: rest))
    (hdone : entry.name ∉ done.map DirEntry.name) {filep : Stream}
    (hstream : entry.stream = some filep) (hconf : (filep.conf host).isSome)
    (hnew : ∀ a ∈ s.1.toList, s.2.name a ≠ entry.name) :
    ∀ child ∈ s.2.children, child.name ≠ some entry.name := by
  intro child hc hname
  rcases (h.children child).mp hc with hc | ⟨f, hf, -, hdaemon⟩
  · refine hstray entry.name filep ⟨entry, by simp, rfl, hstream⟩ hconf (fun a ha heq => ?_)
      child hc hname
    have hleft : a ∈ s.1.toList := (h.left a).mpr ⟨ha, fun filep' ⟨e, he, hen, _⟩ =>
      hdone (List.mem_map.mpr ⟨e, he, hen.trans heq⟩)⟩
    refine hnew a hleft ?_
    rw [Machine.name, (h.untouched a hleft).1]
    exact heq
  · rw [Child.name, hdaemon, Option.map_some, Option.some.injEq] at hname
    exact hdone (hname ▸ h.named f hf)

/-- Every entry of a load or of a reload keeps one process for each name. -/
theorem MergeStep.soleUpTo (hstep : MergeStep host entry s s') (hs : Merging s) (hs' : Merging s')
    (hstray : w.FindsNoStray host (done ++ entry :: rest))
    (hdone : entry.name ∉ done.map DirEntry.name)
    (h : (∃ forks, MergedUpTo host w done s forks) ∧ s.2.Sole) :
    (∃ forks, MergedUpTo host w (done ++ [entry]) s' forks) ∧ s'.2.Sole := by
  obtain ⟨⟨forks, hmerged⟩, hsole⟩ := h
  exact ⟨hstep.mergedUpTo hs hmerged hdone, hstep.sole hs hs' hsole fun filep hstream hconf hnew =>
    hmerged.findsNoStray hstray hdone hstream hconf hnew⟩

end Loop

section Runs

variable {host : Host} {w : World}

/-- A reload that finds no stray process keeps one process for each name. -/
theorem configurationReload_sole {dir : Directory} (h : w.Invariant) (hsole : w.Sole)
    (hstray : w.FindsNoStray host dir.read) :
    Outcome (Unreadable dir.read) (fun w' => w'.Invariant ∧ w'.Sole)
      (configurationReload host (some dir) w) := by
  refine (configurationReload_ok
    (fun done s => (∃ forks, MergedUpTo host w done s forks) ∧ s.2.Sole) h
    ⟨⟨[], mergedUpTo_nil host w⟩, hsole⟩ ?_).mono ?_ fun _ ht => ht
  · intro done entry rest s s' hread hs _ hinv hstep hs'
    exact hstep.soleUpTo hs hs' (hread ▸ hstray) (dir.read_fresh hread) hinv
  · rintro w' ⟨hw', s, hs, ⟨-, hsole'⟩, -, hm⟩
    obtain ⟨hheap, -, -, -, hchildren⟩ := foldl_free s.1.preorder s.2.toMachine
    rw [← hm] at hheap hchildren
    refine ⟨hw', hsole'.subset (fun c hc => hchildren ▸ hc) fun a daemon ha => ?_⟩
    rw [hheap] at ha
    split at ha
    · cases ha
    · exact ha

/-- No child of the entry of the program has a name. -/
theorem Boot.world_children (boot : Boot) : ∀ child ∈ boot.world.children, child.name = none := by
  have hadopt : ∀ (orphans : List Int) (m : Machine), (∀ child ∈ m.children, child.name = none) →
      ∀ child ∈ (orphans.foldl Machine.adopt m).children, child.name = none := by
    intro orphans
    induction orphans with
    | nil => exact fun m h => h
    | cons pid orphans ih =>
      refine fun m h => ih _ fun child hc => ?_
      rw [Machine.adopt] at hc
      split at hc
      · rcases List.mem_cons.mp hc with rfl | hc
        · rfl
        · exact h child hc
      · exact h child hc
  exact hadopt boot.orphans _ fun child hc => by cases hc

/-- The load at the entry of the program starts one process for each name. -/
theorem Boot.load_sole (host : Host) (boot : Boot) :
    Outcome (Unreadable ((boot.dirp.map Directory.read).getD []))
      (fun w => w.Invariant ∧ w.Sole) (configurationLoad host boot.dirp boot.world) := by
  have hsole : boot.world.Sole :=
    ⟨fun c hc a d _ hname => by simp [boot.world_children c hc] at hname,
      fun c hc c' _ name hname => by simp [boot.world_children c hc] at hname⟩
  cases hdirp : boot.dirp with
  | none => exact ⟨boot.world_invariant, hsole⟩
  | some dir =>
    have hstray : boot.world.FindsNoStray host dir.read := fun name _ _ _ _ child hc => by
      simp [boot.world_children child hc]
    refine (loadEntries_ok
      (fun done w => (∃ forks, MergedUpTo host boot.world done (.null, w) forks) ∧ w.Sole)
      dir.read_nodup boot.world_invariant rfl ⟨⟨[], mergedUpTo_nil host boot.world⟩, hsole⟩
      ?_).mono (fun w hw => ⟨hw.1, hw.2.2⟩) fun _ ht => ht
    intro done entry rest w w' hread hw _ hinv hstep hw'
    exact hstep.soleUpTo hw hw' (hread ▸ hstray) (dir.read_fresh hread) hinv

/-- An event that finds no stray process keeps one process for each name. -/
theorem World.step_sole (h : w.Invariant) (hsole : w.Sole) (event : Event)
    (hstray : w.FindsNoStray host event.entries) :
    Outcome (Unreadable event.entries) (fun w' => w'.Invariant ∧ w'.Sole) (w.step host event) := by
  cases event with
  | command action name =>
    obtain ⟨w', hw, hinv, hsame | ⟨a, daemon, hheap, hstart⟩⟩ := command_ok h action name
    · rw [hw]
      exact ⟨hinv, hsole.same hsame⟩
    · rw [hw]
      exact ⟨hinv, hstart ▸ hsole.start h.owned.distinct hheap⟩
  | reap infos =>
    obtain ⟨w', hw, hinv, hsole', -⟩ := reap_ok (fun m => m.Sole ∧ m.Distinct) h
      ⟨hsole, h.owned.distinct⟩ (fun m m' info found _ hm hwait hfound =>
        ⟨hm.1.reaped hm.2 hwait hfound,
          ((sameNames_waitid hwait).trans (Machine.sameNames_reaped m' info found)).distinct
            hm.2⟩) infos
    rw [hw]
    exact ⟨hinv, hsole'⟩
  | reload dirp =>
    cases dirp with
    | none => exact ⟨h, hsole⟩
    | some dir => exact configurationReload_sole h hsole hstray
  | stop =>
    obtain ⟨w', hw, hinv, hsame⟩ := stop_ok h
    rw [hw]
    exact ⟨hinv, hsole.same hsame⟩
  | adopt pid => exact ⟨adopt_ok h pid, hsole.adopt pid⟩

/-- Every name has at most one process in every run whose reloads find no stray process. -/
theorem instances_over_runs (host : Host) (boot : Boot) (events : List Event)
    (hstray : ∀ earlier event later w, events = earlier ++ event :: later →
      World.run host boot earlier = .ok w → w.FindsNoStray host event.entries) :
    Outcome (Unreadable (runEntries boot events))
      (fun w => ∀ name, (w.instances name).length ≤ 1) (World.run host boot events) := by
  have hloop : Outcome (Unreadable (runEntries boot events)) (fun w => World.Invariant w ∧ w.Sole)
      (World.run host boot events) := by
    refine ((boot.load_sole host).result.mono (fun _ hw => hw) fun _ ht => ht.mono fun e he =>
      List.mem_append_left _ he).bind fun w₀ hw₀ => ?_
    have hrun : ∀ done, World.run host boot done = done.foldlM (World.step host) w₀ := by
      intro done
      rw [World.run, hw₀.1, except_bind_ok]
    apply Outcome.foldlM_reached (fun _ w => World.Invariant w ∧ w.Sole) hw₀.2
    rintro done event rest w rfl hdone ⟨hinv, hsole⟩
    have hevent := hstray done event rest w rfl ((hrun done).trans hdone)
    apply (World.step_sole hinv hsole event hevent).mono (fun _ hw' => hw')
    intro trap ht
    apply ht.mono
    intro e he
    apply List.mem_append_right
    exact List.mem_flatMap.mpr ⟨event, List.mem_append_right _ List.mem_cons_self, he⟩
  exact hloop.mono (fun w hw name => hw.2.instances hw.1.indexed.sound name) fun _ ht => ht

/-- The file of `a` is removed, and added again after some events. -/
def removedAndAdded (between : List Event) : List Event :=
  .reload (some (loadDirectory [] List.nodup_nil)) ::
    (between ++ [.reload (some (loadDirectory [[97]] loadNames_nodup))])

/-- Without an event in between, the process of the dropped daemon still runs when a second
one is started under its name. -/
theorem instances_two :
    (World.run bareHost loadBoot (removedAndAdded [])).toOption.map
      (fun w => (w.instances [97]).length) = some 2 := by
  decide

/-- Once the process of the dropped daemon is reaped, no other one has its name. -/
theorem instances_over_runs_reaped :
    Outcome (Unreadable (runEntries loadBoot (removedAndAdded [.reap [⟨5, .exited, 0⟩]])))
      (fun w => ∀ name, (w.instances name).length ≤ 1)
      (World.run bareHost loadBoot (removedAndAdded [.reap [⟨5, .exited, 0⟩]])) := by
  refine instances_over_runs bareHost loadBoot _ fun earlier event later w heq hrun => ?_
  rcases earlier with _ | ⟨e₁, _ | ⟨e₂, _ | ⟨e₃, earlier⟩⟩⟩
  · cases heq
    rintro name filep ⟨entry, he, -⟩
    cases he
  · cases heq
    rintro name filep ⟨entry, he, -⟩
    cases he
  · cases heq
    have hchildren : (World.run bareHost loadBoot [.reload (some (loadDirectory [] List.nodup_nil)),
        .reap [⟨5, .exited, 0⟩]]).toOption.map (fun w => w.children) = some [] := by decide
    rw [hrun] at hchildren
    have hnone : w.children = [] := Option.some.inj hchildren
    intro name filep _ _ _ child hc
    rw [hnone] at hc
    cases hc
  · simp [removedAndAdded] at heq

end Runs

end Cyberd
