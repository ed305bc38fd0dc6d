import Cyberd.Daemon.Merge

/-!
# Loads, reloads and runs

The loops of `configuration.c` keep what every entry keeps, and the daemons that are left
in the old tree are destroyed. Every event then leads from a sound state to a sound one,
and so does every run from the entry of the program on.
-/

namespace Cyberd

open Library

variable {host : Host} {w : World} {s s' : TreeNode Addr × World} {entry : DirEntry}

/-- A trap of some of the files is one of all of them. -/
theorem Unreadable.mono {entries entries' : List DirEntry} {trap : Trap}
    (h : Unreadable entries trap) (hsub : ∀ entry ∈ entries, entry ∈ entries') :
    Unreadable entries' trap := by
  obtain ⟨htrap, entry, hentry, hfile⟩ := h
  exact ⟨htrap, entry, hsub entry hentry, hfile⟩

/-- A start changes no other daemon. -/
theorem Machine.start_heap_ne {m : Machine} {a b : Addr} (h : b ≠ a) :
    (m.start a).heap b = m.heap b := by
  cases ha : m.heap a with
  | none => simp [start, ha]
  | some daemon =>
    by_cases hs : daemon.state = .stopped
    · rw [start_stopped ha hs, write_heap, if_neg h, fork_heap]
    · rw [start_running ha hs]

/-- An entry changes no daemon of another name. -/
theorem MergeStep.frame (h : MergeStep host entry s s') (hs : s.2.Sound) {b : Addr}
    {daemon : Daemon} (hb : s.2.heap b = some daemon) (hname : daemon.name ≠ entry.name) :
    s'.2.heap b = some daemon := by
  cases h with
  | skipped => exact hb
  | rejected _ _ _ _ _ hm =>
    rw [hm, Machine.create_free_heap hs.next_none]
    exact hb
  | loaded _ _ _ _ _ hm =>
    have hne := (hs.fresh _ _ hb).ne
    rw [hm, Machine.load]
    split
    · rw [Machine.start_heap_ne hne, Machine.create_heap, if_neg hne]
      exact hb
    · rw [Machine.create_heap, if_neg hne]
      exact hb
  | kept _ _ _ _ _ _ _ hm =>
    rw [hm]
    exact hb
  | @reloaded _ _ _ _ _ a _ _ _ _ hheap hname' _ _ _ hm =>
    have hne : b ≠ a := by
      rintro rfl
      rw [hheap] at hb
      cases hb
      exact hname hname'
    rw [hm, Machine.reconfigure]
    split
    · rw [Machine.start_heap_ne hne, Machine.write_heap, if_neg hne]
      exact hb
    · rw [Machine.write_heap, if_neg hne]
      exact hb

/-- A daemon of the new tree was already there, or it has the name of the entry. -/
theorem MergeStep.named (h : MergeStep host entry s s') (hs : Merging s) (hs' : Merging s')
    (hnew : ∀ a ∈ s.2.daemons.toList, s.2.name a ≠ entry.name) :
    ∀ a ∈ s'.2.daemons.toList,
      s'.2.name a = entry.name ∨ a ∈ s.2.daemons.toList ∧ s'.2.name a = s.2.name a := by
  have hold : ∀ a ∈ s.2.daemons.toList,
      s'.2.name a = entry.name ∨ a ∈ s.2.daemons.toList ∧ s'.2.name a = s.2.name a := by
    intro a ha
    obtain ⟨daemon, hheap⟩ := (hs.owned.live a).mp (Or.inl ha)
    have hne : daemon.name ≠ entry.name := by
      rw [← Machine.name_eq hheap]
      exact hnew a ha
    refine Or.inr ⟨ha, ?_⟩
    rw [Machine.name_eq hheap, Machine.name_eq (h.frame hs.indexed.sound hheap hne)]
  intro a ha
  cases h with
  | skipped => exact hold a ha
  | rejected _ _ _ _ hdaemons _ =>
    rw [hdaemons] at ha
    exact hold a ha
  | @loaded _ _ w w' _ conf _ _ _ _ hdaemons hm =>
    rcases (hdaemons a).mp ha with rfl | ha
    · left
      change w'.name w.next = entry.name
      rw [hm, Machine.load_name]
    · exact hold a ha
  | kept _ _ hheap hname _ _ hdaemons hm =>
    rcases (hdaemons a).mp ha with rfl | ha
    · left
      rw [hm, Machine.name_eq hheap, hname]
    · exact hold a ha
  | @reloaded _ _ w w' _ b daemon conf _ _ hheap hname _ _ hdaemons hm =>
    rcases (hdaemons a).mp ha with rfl | ha
    · left
      change w'.name a = entry.name
      rw [hm, (Machine.sameNames_reconfigure hheap conf).name_eq, Machine.name_eq hheap, hname]
    · exact hold a ha

/-- One entry of a reload. -/
theorem configurationReloadEntry_ok (h : Merging s)
    (hnew : ∀ a ∈ s.2.daemons.toList, s.2.name a ≠ entry.name) :
    Outcome (Unreadable [entry]) (fun s' => Merging s' ∧ MergeStep host entry s s')
      (configurationReloadEntry host s entry) := by
  rw [configurationReloadEntry]
  by_cases hhidden : entry.hidden = true
  · rw [if_pos hhidden]
    exact ⟨h, .skipped (if_pos hhidden)⟩
  · rw [if_neg hhidden]
    cases hfile : entry.filep with
    | none => exact ⟨h, .skipped (by rw [DirEntry.stream, if_neg hhidden, hfile])⟩
    | some filep =>
      refine (configurationReloadDaemon_ok h ?_ hnew).mono (fun _ hs => hs) fun trap ht =>
        ⟨ht.1, entry, List.mem_singleton_self _, filep, hfile, ht.2⟩
      rw [DirEntry.stream, if_neg hhidden, hfile]

/-- One entry of a load. -/
theorem configurationLoadEntry_ok (h : w.Invariant)
    (hnew : ∀ a ∈ w.daemons.toList, w.name a ≠ entry.name) :
    Outcome (Unreadable [entry])
      (fun w' => w'.Invariant ∧ MergeStep host entry (.null, w) (.null, w'))
      (configurationLoadEntry host w entry) := by
  rw [configurationLoadEntry]
  by_cases hhidden : entry.hidden = true
  · rw [if_pos hhidden]
    exact ⟨h, .skipped (if_pos hhidden)⟩
  · rw [if_neg hhidden]
    cases hfile : entry.filep with
    | none => exact ⟨h, .skipped (by rw [DirEntry.stream, if_neg hhidden, hfile])⟩
    | some filep =>
      refine (configurationLoadDaemon_ok h ?_ hnew (by simp) (fun _ => Iff.rfl)
        TreeNode.wellFormed_null).mono (fun _ hs => hs) fun trap ht =>
        ⟨ht.1, entry, List.mem_singleton_self _, filep, hfile, ht.2⟩
      rw [DirEntry.stream, if_neg hhidden, hfile]

/-- The daemons of the new tree come from the entries that were gone through. -/
def NamedIn (entries : List DirEntry) (w : World) : Prop :=
  ∀ a ∈ w.daemons.toList, w.name a ∈ entries.map DirEntry.name

/-- The entries that were gone through do not list the name of the next one. -/
theorem NamedIn.ne {done rest : List DirEntry} (h : NamedIn done w)
    (hnodup : ((done ++ entry :: rest).map DirEntry.name).Nodup) :
    ∀ a ∈ w.daemons.toList, w.name a ≠ entry.name := by
  intro a ha heq
  rw [List.map_append, List.map_cons] at hnodup
  refine (List.nodup_append.mp hnodup).2.2 _ (h a ha) entry.name (List.mem_cons_self ..) heq

/-- An entry adds its own name. -/
theorem NamedIn.step {done : List DirEntry} (h : NamedIn done s.2)
    (hstep : MergeStep host entry s s') (hs : Merging s) (hs' : Merging s')
    (hnew : ∀ a ∈ s.2.daemons.toList, s.2.name a ≠ entry.name) :
    NamedIn (done ++ [entry]) s'.2 := by
  intro a ha
  rw [List.map_append, List.mem_append]
  rcases hstep.named hs hs' hnew a ha with hname | ⟨ha, hname⟩
  · exact Or.inr (by simp [hname])
  · exact Or.inl (hname ▸ h a ha)

/-- The loop of a reload keeps what each of its entries keeps. -/
theorem reloadEntries_ok (inv : List DirEntry → TreeNode Addr × World → Prop)
    {entries : List DirEntry} (hnodup : (entries.map DirEntry.name).Nodup) (h : w.Invariant)
    (hinit : inv [] (w.daemons, { w with daemons := .null }))
    (hstep : ∀ done entry rest s s', entries = done ++ entry :: rest → Merging s →
      NamedIn done s.2 → inv done s → MergeStep host entry s s' → Merging s' →
      inv (done ++ [entry]) s') :
    Outcome (Unreadable entries) (fun s => Merging s ∧ inv entries s)
      (entries.foldlM (configurationReloadEntry host)
        (w.daemons, { w with daemons := .null })) := by
  have hmerging : Merging (w.daemons, { w with daemons := .null }) :=
    ⟨h.indexed, TreeNode.wellFormed_null, h.owned.wellFormed, fun a ha => by simp at ha,
      fun a => by rw [← h.owned.live a, or_comm]⟩
  refine (Outcome.foldlM (fun done s => Merging s ∧ NamedIn done s.2 ∧ inv done s)
    ⟨hmerging, fun a ha => by simp at ha, hinit⟩ ?_).mono (fun s hs => ⟨hs.1, hs.2.2⟩)
    fun _ ht => ht
  rintro done entry rest s rfl ⟨hs, hnamed, hinv⟩
  have hnew := hnamed.ne hnodup
  refine (configurationReloadEntry_ok hs hnew).mono (fun s' hs' => ?_) fun _ ht =>
    ht.mono fun e he => by simp [List.mem_singleton.mp he]
  exact ⟨hs'.1, hnamed.step hs'.2 hs hs'.1 hnew,
    hstep done entry rest s s' rfl hs hnamed hinv hs'.2 hs'.1⟩

/-- The loop of a load keeps what each of its entries keeps. -/
theorem loadEntries_ok (inv : List DirEntry → World → Prop) {entries : List DirEntry}
    (hnodup : (entries.map DirEntry.name).Nodup) (h : w.Invariant) (hnull : w.daemons = .null)
    (hinit : inv [] w)
    (hstep : ∀ done entry rest w w', entries = done ++ entry :: rest → World.Invariant w →
      NamedIn done w → inv done w → MergeStep host entry (.null, w) (.null, w') →
      World.Invariant w' → inv (done ++ [entry]) w') :
    Outcome (Unreadable entries) (fun w' => w'.Invariant ∧ inv entries w')
      (entries.foldlM (configurationLoadEntry host) w) := by
  refine (Outcome.foldlM
    (fun done w => World.Invariant w ∧ NamedIn done w ∧ inv done w)
    ⟨h, fun a ha => by simp [hnull] at ha, hinit⟩ ?_).mono (fun s hs => ⟨hs.1, hs.2.2⟩)
    fun _ ht => ht
  rintro done entry rest w rfl ⟨hw, hnamed, hinv⟩
  have hnew := hnamed.ne hnodup
  refine (configurationLoadEntry_ok hw hnew).mono (fun w' hw' => ?_) fun _ ht =>
    ht.mono fun e he => by simp [List.mem_singleton.mp he]
  exact ⟨hw'.1, hnamed.step hw'.2 hw hw'.1 hnew,
    hstep done entry rest w w' rfl hw hnamed hinv hw'.2 hw'.1⟩

/-- The daemons in memory are those of the new tree, and the ones that are left to
destroy. -/
structure Dropping (w : World) (left : List Addr) : Prop where
  /-- The storage is the index of the daemons that run. -/
  indexed : Indexed w.toMachine w.spawns
  /-- The new tree is ordered by name. -/
  wellFormed : w.daemons.WellFormed strcmp w.name
  /-- No daemon is left twice. -/
  nodup : left.Nodup
  /-- No daemon of the new tree is left to destroy. -/
  apart : ∀ a ∈ w.daemons.toList, a ∉ left
  /-- All of them are in memory. -/
  live : ∀ a, (a ∈ w.daemons.toList ∨ a ∈ left) ↔ ∃ daemon, w.heap a = some daemon

/-- At first the whole old tree is left. -/
theorem Merging.dropping (h : Merging s) : Dropping s.2 s.1.preorder := by
  have hmem : ∀ a, a ∈ s.1.preorder ↔ a ∈ s.1.toList := fun a => s.1.preorder_perm.mem_iff
  refine ⟨h.indexed, h.owned.wellFormed, ?_, fun a ha hleft => ?_, fun a => ?_⟩
  · exact s.1.preorder_perm.nodup_iff.mpr h.owned.wellFormed_old.sorted.nodup
  · exact h.owned.apart a ha a ((hmem a).mp hleft) rfl
  · rw [hmem]
    exact h.owned.live a

/-- Once nothing is left, the new tree owns all of the daemons. -/
theorem Dropping.invariant (h : Dropping w []) : w.Invariant :=
  ⟨h.indexed, h.wellFormed, TreeNode.wellFormed_null, fun a _ b hb => by simp at hb, fun a => by
    rw [← h.live a]
    simp⟩

/-- A daemon that is left is destroyed. -/
theorem Dropping.destroy {a : Addr} {left : List Addr} (h : Dropping w (a :: left)) :
    ∃ spawns, daemonDestroy a w = .ok ⟨w.free a, w.daemons, spawns⟩ ∧
      Dropping ⟨w.free a, w.daemons, spawns⟩ left := by
  obtain ⟨daemon, ha⟩ := (h.live a).mp (Or.inr (List.mem_cons_self ..))
  obtain ⟨spawns, hdestroy, hindexed⟩ := daemonDestroy_ok h.indexed ha
  obtain ⟨hnot, hnodup⟩ := List.nodup_cons.mp h.nodup
  have hne : ∀ b ∈ w.daemons.toList, b ≠ a := fun b hb heq =>
    h.apart b hb (heq ▸ List.mem_cons_self ..)
  refine ⟨spawns, hdestroy, hindexed, h.wellFormed.congr fun b hb => ?_, hnodup,
    fun b hb hleft => h.apart b hb (List.mem_cons_of_mem _ hleft), fun b => ?_⟩
  · change (w.free a).name b = w.name b
    rw [Machine.name, Machine.name, Machine.free_heap, if_neg (hne b hb)]
  · change (b ∈ w.daemons.toList ∨ b ∈ left) ↔ ∃ daemon, (w.free a).heap b = some daemon
    rw [Machine.free_heap]
    by_cases hb : b = a
    · subst hb
      simp only [if_true, reduceCtorEq, exists_false, iff_false, not_or]
      exact ⟨fun hb => hne b hb rfl, hnot⟩
    · rw [if_neg hb, ← h.live b, List.mem_cons, or_iff_right hb]

/-- The daemons that are left are destroyed in order. -/
theorem destroyAll_ok (dropped left : List Addr) (h : Dropping w (dropped ++ left)) :
    ∃ spawns, dropped.foldlM (fun w a => daemonDestroy a w) w =
        .ok ⟨dropped.foldl Machine.free w.toMachine, w.daemons, spawns⟩ ∧
      Dropping ⟨dropped.foldl Machine.free w.toMachine, w.daemons, spawns⟩ left := by
  induction dropped generalizing w with
  | nil => exact ⟨w.spawns, rfl, h⟩
  | cons a dropped ih =>
    obtain ⟨spawns, hdestroy, hdropping⟩ := h.destroy
    obtain ⟨spawns', hrest, hdropping'⟩ := ih hdropping
    refine ⟨spawns', ?_, hdropping'⟩
    rw [List.foldlM_cons, hdestroy, except_bind_ok]
    exact hrest

/-- The entries that are read have different names. -/
theorem Directory.read_nodup (dir : Directory) : (dir.read.map DirEntry.name).Nodup := by
  rw [read]
  split
  · exact dir.distinct
  · exact dir.distinct.sublist ((List.take_sublist _ _).map _)

/-- An entry has another name than those before it. -/
theorem Directory.read_fresh (dir : Directory) {done rest : List DirEntry}
    (hread : dir.read = done ++ entry :: rest) : entry.name ∉ done.map DirEntry.name := by
  have hnodup := dir.read_nodup
  rw [hread, List.map_append, List.map_cons] at hnodup
  exact fun hmem => (List.nodup_append.mp hnodup).2.2 _ hmem _ (List.mem_cons_self ..) rfl

/-- A reload goes through its entries and destroys the daemons that are left. -/
theorem configurationReload_ok {dir : Directory}
    (inv : List DirEntry → TreeNode Addr × World → Prop) (h : w.Invariant)
    (hinit : inv [] (w.daemons, { w with daemons := .null }))
    (hstep : ∀ done entry rest s s', dir.read = done ++ entry :: rest → Merging s →
      NamedIn done s.2 → inv done s → MergeStep host entry s s' → Merging s' →
      inv (done ++ [entry]) s') :
    Outcome (Unreadable dir.read)
      (fun w' => w'.Invariant ∧ ∃ s, Merging s ∧ inv dir.read s ∧ w'.daemons = s.2.daemons ∧
        w'.toMachine = s.1.preorder.foldl Machine.free s.2.toMachine)
      (configurationReload host (some dir) w) := by
  refine (reloadEntries_ok inv dir.read_nodup h hinit hstep).bind fun s hs => ?_
  have hdropping := hs.1.dropping
  rw [← List.append_nil s.1.preorder] at hdropping
  obtain ⟨spawns, hdestroy, hdropped⟩ := destroyAll_ok _ _ hdropping
  simp only [treeMutate_eq]
  rw [hdestroy]
  exact ⟨hdropped.invariant, s, hs.1, hs.2, rfl, rfl⟩

/-- A command acts on the daemon of its name: it may start it, and otherwise leaves every
process as it is. -/
theorem command_ok (h : w.Invariant) (action : DaemonAction) (name : Name) :
    ∃ w', w.step host (.command action name) = .ok w' ∧ w'.Invariant ∧
      (w.SameProcesses w'.toMachine ∨
        ∃ a daemon, w.heap a = some daemon ∧ w'.toMachine = w.start a) := by
  have hread : w.readAll w.daemons.toList = .ok () :=
    Machine.readAll_ok fun a ha => (h.owned.live a).mp (Or.inl ha)
  simp only [World.step, configurationFind, hread, except_bind_ok, except_pure]
  cases hfind : treeFind strcmp w.name name w.daemons with
  | none => exact ⟨w, rfl, h, Or.inl (.refl _)⟩
  | some a =>
    obtain ⟨ha, -⟩ := (treeFind_key h.owned.wellFormed name a).mp hfind
    obtain ⟨daemon, hheap⟩ := (h.owned.live a).mp (Or.inl ha)
    cases action with
    | daemonStart =>
      obtain ⟨spawns, hstart, hindexed⟩ := daemonStart_ok h.indexed hheap
      exact ⟨_, hstart, ⟨hindexed, h.owned.congr (Machine.sameNames_start _ a)⟩,
        Or.inr ⟨a, daemon, hheap, rfl⟩⟩
    | daemonStop =>
      obtain ⟨m, hstop, hindexed, hsame⟩ := daemonStop_ok h.indexed hheap
      exact ⟨_, hstop, ⟨hindexed, h.owned.congr hsame.sameNames⟩, Or.inl hsame⟩
    | daemonReload =>
      obtain ⟨m, hreload, hindexed, hsame⟩ := daemonReload_ok h.indexed hheap
      exact ⟨_, hreload, ⟨hindexed, h.owned.congr hsame.sameNames⟩, Or.inl hsame⟩
    | daemonEnd =>
      obtain ⟨m, hend, hindexed, hsame⟩ := daemonEnd_ok h.indexed hheap
      exact ⟨_, hend, ⟨hindexed, h.owned.congr hsame.sameNames⟩, Or.inl hsame⟩

/-- Stopping the spawns leaves every process as it is. -/
theorem stop_ok (h : w.Invariant) :
    ∃ w', w.step host .stop = .ok w' ∧ w'.Invariant ∧ w.SameProcesses w'.toMachine := by
  obtain ⟨m, hstop, hindexed, hsame⟩ := spawnsStop_ok h.indexed
  exact ⟨_, hstop, ⟨hindexed, h.owned.congr hsame.sameNames⟩, hsame⟩

/-- The names of the daemons stay the same while children are reaped. -/
theorem sameNames_waitid {m m' : Machine} {pid : Int} (h : m.waitid pid = some m') :
    m.SameNames m' := by
  obtain ⟨-, rfl⟩ := Machine.waitid_some h
  exact fun _ => rfl

/-- The reaping of children keeps what the reaping of each one keeps. -/
theorem reap_ok (inv : Machine → Prop) (h : w.Invariant) (hinv : inv w.toMachine)
    (hstep : ∀ (m m' : Machine) info found, m.Sound → inv m → m.waitid info.pid = some m' →
      (∀ a, found = some a ↔ ∃ daemon, m.heap a = some daemon ∧ daemon.state ≠ .stopped ∧
        daemon.pid = info.pid) → inv (m'.reaped info found)) (infos : List Siginfo) :
    ∃ w', w.step host (.reap infos) = .ok w' ∧ w'.Invariant ∧ inv w'.toMachine := by
  obtain ⟨status, w', hreap, hw', hinv'⟩ := reapChildren_ok
    (fun w => World.Invariant w ∧ inv w.toMachine) (fun w hw => hw.1.indexed)
    (fun w m info found spawns hw hwait hfound hindexed =>
      ⟨⟨hindexed, hw.1.owned.congr
        ((sameNames_waitid hwait).trans (Machine.sameNames_reaped m info found))⟩,
        hstep _ m info found hw.1.indexed.sound hw.2 hwait hfound⟩) infos ⟨h, hinv⟩
  exact ⟨w', by rw [World.step, hreap]; rfl, hw', hinv'⟩

/-- An adopted process changes no daemon. -/
theorem adopt_ok (h : w.Invariant) (pid : Int) :
    World.Invariant { w with toMachine := w.adopt pid } := by
  have hheap : (w.adopt pid).heap = w.heap := by
    rw [Machine.adopt]
    split <;> rfl
  have hpid : (w.adopt pid).pid = w.pid := by
    funext a
    rw [Machine.pid, Machine.pid, hheap]
  refine ⟨h.indexed.congr (h.indexed.sound.adopt pid) hpid fun a => ?_, h.owned.congr fun a => ?_⟩
  · rw [Machine.Running, Machine.Running, hheap]
  · rw [hheap]

/-- The entry of the program is sound. -/
theorem Boot.world_invariant (boot : Boot) : boot.world.Invariant := by
  have hheap : ∀ a, boot.world.heap a = none := by
    have hadopt : ∀ (orphans : List Int) (m : Machine), (∀ a, m.heap a = none) →
        ∀ a, (orphans.foldl Machine.adopt m).heap a = none := by
      intro orphans
      induction orphans with
      | nil => exact fun m h => h
      | cons pid orphans ih =>
        refine fun m h => ih _ fun a => ?_
        rw [Machine.adopt]
        split <;> exact h a
    exact hadopt boot.orphans _ fun _ => rfl
  refine ⟨⟨Machine.setup_sound boot.stale boot.pids boot.orphans, TreeNode.wellFormed_null,
    fun a => ?_⟩, TreeNode.wellFormed_null, TreeNode.wellFormed_null, ?_, fun a => ?_⟩
  · simp only [Machine.Running, hheap]
    simp [Boot.world]
  · exact fun a ha => by simp [Boot.world] at ha
  · simp only [hheap]
    simp [Boot.world]

/-- The files that an event reads. -/
def Event.entries : Event → List DirEntry
  | .reload (some dir) => dir.read
  | _ => []

/-- Every event leads to a sound state. -/
theorem World.step_ok (h : w.Invariant) (event : Event) :
    Outcome (Unreadable event.entries) World.Invariant (w.step host event) := by
  cases event with
  | command action name =>
    obtain ⟨w', hw, hinv, -⟩ := command_ok h action name
    rw [hw]
    exact hinv
  | reap infos =>
    obtain ⟨w', hw, hinv, -⟩ :=
      reap_ok (fun _ => True) h trivial (fun _ _ _ _ _ _ _ _ => trivial) infos
    rw [hw]
    exact hinv
  | reload dirp =>
    cases dirp with
    | none => exact h
    | some dir =>
      exact (configurationReload_ok (fun _ _ => True) h trivial
        fun _ _ _ _ _ _ _ _ _ _ _ => trivial).mono (fun _ hw => hw.1) fun _ ht => ht
  | stop =>
    obtain ⟨w', hw, hinv, -⟩ := stop_ok h
    rw [hw]
    exact hinv
  | adopt pid => exact adopt_ok h pid

/-- The load at the entry of the program leads to a sound state. -/
theorem Boot.load_ok (host : Host) (boot : Boot) :
    Outcome (Unreadable ((boot.dirp.map Directory.read).getD [])) World.Invariant
      (configurationLoad host boot.dirp boot.world) := by
  cases hdirp : boot.dirp with
  | none => exact boot.world_invariant
  | some dir =>
    exact (loadEntries_ok (fun _ _ => True) dir.read_nodup boot.world_invariant rfl trivial
      fun _ _ _ _ _ _ _ _ _ _ _ => trivial).mono (fun _ hw => hw.1) fun _ ht => ht

/-- The files that a run reads. -/
def runEntries (boot : Boot) (events : List Event) : List DirEntry :=
  (boot.dirp.map Directory.read).getD [] ++ events.flatMap Event.entries

/-- What the load and every event keep in sound states, every run keeps. -/
theorem World.run_induction (inv : World → Prop) (host : Host) (boot : Boot) (events : List Event)
    (hload : Outcome (Unreadable ((boot.dirp.map Directory.read).getD [])) inv
      (configurationLoad host boot.dirp boot.world))
    (hstep : ∀ w, ∀ event ∈ events, World.Invariant w → inv w →
      Outcome (Unreadable event.entries) inv (w.step host event)) :
    Outcome (Unreadable (runEntries boot events)) (fun w => World.Invariant w ∧ inv w)
      (World.run host boot events) := by
  refine (((boot.load_ok host).and hload).mono (fun _ hw => hw) fun _ ht => ht.mono fun e he =>
    List.mem_append_left _ he).bind fun w hw => ?_
  refine Outcome.foldlM (fun _ w => World.Invariant w ∧ inv w) hw ?_
  rintro done event rest w rfl ⟨hw, hinv⟩
  have hmem : event ∈ done ++ event :: rest := List.mem_append_right _ List.mem_cons_self
  refine ((World.step_ok hw event).and (hstep w event hmem hw hinv)).mono (fun _ hw => hw)
    fun _ ht => ht.mono fun e he => ?_
  exact List.mem_append_right _ (List.mem_flatMap.mpr ⟨event, hmem, he⟩)

/-- Every run leads to a sound state, unless the parsing of a file leaves a line buffer. -/
theorem World.run_ok (host : Host) (boot : Boot) (events : List Event) :
    Outcome (Unreadable (runEntries boot events)) World.Invariant
      (World.run host boot events) := by
  have hrun := World.run_induction World.Invariant host boot events (boot.load_ok host)
    fun w event _ hw _ => World.step_ok hw event
  exact hrun.mono (fun w hw => hw.1) fun _ ht => ht

end Cyberd
