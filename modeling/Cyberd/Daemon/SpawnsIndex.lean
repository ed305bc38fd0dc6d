import Cyberd.Daemon.Run

/-!
# The spawns storage over runs

In every state of every run the spawns storage holds exactly the daemons of the
configuration that are not stopped, by their pids. The storage is never asked to record a
pid it already has, and it holds no daemon that was destroyed.
-/

namespace Cyberd

open Library

/-- The spawns storage indexes these daemons, which are all there are. -/
structure World.SpawnsIndex (w : World) (owned : List Addr) : Prop where
  /-- A daemon is owned once. -/
  owned_nodup : owned.Nodup
  /-- The owned daemons are those in memory. -/
  live : ∀ a, a ∈ owned ↔ ∃ daemon, w.heap a = some daemon
  /-- The storage holds those that are not stopped. -/
  mem : ∀ a, a ∈ w.spawns.toList ↔
    a ∈ owned ∧ ∃ daemon, w.heap a = some daemon ∧ daemon.state ≠ .stopped
  /-- It holds each of them once. -/
  nodup : w.spawns.toList.Nodup
  /-- It is ordered by their pids. -/
  ordered : w.spawns.toList.Pairwise fun a b => w.pid a < w.pid b
  /-- Their pids are all different. -/
  pids : (w.spawns.toList.map w.pid).Nodup
  /-- Their pids are positive, so that their differences do not overflow. -/
  range : ∀ a ∈ w.spawns.toList, 0 < w.pid a ∧ w.pid a < 2 ^ 31
  /-- A destroyed daemon is not in the storage. -/
  freed : ∀ a ∈ w.freed, a ∉ w.spawns.toList
  /-- The daemon that runs as a process is retrieved by its pid. -/
  retrieve : ∀ pid, ∃ found w', spawnsRetrieve pid w = .ok (found, w') ∧
    ∀ a, found = some a ↔ a ∈ owned ∧
      ∃ daemon, w.heap a = some daemon ∧ daemon.state ≠ .stopped ∧ daemon.pid = pid

/-- The storage is right between two events, and at each step of a reload: after every
prefix of the entries, and after every prefix of the daemons to destroy then. -/
structure World.IndexedThroughout (host : Host) (w : World) : Prop where
  /-- Between two events, for the daemons of the configuration. -/
  between : w.SpawnsIndex w.daemons.toList
  /-- During a reload, for the daemons of both trees. -/
  reloading : ∀ (dir : Directory) (count : Nat), Outcome (Unreadable dir.read)
    (fun s => s.2.SpawnsIndex (s.2.daemons.toList ++ s.1.toList) ∧
      ∀ count', ∃ w', (s.1.preorder.take count').foldlM (fun w a => daemonDestroy a w) s.2 =
        .ok w' ∧ w'.SpawnsIndex (w'.daemons.toList ++ s.1.preorder.drop count'))
    ((dir.read.take count).foldlM (configurationReloadEntry host)
      (w.daemons, { w with daemons := .null }))

variable {host : Host} {w : World} {s : TreeNode Addr × World}

/-- An index is one of any list of all the daemons. -/
theorem Indexed.spawnsIndex (h : Indexed w.toMachine w.spawns) {owned : List Addr}
    (hnodup : owned.Nodup) (hlive : ∀ a, a ∈ owned ↔ ∃ daemon, w.heap a = some daemon) :
    w.SpawnsIndex owned := by
  have howned : ∀ {a daemon}, w.heap a = some daemon → a ∈ owned :=
    fun hheap => (hlive _).mpr ⟨_, hheap⟩
  refine
    { owned_nodup := hnodup
      live := hlive
      mem := fun a => ?_
      nodup := h.wellFormed.sorted.nodup
      ordered := h.wellFormed.sorted.imp fun {a b} hlt => ?_
      pids := h.wellFormed.nodup_map
      range := fun a ha => ?_
      freed := fun a ha hmem => ?_
      retrieve := fun pid => ?_ }
  · rw [h.mem]
    exact ⟨fun hrun => ⟨howned hrun.choose_spec.1, hrun⟩, fun hrun => hrun.2⟩
  · unfold compareBySub at hlt
    omega
  · obtain ⟨daemon, hheap, hs⟩ := (h.mem a).mp ha
    rw [Machine.pid_eq hheap]
    exact (h.sound.running_pid hheap hs).1
  · obtain ⟨daemon, hheap, -⟩ := (h.mem a).mp hmem
    rw [(h.sound.freed a ha).2] at hheap
    cases hheap
  · obtain ⟨found, spawns, hret, -, hfound, -⟩ :=
      spawnsRetrieve_ok h.readAll h.wellFormed pid
    refine ⟨found, _, hret, fun a => ?_⟩
    rw [hfound, h.found_iff]
    refine ⟨fun hd => ⟨?_, hd⟩, fun hd => hd.2⟩
    obtain ⟨daemon, hheap, -⟩ := hd
    exact howned hheap

/-- The daemons of both trees of a reload are indexed. -/
theorem Merging.spawnsIndex (h : Merging s) :
    s.2.SpawnsIndex (s.2.daemons.toList ++ s.1.toList) := by
  refine h.indexed.spawnsIndex (List.nodup_append.mpr ⟨h.owned.wellFormed.sorted.nodup,
    h.owned.wellFormed_old.sorted.nodup, fun a ha b hb heq => ?_⟩) fun a => ?_
  · exact h.owned.apart a ha b hb (heq ▸ rfl)
  · rw [List.mem_append, h.owned.live]

/-- The daemons of the new tree and those left to destroy are indexed. -/
theorem Dropping.spawnsIndex {left : List Addr} (h : Dropping w left) :
    w.SpawnsIndex (w.daemons.toList ++ left) := by
  refine h.indexed.spawnsIndex (List.nodup_append.mpr ⟨h.wellFormed.sorted.nodup, h.nodup,
    fun a ha b hb heq => h.apart a ha (heq ▸ hb)⟩) fun a => ?_
  rw [List.mem_append, h.live]

/-- A sound state is indexed, and stays so during a reload. -/
theorem World.Invariant.indexedThroughout (h : w.Invariant) : w.IndexedThroughout host := by
  refine ⟨by simpa using h.spawnsIndex, fun dir count => ?_⟩
  have hnodup : ((dir.read.take count).map DirEntry.name).Nodup :=
    dir.read_nodup.sublist ((List.take_sublist _ _).map _)
  refine (reloadEntries_ok (fun _ _ => True) hnodup h trivial
    fun _ _ _ _ _ _ _ _ _ _ _ => trivial).mono (fun s hs => ⟨hs.1.spawnsIndex, fun count' => ?_⟩)
    fun _ ht => ht.mono fun e he => List.mem_of_mem_take he
  have hdropping := hs.1.dropping
  rw [← List.take_append_drop count' s.1.preorder] at hdropping
  obtain ⟨spawns, hdestroy, hdropped⟩ := destroyAll_ok _ _ hdropping
  exact ⟨_, hdestroy, hdropped.spawnsIndex⟩

/-- In every run the spawns storage is the index of the daemons that are not stopped, and
no function stops the program: only the parsing of a file may leave its line buffer. -/
theorem spawns_indexed_over_runs (host : Host) (boot : Boot) (events : List Event) :
    Outcome (Unreadable (runEntries boot events)) (World.IndexedThroughout host)
      (World.run host boot events) :=
  (World.run_ok host boot events).mono (fun _ h => h.indexedThroughout) fun _ ht => ht

end Cyberd
