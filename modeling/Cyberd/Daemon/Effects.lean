import Cyberd.Daemon.Spawns

/-!
# Effects on daemons and processes

What the life of a daemon does to the memory and to the processes, without the spawns
storage: a daemon has one process while it is not stopped, and none when it is. The
storage is only needed to find a daemon by its pid.
-/

namespace Cyberd

open Library

/-- The name of a daemon, its pid, and whether it is stopped. -/
def Daemon.process (daemon : Daemon) : Name × Int × Prop :=
  (daemon.name, daemon.pid, daemon.state = .stopped)

namespace Machine

/-- The start of a daemon. -/
def start (m : Machine) (a : Addr) : Machine :=
  match m.heap a with
  | some daemon =>
    if daemon.state = .stopped then
      (m.fork a daemon.name).write a (daemon.spawned m.forked)
    else m
  | none => m

/-- The end of the process of a daemon, or of an orphan. -/
def reaped (m : Machine) (info : Siginfo) : Option Addr → Machine
  | none => m
  | some a =>
    match m.heap a with
    | some daemon =>
      let m := m.write a { daemon with state := .stopped }
      if info.restarts daemon.conf.start then m.start a else m
    | none => m

/-- The daemon has a process. -/
def Running (m : Machine) (a : Addr) : Prop :=
  ∃ daemon, m.heap a = some daemon ∧ daemon.state ≠ .stopped

/-- Every daemon that is not stopped has one process, and every process is the one of
the daemon it was forked for as long as this daemon exists. -/
structure Sound (m : Machine) : Prop where
  /-- Daemons are at addresses that were allocated. -/
  fresh : ∀ a daemon, m.heap a = some daemon → a < m.next
  /-- Freed daemons were allocated, and are not there any more. -/
  freed : ∀ a ∈ m.freed, a < m.next ∧ m.heap a = none
  /-- A daemon is freed once. -/
  freed_nodup : m.freed.Nodup
  /-- Children have different pids. -/
  pids : (m.children.map Child.pid).Nodup
  /-- The pids of children are positive, in the range of `pid_t`. -/
  range : ∀ child ∈ m.children, 0 < child.pid ∧ child.pid < 2 ^ 31
  /-- Children were forked for daemons that were allocated. -/
  forked : ∀ child ∈ m.children, ∀ a name, child.daemon = some (a, name) → a < m.next
  /-- A child is the process of its daemon. -/
  process : ∀ child ∈ m.children, ∀ a name daemon, child.daemon = some (a, name) →
    m.heap a = some daemon →
      daemon.state ≠ .stopped ∧ daemon.pid = child.pid ∧ daemon.name = name
  /-- A daemon that is not stopped has its process. -/
  running : ∀ a daemon, m.heap a = some daemon → daemon.state ≠ .stopped →
    ⟨daemon.pid, some (a, daemon.name)⟩ ∈ m.children

/-- The daemons of both memories are at the same addresses, with the same names. -/
def SameNames (m m' : Machine) : Prop :=
  ∀ a, (m'.heap a).map Daemon.name = (m.heap a).map Daemon.name

/-- The daemons of both memories have the same processes. -/
structure SameProcesses (m m' : Machine) : Prop where
  /-- They have the same names and pids, and the same ones are stopped. -/
  daemons : ∀ a, (m'.heap a).map Daemon.process = (m.heap a).map Daemon.process
  /-- The children are the same. -/
  children : m'.children = m.children

variable {m : Machine} {a b : Addr} {daemon daemon' : Daemon}

theorem start_stopped (ha : m.heap a = some daemon) (hs : daemon.state = .stopped) :
    m.start a = (m.fork a daemon.name).write a (daemon.spawned m.forked) := by
  simp [start, ha, hs]

theorem start_running (ha : m.heap a = some daemon) (hs : daemon.state ≠ .stopped) :
    m.start a = m := by
  simp [start, ha, hs]

theorem reaped_some (info : Siginfo) (ha : m.heap a = some daemon) :
    m.reaped info (some a) =
      if info.restarts daemon.conf.start then (m.write a { daemon with state := .stopped }).start a
      else m.write a { daemon with state := .stopped } := by
  simp [reaped, ha]

/-- A fork takes a pid that is available. -/
theorem forked_available {pid : Int} (h : m.forked = some pid) : m.Available pid := by
  obtain ⟨-, hpid⟩ := Option.filter_eq_some_iff.mp h
  simpa using hpid

/-- The processes after a fork. -/
theorem mem_fork {name : Name} {child : Child} :
    child ∈ (m.fork a name).children ↔
      (m.forked = some child.pid ∧ child.daemon = some (a, name)) ∨ child ∈ m.children := by
  obtain ⟨pid, owner⟩ := child
  cases hf : m.forked with
  | none => simp [fork, hf]
  | some pid' =>
    simp only [fork, hf, Option.toList_some, List.map_cons, List.map_nil, List.singleton_append,
      List.mem_cons, Child.mk.injEq, Option.some.injEq]
    constructor
    · rintro (⟨rfl, rfl⟩ | h)
      · exact Or.inl ⟨rfl, rfl⟩
      · exact Or.inr h
    · rintro (⟨rfl, rfl⟩ | h)
      · exact Or.inl ⟨rfl, rfl⟩
      · exact Or.inr h

@[simp] theorem spawned_name {pid : Option Int} : (daemon.spawned pid).name = daemon.name := by
  cases pid <;> rfl

@[simp] theorem spawned_conf {pid : Option Int} : (daemon.spawned pid).conf = daemon.conf := by
  cases pid <;> rfl

/-- Two daemons with the same process are the same. -/
theorem Sound.running_inj (h : m.Sound) (ha : m.heap a = some daemon) (hs : daemon.state ≠ .stopped)
    (hb : m.heap b = some daemon') (hs' : daemon'.state ≠ .stopped)
    (hpid : daemon.pid = daemon'.pid) : a = b := by
  have heq := List.inj_on_of_nodup_map h.pids (h.running a daemon ha hs)
    (h.running b daemon' hb hs') hpid
  simp only [Child.mk.injEq, Option.some.injEq, Prod.mk.injEq] at heq
  exact heq.2.1

/-- The pid of a running daemon is the one of a child. -/
theorem Sound.running_pid (h : m.Sound) (ha : m.heap a = some daemon)
    (hs : daemon.state ≠ .stopped) :
    (0 < daemon.pid ∧ daemon.pid < 2 ^ 31) ∧ ∃ child ∈ m.children, child.pid = daemon.pid :=
  ⟨h.range _ (h.running a daemon ha hs), _, h.running a daemon ha hs, rfl⟩

/-- After a store, daemons are still at addresses that were allocated. -/
private theorem Sound.fresh_write (h : m.Sound) (ha : m.heap a = some daemon) :
    ∀ b d, (m.write a daemon').heap b = some d → b < m.next := by
  intro b d hb
  rw [write_heap] at hb
  split at hb
  · rename_i heq
    exact heq ▸ h.fresh a daemon ha
  · exact h.fresh b d hb

/-- After a store, freed daemons are still not there. -/
private theorem Sound.freed_write (h : m.Sound) (ha : m.heap a = some daemon) :
    ∀ b ∈ m.freed, b < m.next ∧ (m.write a daemon').heap b = none := by
  intro b hb
  obtain ⟨hlt, hnone⟩ := h.freed b hb
  refine ⟨hlt, ?_⟩
  rw [write_heap, if_neg, hnone]
  rintro rfl
  rw [ha] at hnone
  cases hnone

/-- A store that neither renames a daemon nor moves its process. -/
theorem Sound.write (h : m.Sound) (ha : m.heap a = some daemon)
    (hname : daemon'.name = daemon.name) (hpid : daemon'.pid = daemon.pid)
    (hstate : daemon'.state = .stopped ↔ daemon.state = .stopped) : (m.write a daemon').Sound := by
  refine
    { fresh := h.fresh_write ha
      freed := h.freed_write ha
      freed_nodup := h.freed_nodup
      pids := h.pids
      range := h.range
      forked := h.forked
      process := fun child hc b name d howner hb => ?_
      running := fun b d hb hs => ?_ }
  all_goals
    rw [write_heap] at hb
    split at hb
  · rename_i heq
    subst heq
    cases hb
    rw [hname, hpid, Ne, hstate]
    exact h.process child hc b name daemon howner ha
  · exact h.process child hc b name d howner hb
  · rename_i heq
    subst heq
    cases hb
    rw [hname, hpid]
    exact h.running b daemon ha (hstate.not.mp hs)
  · exact h.running b d hb hs

/-- Starting a daemon gives it the only process that it has. -/
theorem Sound.start (h : m.Sound) (ha : m.heap a = some daemon) : (m.start a).Sound := by
  by_cases hs : daemon.state = .stopped
  swap
  · rw [start_running ha hs]
    exact h
  rw [start_stopped ha hs]
  -- A stopped daemon has no process, so that the forked one is not a second one.
  have hidle : ∀ child ∈ m.children, ∀ name, child.daemon ≠ some (a, name) :=
    fun child hc name howner => (h.process child hc a name daemon howner ha).1 hs
  refine
    { fresh := h.fresh_write ha
      freed := h.freed_write ha
      freed_nodup := h.freed_nodup
      pids := ?_
      range := fun child hc => ?_
      forked := fun child hc b name howner => ?_
      process := fun child hc b name d howner hb => ?_
      running := fun b d hb hs' => ?_ }
  · change ((m.fork a daemon.name).children.map Child.pid).Nodup
    cases hf : m.forked with
    | none => simpa [fork, hf] using h.pids
    | some pid =>
      obtain ⟨-, -, hnew⟩ := forked_available hf
      simp only [fork, hf, Option.toList_some, List.map_cons, List.map_nil, List.singleton_append,
        List.nodup_cons, List.mem_map, not_exists, not_and]
      exact ⟨hnew, h.pids⟩
  · rcases mem_fork.mp hc with ⟨hf, -⟩ | hold
    · exact ⟨(forked_available hf).1, (forked_available hf).2.1⟩
    · exact h.range child hold
  · rcases mem_fork.mp hc with ⟨-, hnew⟩ | hold
    · rw [hnew] at howner
      cases howner
      exact h.fresh a daemon ha
    · exact h.forked child hold b name howner
  · rw [write_heap] at hb
    rcases mem_fork.mp hc with ⟨hf, hnew⟩ | hold
    · rw [hnew] at howner
      cases howner
      rw [if_pos rfl, hf] at hb
      cases hb
      exact ⟨by simp [Daemon.spawned], rfl, rfl⟩
    · split at hb
      · rename_i heq
        subst heq
        exact absurd howner (hidle child hold name)
      · exact h.process child hold b name d howner hb
  · rw [write_heap] at hb
    refine mem_fork.mpr ?_
    split at hb
    · rename_i heq
      subst heq
      cases hb
      cases hf : m.forked with
      | none => exact absurd hs (by simpa [hf, Daemon.spawned] using hs')
      | some pid => exact Or.inl ⟨rfl, by simp⟩
    · exact Or.inr (h.running b d hb hs')

/-- A freed daemon takes no process with it. -/
theorem Sound.free (h : m.Sound) (ha : m.heap a = some daemon) : (m.free a).Sound := by
  refine
    { fresh := fun b d hb => ?_
      freed := fun b hb => ?_
      freed_nodup := ?_
      pids := h.pids
      range := h.range
      forked := h.forked
      process := fun child hc b name d howner hb => ?_
      running := fun b d hb hs => ?_ }
  · rw [free_heap] at hb
    split at hb
    · cases hb
    · exact h.fresh b d hb
  · rw [free_heap]
    rcases List.mem_append.mp hb with hb | hb
    · obtain ⟨hlt, hnone⟩ := h.freed b hb
      exact ⟨hlt, by rw [hnone, ite_self]⟩
    · rw [List.mem_singleton.mp hb]
      exact ⟨h.fresh a daemon ha, if_pos rfl⟩
  · refine List.nodup_append.mpr ⟨h.freed_nodup, List.nodup_singleton a, fun b hb c hc heq => ?_⟩
    rw [List.mem_singleton.mp hc] at heq
    subst heq
    rw [(h.freed b hb).2] at ha
    cases ha
  · rw [free_heap] at hb
    split at hb
    · cases hb
    · exact h.process child hc b name d howner hb
  · rw [free_heap] at hb
    split at hb
    · cases hb
    · exact h.running b d hb hs

/-- The next address holds no daemon. -/
theorem Sound.next_none (h : m.Sound) : m.heap m.next = none := by
  cases hnext : m.heap m.next with
  | none => rfl
  | some daemon => exact absurd (h.fresh _ _ hnext) (Nat.lt_irrefl _)

/-- A created daemon has no process. -/
theorem Sound.malloc (h : m.Sound) {init : Int → Daemon} (hs : ∀ pid, (init pid).state = .stopped) :
    (m.malloc init).Sound := by
  refine
    { fresh := fun b d hb => ?_
      freed := fun b hb => ?_
      freed_nodup := h.freed_nodup
      pids := h.pids
      range := h.range
      forked := fun child hc b name howner => Nat.lt_succ_of_lt (h.forked child hc b name howner)
      process := fun child hc b name d howner hb => ?_
      running := fun b d hb hrun => ?_ }
  · rw [malloc_heap] at hb
    split at hb
    · rename_i heq
      rw [heq]
      exact Nat.lt_succ_self _
    · exact Nat.lt_succ_of_lt (h.fresh b d hb)
  · obtain ⟨hlt, hnone⟩ := h.freed b hb
    refine ⟨Nat.lt_succ_of_lt hlt, ?_⟩
    rw [malloc_heap, if_neg hlt.ne, hnone]
  · rw [malloc_heap, if_neg (h.forked child hc b name howner).ne] at hb
    exact h.process child hc b name d howner hb
  · rw [malloc_heap] at hb
    split at hb
    · cases hb
      exact absurd (hs _) hrun
    · exact h.running b d hb hrun

/-- The children that are left once a child was waited for. -/
theorem waitid_some {m' : Machine} {pid : Int} (h : m.waitid pid = some m') :
    (∃ child ∈ m.children, child.pid = pid) ∧
      m' = { m with children := m.children.filter fun child => child.pid ≠ pid } := by
  rw [waitid] at h
  split at h
  · rename_i hc
    exact ⟨hc, (Option.some.inj h).symm⟩
  · cases h

/-- The children that are left have different pids. -/
private theorem Sound.pids_waitid (h : m.Sound) {pid : Int} :
    ((m.children.filter fun child => child.pid ≠ pid).map Child.pid).Nodup :=
  h.pids.sublist (List.filter_sublist.map _)

/-- The children that are left are the other ones. -/
theorem mem_waitid {m' : Machine} {pid : Int} (h : m.waitid pid = some m') {child : Child} :
    child ∈ m'.children ↔ child ∈ m.children ∧ child.pid ≠ pid := by
  obtain ⟨-, rfl⟩ := waitid_some h
  simp

/-- Waiting for a process that is the one of no daemon. -/
theorem Sound.waitid_orphan (h : m.Sound) {m' : Machine} {pid : Int} (hw : m.waitid pid = some m')
    (hnone : ∀ a daemon, m.heap a = some daemon → daemon.state ≠ .stopped → daemon.pid ≠ pid) :
    m'.Sound := by
  have hmem : ∀ child, child ∈ m'.children ↔ child ∈ m.children ∧ child.pid ≠ pid :=
    fun child => mem_waitid hw
  obtain ⟨-, rfl⟩ := waitid_some hw
  exact
    { fresh := h.fresh
      freed := h.freed
      freed_nodup := h.freed_nodup
      pids := h.pids_waitid
      range := fun c hc => h.range c ((hmem c).mp hc).1
      forked := fun c hc => h.forked c ((hmem c).mp hc).1
      process := fun c hc => h.process c ((hmem c).mp hc).1
      running := fun b d hb hs => (hmem _).mpr ⟨h.running b d hb hs, hnone b d hb hs⟩ }

/-- Waiting for the process of a daemon, which is then stopped. -/
theorem Sound.waitid_daemon (h : m.Sound) {m' : Machine} (hw : m.waitid daemon.pid = some m')
    (ha : m.heap a = some daemon) (hs : daemon.state ≠ .stopped) :
    (m'.write a { daemon with state := .stopped }).Sound := by
  have hmem : ∀ child, child ∈ m'.children ↔ child ∈ m.children ∧ child.pid ≠ daemon.pid :=
    fun child => mem_waitid hw
  obtain ⟨-, rfl⟩ := waitid_some hw
  refine
    { fresh := h.fresh_write ha
      freed := h.freed_write ha
      freed_nodup := h.freed_nodup
      pids := h.pids_waitid
      range := fun c hc => h.range c ((hmem c).mp hc).1
      forked := fun c hc => h.forked c ((hmem c).mp hc).1
      process := fun c hc b name d howner hb => ?_
      running := fun b d hb hrun => ?_ }
  all_goals rw [write_heap] at hb
  · obtain ⟨hold, hne⟩ := (hmem c).mp hc
    split at hb
    · rename_i heq
      subst heq
      exact absurd (h.process c hold b name daemon howner ha).2.1.symm hne
    · exact h.process c hold b name d howner hb
  · split at hb
    · cases hb
      exact absurd rfl hrun
    · rename_i hne
      refine (hmem _).mpr ⟨h.running b d hb hrun, fun hpid => hne ?_⟩
      exact h.running_inj hb hrun ha hs hpid

/-- An adopted process is the one of no daemon. -/
theorem Sound.adopt (h : m.Sound) (pid : Int) : (m.adopt pid).Sound := by
  rw [Machine.adopt]
  split
  swap
  · exact h
  rename_i hpid
  refine ⟨h.fresh, h.freed, h.freed_nodup, ?_, fun c hc => ?_, fun c hc a name howner => ?_,
    fun c hc a name d howner => ?_, fun a d ha hs => List.mem_cons_of_mem _ (h.running a d ha hs)⟩
  · simp only [List.map_cons, List.nodup_cons, List.mem_map, not_exists, not_and]
    exact ⟨hpid.2.2, h.pids⟩
  · rcases List.mem_cons.mp hc with rfl | hc
    · exact ⟨hpid.1, hpid.2.1⟩
    · exact h.range c hc
  · rcases List.mem_cons.mp hc with rfl | hc
    · cases howner
    · exact h.forked c hc a name howner
  · rcases List.mem_cons.mp hc with rfl | hc
    · cases howner
    · exact h.process c hc a name d howner

/-- A signal changes no process by itself. -/
theorem Sound.kill (h : m.Sound) (a : Addr) (pid : Int) (signo : Nat) :
    (m.kill a pid signo).Sound :=
  ⟨h.fresh, h.freed, h.freed_nodup, h.pids, h.range, h.forked, h.process, h.running⟩

/-- At the entry of the program there are no daemons. -/
theorem setup_sound (stale : Addr → Int) (pids orphans : List Int) :
    (setup stale pids orphans).Sound := by
  have hrun : ∀ (orphans : List Int) (m : Machine), m.Sound →
      (orphans.foldl Machine.adopt m).Sound := by
    intro orphans
    induction orphans with
    | nil => exact fun m h => h
    | cons pid orphans ih => exact fun m h => ih _ (h.adopt pid)
  refine hrun orphans _ ⟨?_, ?_, List.nodup_nil, List.nodup_nil, ?_, ?_, ?_, ?_⟩ <;> simp

theorem SameProcesses.refl (m : Machine) : m.SameProcesses m := ⟨fun _ => rfl, rfl⟩

theorem SameProcesses.trans {m' m'' : Machine} (h : m.SameProcesses m')
    (h' : m'.SameProcesses m'') : m.SameProcesses m'' :=
  ⟨fun a => (h'.daemons a).trans (h.daemons a), h'.children.trans h.children⟩

/-- A daemon of one memory is one of the other, with the same process. -/
theorem SameProcesses.heap {m' : Machine} (h : m.SameProcesses m') (ha : m'.heap a = some daemon) :
    ∃ daemon', m.heap a = some daemon' ∧ daemon'.name = daemon.name ∧
      daemon'.pid = daemon.pid ∧ (daemon'.state = .stopped ↔ daemon.state = .stopped) := by
  have hproc := h.daemons a
  rw [ha, Option.map_some] at hproc
  obtain ⟨daemon', ha', hd⟩ := Option.map_eq_some_iff.mp hproc.symm
  simp only [Daemon.process, Prod.mk.injEq, eq_iff_iff] at hd
  exact ⟨daemon', ha', hd⟩

theorem SameProcesses.sameNames {m' : Machine} (h : m.SameProcesses m') : m.SameNames m' := by
  intro a
  have hproc := congrArg (Option.map Prod.fst) (h.daemons a)
  rw [Option.map_map, Option.map_map] at hproc
  exact hproc

theorem sameProcesses_write (ha : m.heap a = some daemon)
    (hname : daemon'.name = daemon.name) (hpid : daemon'.pid = daemon.pid)
    (hstate : daemon'.state = .stopped ↔ daemon.state = .stopped) :
    m.SameProcesses (m.write a daemon') := by
  refine ⟨fun b => ?_, rfl⟩
  rw [write_heap]
  split
  · rename_i heq
    rw [heq, ha, Option.map_some, Option.map_some, Daemon.process, Daemon.process, hname, hpid,
      propext hstate]
  · rfl

theorem SameNames.trans {m' m'' : Machine} (h : m.SameNames m') (h' : m'.SameNames m'') :
    m.SameNames m'' := fun a => (h' a).trans (h a)

theorem sameNames_write (ha : m.heap a = some daemon) (hname : daemon'.name = daemon.name) :
    m.SameNames (m.write a daemon') := by
  intro b
  rw [write_heap]
  split
  · rename_i heq
    rw [heq, ha, Option.map_some, Option.map_some, hname]
  · rfl

theorem sameNames_start (m : Machine) (a : Addr) : m.SameNames (m.start a) := by
  cases ha : m.heap a with
  | none => simp [start, ha, SameNames]
  | some daemon =>
    by_cases hs : daemon.state = .stopped
    · rw [start_stopped ha hs]
      have hfork : (m.fork a daemon.name).heap a = some daemon := ha
      exact sameNames_write (m := m.fork a daemon.name) hfork spawned_name
    · rw [start_running ha hs]
      exact fun _ => rfl

theorem sameNames_reaped (m : Machine) (info : Siginfo) (found : Option Addr) :
    m.SameNames (m.reaped info found) := by
  cases found with
  | none => exact fun _ => rfl
  | some a =>
    cases ha : m.heap a with
    | none => simp [reaped, ha, SameNames]
    | some daemon =>
      rw [reaped_some info ha]
      have hstop : m.SameNames (m.write a { daemon with state := .stopped }) :=
        sameNames_write ha rfl
      split
      · exact hstop.trans (sameNames_start _ a)
      · exact hstop

end Machine

end Cyberd
