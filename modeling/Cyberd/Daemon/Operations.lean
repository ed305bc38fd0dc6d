import Cyberd.Daemon.Forks

/-!
# What the functions do to the memory and to the processes

Whatever state it is called in, a function that returns has only stored, allocated and
freed daemons, forked, and sent signals. None of these waits for a child: a child is only
lost in the loop of `reap_children`.
-/

namespace Cyberd

open Library

namespace Machine

/-- One access to the memory, or one system call. -/
inductive Operation (m : Machine) : Machine → Prop
  | write (a : Addr) (daemon : Daemon) : Operation m (m.write a daemon)
  | malloc (init : Int → Daemon) : Operation m (m.malloc init)
  | free (a : Addr) : Operation m (m.free a)
  | fork (a : Addr) (name : Name) : Operation m (m.fork a name)
  | kill (a : Addr) (pid : Int) (signo : Nat) : Operation m (m.kill a pid signo)

/-- Some operations, one after the other. -/
abbrev Operations : Machine → Machine → Prop := Relation.ReflTransGen Operation

/-- The children that were not waited for still are not. -/
def Retains (m m' : Machine) : Prop := ∀ child ∈ m.children, child ∈ m'.children

variable {m m' m'' : Machine}

theorem Retains.trans (h : m.Retains m') (h' : m'.Retains m'') : m.Retains m'' :=
  fun child hc => h' child (h child hc)

/-- No operation waits for a child. -/
theorem Operation.retains (h : Operation m m') : m.Retains m' := by
  cases h with
  | fork a name => exact fun child hc => List.mem_append_right _ hc
  | write | malloc | free | kill => exact fun child hc => hc

/-- So do any number of them. -/
theorem Operations.retains (h : Operations m m') : m.Retains m' := by
  induction h with
  | refl => exact fun child hc => hc
  | tail _ hop ih => exact ih.trans hop.retains

end Machine

/-- The function operates on the memory and on the processes. -/
abbrev World.Operates (w w' : World) : Prop := Machine.Operations w.toMachine w'.toMachine

variable {host : Host} {w w' w'' : World} {a : Addr}

theorem World.Operates.refl (w : World) : w.Operates w := Relation.ReflTransGen.refl

theorem World.Operates.trans (h : w.Operates w') (h' : w'.Operates w'') : w.Operates w'' :=
  Relation.ReflTransGen.trans h h'

/-- One operation, whatever happens to the storage. -/
theorem World.Operates.single (h : Machine.Operation w.toMachine w'.toMachine) : w.Operates w' :=
  Relation.ReflTransGen.single h

/-- Only the storage changes. -/
theorem World.Operates.of_eq (h : w'.toMachine = w.toMachine) : w.Operates w' := by
  rw [World.Operates, h]

/-- A loop operates, when each of its iterations does. -/
theorem operates_foldlM {ι : Type} {f : World → ι → Except Trap World}
    (hstep : ∀ w w' x, f w x = .ok w' → w.Operates w') (l : List ι) {w w' : World}
    (h : l.foldlM f w = .ok w') : w.Operates w' := by
  induction l generalizing w with
  | nil =>
    cases h
    exact .refl _
  | cons x l ih =>
    rw [List.foldlM_cons] at h
    obtain ⟨w₁, hx, hrest⟩ := except_bind_eq_ok.mp h
    exact (hstep _ _ _ hx).trans (ih hrest)

/-- `spawns_record` only changes the storage. -/
theorem spawnsRecord_machine (h : spawnsRecord a w = .ok w') : w'.toMachine = w.toMachine := by
  simp only [spawnsRecord, except_bind_eq_ok] at h
  obtain ⟨_, _, spawns, _, h⟩ := h
  cases h
  rfl

/-- `spawns_retrieve` only changes the storage. -/
theorem spawnsRetrieve_machine {pid : Int} {found : Option Addr}
    (h : spawnsRetrieve pid w = .ok (found, w')) : w'.toMachine = w.toMachine := by
  simp only [spawnsRetrieve, except_bind_eq_ok] at h
  obtain ⟨_, _, removal, _, h⟩ := h
  cases h
  rfl

/-- `daemon_spawn` forks, and stores the daemon on success. -/
theorem daemonSpawn_operates {status : Int} (h : daemonSpawn a w = .ok (status, w')) :
    w.Operates w' := by
  simp only [daemonSpawn, except_bind_eq_ok] at h
  obtain ⟨daemon, _, h⟩ := h
  split at h
  · cases h
    exact .single (.fork a daemon.name)
  · rename_i pid _
    obtain ⟨w₁, hrecord, h⟩ := except_bind_eq_ok.mp h
    cases h
    rw [World.Operates, spawnsRecord_machine hrecord]
    exact Relation.ReflTransGen.trans (.single (.fork a daemon.name)) (.single (.write a _))

/-- `daemon_start` spawns or does nothing. -/
theorem daemonStart_operates (h : daemonStart a w = .ok w') : w.Operates w' := by
  simp only [daemonStart, except_bind_eq_ok] at h
  obtain ⟨daemon, _, h⟩ := h
  cases hs : daemon.state with
  | started =>
    rw [hs] at h
    cases h
    exact .refl w
  | stopping =>
    rw [hs] at h
    cases h
    exact .refl w
  | stopped =>
    rw [hs] at h
    obtain ⟨⟨status, w₁⟩, hspawn, h⟩ := except_bind_eq_ok.mp h
    cases h
    exact daemonSpawn_operates hspawn

/-- `daemon_destroy` frees its daemon. -/
theorem daemonDestroy_operates (h : daemonDestroy a w = .ok w') : w.Operates w' := by
  simp only [daemonDestroy, except_bind_eq_ok] at h
  obtain ⟨daemon, _, h⟩ := h
  split at h
  · obtain ⟨⟨found, w₁⟩, hretrieve, h⟩ := except_bind_eq_ok.mp h
    have hmachine := spawnsRetrieve_machine hretrieve
    cases h
    exact (World.Operates.of_eq hmachine).trans (.single (.free a))
  · cases h
    exact .single (.free a)

/-- An insertion into the main storage only changes the storage. -/
theorem daemonsInsert_operates (h : daemonsInsert a w = .ok w') : w.Operates w' := by
  simp only [daemonsInsert, except_bind_eq_ok] at h
  obtain ⟨_, _, daemons, _, h⟩ := h
  cases h
  exact .of_eq rfl

/-- `daemon_stop` sends a signal and stores the daemon. -/
theorem daemonStop_operates (h : daemonStop a w = .ok w') : w.Operates w' := by
  rw [daemonStop] at h
  obtain ⟨daemon, _, h⟩ := except_bind_eq_ok.mp h
  cases hs : daemon.state with
  | started =>
    rw [hs] at h
    cases h
    exact Relation.ReflTransGen.trans (.single (.kill a daemon.pid _)) (.single (.write a _))
  | stopped =>
    rw [hs] at h
    cases h
    exact .refl w
  | stopping =>
    rw [hs] at h
    cases h
    exact .refl w

/-- `daemon_reload` sends a signal. -/
theorem daemonReload_operates (h : daemonReload a w = .ok w') : w.Operates w' := by
  rw [daemonReload] at h
  obtain ⟨daemon, _, h⟩ := except_bind_eq_ok.mp h
  cases hs : daemon.state <;>
  · rw [hs] at h
    cases h
    first
      | exact .refl w
      | exact .single (.kill a daemon.pid _)

/-- `daemon_end` sends a signal. -/
theorem daemonEnd_operates (h : daemonEnd a w = .ok w') : w.Operates w' := by
  rw [daemonEnd] at h
  obtain ⟨daemon, _, h⟩ := except_bind_eq_ok.mp h
  cases hs : daemon.state <;>
  · rw [hs] at h
    cases h
    first
      | exact .refl w
      | exact .single (.kill a daemon.pid _)

/-- So does the callback of a command. -/
theorem DaemonAction.perform_operates {action : DaemonAction} (h : action.perform a w = .ok w') :
    w.Operates w' := by
  cases action with
  | daemonStart => exact daemonStart_operates h
  | daemonStop => exact daemonStop_operates h
  | daemonReload => exact daemonReload_operates h
  | daemonEnd => exact daemonEnd_operates h

/-- `spawns_stop_element` stores the daemon and stops it. -/
theorem spawnsStopElement_operates (h : spawnsStopElement a w = .ok w') : w.Operates w' := by
  simp only [spawnsStopElement, except_bind_eq_ok] at h
  obtain ⟨daemon, _, h⟩ := h
  exact Relation.ReflTransGen.trans (.single (.write a _)) (daemonStop_operates h)

/-- `spawns_stop` stops daemons one after the other. -/
theorem spawnsStop_operates (h : spawnsStop w = .ok w') : w.Operates w' := by
  rw [spawnsStop, treeMutate_eq] at h
  exact operates_foldlM (fun _ _ _ hstop => spawnsStopElement_operates hstop) _ h

/-- What follows the wait for a child is no other wait. -/
theorem reapChild_operates {info : Siginfo} (h : reapChild info w = .ok w') : w.Operates w' := by
  simp only [reapChild, except_bind_eq_ok] at h
  obtain ⟨⟨found, w₁⟩, hretrieve, h⟩ := h
  apply (World.Operates.of_eq (spawnsRetrieve_machine hretrieve)).trans
  cases found with
  | none =>
    cases h
    exact .refl w₁
  | some a =>
    simp only [reapedDaemon, except_bind_eq_ok] at h
    obtain ⟨daemon, _, h⟩ := h
    split at h
    · exact Relation.ReflTransGen.trans (.single (.write a _)) (daemonStart_operates h)
    · cases h
      exact .single (.write a _)

/-- A new daemon is allocated, stored, and destroyed or started. -/
theorem configurationLoadDaemon_operates {name : Name} {filep : Stream}
    (h : configurationLoadDaemon host name filep w = .ok w') : w.Operates w' := by
  simp only [configurationLoadDaemon, daemonCreate, except_bind_eq_ok] at h
  obtain ⟨daemon, _, ⟨status, conf⟩, _, h⟩ := h
  have hcreate : ∀ (init : Int → Daemon) (b : Addr) (daemon : Daemon),
      Machine.Operations w.toMachine ((w.malloc init).write b daemon) :=
    fun init b daemon => .trans (.single (.malloc init)) (.single (.write b daemon))
  split at h
  · exact (hcreate _ _ _).trans (daemonDestroy_operates h)
  · obtain ⟨w₁, hinsert, h⟩ := except_bind_eq_ok.mp h
    refine Relation.ReflTransGen.trans (hcreate _ _ _) ((daemonsInsert_operates hinsert).trans ?_)
    split at h
    · exact daemonStart_operates h
    · cases h
      exact .refl _

/-- A load operates entry after entry. -/
theorem configurationLoad_operates {dirp : Option Directory}
    (h : configurationLoad host dirp w = .ok w') : w.Operates w' := by
  cases dirp with
  | none =>
    cases h
    exact .refl w
  | some dir =>
    refine operates_foldlM (fun w w' entry hentry => ?_) dir.read h
    rw [configurationLoadEntry] at hentry
    split at hentry
    · cases hentry
      exact .refl w
    · split at hentry
      · cases hentry
        exact .refl w
      · exact configurationLoadDaemon_operates hentry

/-- A reloaded daemon is stored and may be started. -/
theorem configurationReloadDaemon_operates {name : Name} {filep : Stream}
    {olddaemons olddaemons' : TreeNode Addr}
    (h : configurationReloadDaemon host name filep olddaemons w = .ok (olddaemons', w')) :
    w.Operates w' := by
  simp only [configurationReloadDaemon, except_bind_eq_ok] at h
  obtain ⟨removal, _, h⟩ := h
  split at h
  · obtain ⟨w₁, hload, h⟩ := except_bind_eq_ok.mp h
    cases h
    exact configurationLoadDaemon_operates hload
  · obtain ⟨⟨status, newconf⟩, _, h⟩ := except_bind_eq_ok.mp h
    simp only at h
    split at h
    · obtain ⟨daemon, _, h⟩ := except_bind_eq_ok.mp h
      split at h
      · simp only [except_bind_eq_ok] at h
        obtain ⟨w₁, hstart, w₂, hinsert, h⟩ := h
        cases h
        exact Relation.ReflTransGen.trans (.single (.write _ _))
          ((daemonStart_operates hstart).trans (daemonsInsert_operates hinsert))
      · simp only [except_pure, except_bind_ok, except_bind_eq_ok] at h
        obtain ⟨w₂, hinsert, h⟩ := h
        cases h
        exact Relation.ReflTransGen.trans (.single (.write _ _)) (daemonsInsert_operates hinsert)
    · obtain ⟨w₂, hinsert, h⟩ := except_bind_eq_ok.mp h
      cases h
      exact daemonsInsert_operates hinsert

/-- What is left of a tree is freed. -/
theorem treeMutate_destroy_operates {daemons : TreeNode Addr}
    (h : treeMutate daemonDestroy daemons w = .ok w') : w.Operates w' := by
  rw [treeMutate_eq] at h
  exact operates_foldlM (fun _ _ _ hdestroy => daemonDestroy_operates hdestroy) _ h

/-- A reload operates entry after entry, and frees what is left. -/
theorem configurationReload_operates {dirp : Option Directory}
    (h : configurationReload host dirp w = .ok w') : w.Operates w' := by
  cases dirp with
  | none =>
    cases h
    exact .refl w
  | some dir =>
    simp only [configurationReload, except_bind_eq_ok] at h
    obtain ⟨⟨olddaemons, w₁⟩, hloop, hdestroy⟩ := h
    have hentries : ∀ (l : List DirEntry) (s s' : TreeNode Addr × World),
        l.foldlM (configurationReloadEntry host) s = .ok s' → s.2.Operates s'.2 := by
      intro l
      induction l with
      | nil =>
        rintro s _ ⟨⟩
        exact .refl s.2
      | cons entry l ih =>
        intro s s' hl
        rw [List.foldlM_cons] at hl
        obtain ⟨s₁, hentry, hrest⟩ := except_bind_eq_ok.mp hl
        apply World.Operates.trans _ (ih s₁ s' hrest)
        rw [configurationReloadEntry] at hentry
        split at hentry
        · cases hentry
          exact .refl s.2
        · split at hentry
          · cases hentry
            exact .refl s.2
          · exact configurationReloadDaemon_operates hentry
    exact Relation.ReflTransGen.trans (hentries _ _ _ hloop) (treeMutate_destroy_operates hdestroy)

/-- A command operates on its daemon. -/
theorem command_operates {action : DaemonAction} {name : Name}
    (h : w.step host (.command action name) = .ok w') : w.Operates w' := by
  simp only [World.step, except_bind_eq_ok] at h
  obtain ⟨found, _, h⟩ := h
  split at h
  · cases h
    exact .refl w
  · exact DaemonAction.perform_operates h

/-- One terminated child is the only one that is waited for. -/
theorem reapChildren_retains {info : Siginfo} {status : Int}
    (h : reapChildren [info] w = .ok (status, w')) :
    ∀ child ∈ w.children, child.pid ≠ info.pid → child ∈ w'.children := by
  intro child hc hne
  rw [reapChildren] at h
  cases hwait : w.waitid info.pid with
  | none =>
    rw [hwait] at h
    cases h
    exact hc
  | some m =>
    simp only [hwait, except_bind_eq_ok] at h
    obtain ⟨w₂, hchild, h⟩ := h
    cases h
    refine Machine.Operations.retains (reapChild_operates hchild) child ?_
    rw [Machine.waitid] at hwait
    split at hwait
    · cases hwait
      exact List.mem_filter.mpr ⟨hc, decide_eq_true hne⟩
    · cases hwait

/-- So it is in an event. -/
theorem reap_retains {info : Siginfo} (h : w.step host (.reap [info]) = .ok w') :
    ∀ child ∈ w.children, child.pid ≠ info.pid → child ∈ w'.children := by
  rw [World.step] at h
  obtain ⟨⟨status, w₁⟩, hreap, h⟩ := except_bind_eq_ok.mp h
  cases h
  exact reapChildren_retains hreap

end Cyberd
