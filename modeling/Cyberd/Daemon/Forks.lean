import Cyberd.Daemon.Configuration
import Cyberd.Tree.Order

/-!
# Calls of fork

Whatever state it is called in, a function only adds calls of `fork(2)` to those that were
made before.
-/

namespace Cyberd

open Library

/-- The calls that were made before are still the first ones. -/
def World.Extends (w w' : World) : Prop := w.forks <+: w'.forks

variable {host : Host} {w w' w'' : World} {a : Addr}

theorem World.Extends.refl (w : World) : w.Extends w := List.prefix_rfl

theorem World.Extends.trans (h : w.Extends w') (h' : w'.Extends w'') : w.Extends w'' :=
  List.IsPrefix.trans h h'

/-- Without a new call, the calls are the same. -/
theorem World.Extends.of_eq (h : w'.forks = w.forks) : w.Extends w' := by
  rw [World.Extends, h]

/-- What was changed before may be anything but the calls. -/
theorem World.Extends.after (h : w'.Extends w'') (heq : w'.forks = w.forks) : w.Extends w'' := by
  rw [World.Extends, ← heq]
  exact h

/-- The new calls are those beyond the old ones. -/
theorem World.Extends.forks_eq (h : w.Extends w') :
    w'.forks = w.forks ++ w'.forks.drop w.forks.length := by
  obtain ⟨forks, hforks⟩ := h
  rw [← hforks, List.drop_left]

/-- A loop only adds calls, when each of its iterations does. -/
theorem extends_foldlM {ι : Type} {f : World → ι → Except Trap World}
    (hstep : ∀ w w' x, f w x = .ok w' → w.Extends w') (l : List ι) {w w' : World}
    (h : l.foldlM f w = .ok w') : w.Extends w' := by
  induction l generalizing w with
  | nil =>
    cases h
    exact .refl _
  | cons x l ih =>
    rw [List.foldlM_cons] at h
    obtain ⟨w₁, hx, hrest⟩ := except_bind_eq_ok.mp h
    exact (hstep _ _ _ hx).trans (ih hrest)

/-- `spawns_record` calls no `fork(2)`. -/
theorem spawnsRecord_extends (h : spawnsRecord a w = .ok w') : w.Extends w' := by
  simp only [spawnsRecord, except_bind_eq_ok] at h
  obtain ⟨_, _, spawns, _, h⟩ := h
  cases h
  exact .of_eq rfl

/-- `spawns_retrieve` calls no `fork(2)`. -/
theorem spawnsRetrieve_forks {pid : Int} {found : Option Addr}
    (h : spawnsRetrieve pid w = .ok (found, w')) : w'.forks = w.forks := by
  simp only [spawnsRetrieve, except_bind_eq_ok] at h
  obtain ⟨_, _, removal, _, h⟩ := h
  cases h
  rfl

/-- `daemon_spawn` calls it once. -/
theorem daemonSpawn_extends {status : Int} (h : daemonSpawn a w = .ok (status, w')) :
    w.Extends w' := by
  simp only [daemonSpawn, except_bind_eq_ok] at h
  obtain ⟨daemon, _, h⟩ := h
  split at h
  · cases h
    exact List.prefix_append _ _
  · obtain ⟨w₁, hrecord, h⟩ := except_bind_eq_ok.mp h
    cases h
    refine List.IsPrefix.trans ?_ (spawnsRecord_extends hrecord)
    exact List.prefix_append _ _

/-- `daemon_start` spawns at most once. -/
theorem daemonStart_extends (h : daemonStart a w = .ok w') : w.Extends w' := by
  simp only [daemonStart, except_bind_eq_ok] at h
  obtain ⟨daemon, _, h⟩ := h
  cases hs : daemon.state with
  | started =>
    rw [hs] at h
    cases h
    exact .refl w
  | stopping =>
    rw [hs] at h
    cases h
    exact .refl w
  | stopped =>
    rw [hs] at h
    obtain ⟨⟨status, w₁⟩, hspawn, h⟩ := except_bind_eq_ok.mp h
    cases h
    exact daemonSpawn_extends hspawn

/-- `daemon_destroy` calls no `fork(2)`. -/
theorem daemonDestroy_forks (h : daemonDestroy a w = .ok w') : w'.forks = w.forks := by
  simp only [daemonDestroy, except_bind_eq_ok] at h
  obtain ⟨daemon, _, h⟩ := h
  split at h
  · obtain ⟨⟨found, w₁⟩, hretrieve, h⟩ := except_bind_eq_ok.mp h
    have hforks := spawnsRetrieve_forks hretrieve
    cases h
    exact hforks
  · cases h
    rfl

/-- An insertion into the main storage calls no `fork(2)`. -/
theorem daemonsInsert_extends (h : daemonsInsert a w = .ok w') : w.Extends w' := by
  simp only [daemonsInsert, except_bind_eq_ok] at h
  obtain ⟨_, _, daemons, _, h⟩ := h
  cases h
  exact .of_eq rfl

/-- `daemon_stop` calls no `fork(2)`. -/
theorem daemonStop_extends (h : daemonStop a w = .ok w') : w.Extends w' := by
  rw [daemonStop] at h
  obtain ⟨daemon, _, h⟩ := except_bind_eq_ok.mp h
  cases hs : daemon.state <;>
  · rw [hs] at h
    cases h
    exact .of_eq rfl

/-- `daemon_reload` calls no `fork(2)`. -/
theorem daemonReload_extends (h : daemonReload a w = .ok w') : w.Extends w' := by
  rw [daemonReload] at h
  obtain ⟨daemon, _, h⟩ := except_bind_eq_ok.mp h
  cases hs : daemon.state <;>
  · rw [hs] at h
    cases h
    exact .of_eq rfl

/-- `daemon_end` calls no `fork(2)`. -/
theorem daemonEnd_extends (h : daemonEnd a w = .ok w') : w.Extends w' := by
  rw [daemonEnd] at h
  obtain ⟨daemon, _, h⟩ := except_bind_eq_ok.mp h
  cases hs : daemon.state <;>
  · rw [hs] at h
    cases h
    exact .of_eq rfl

/-- The callback of a command may only start its daemon. -/
theorem DaemonAction.perform_extends {action : DaemonAction} (h : action.perform a w = .ok w') :
    w.Extends w' := by
  cases action with
  | daemonStart => exact daemonStart_extends h
  | daemonStop => exact daemonStop_extends h
  | daemonReload => exact daemonReload_extends h
  | daemonEnd => exact daemonEnd_extends h

/-- `spawns_stop_element` calls no `fork(2)`. -/
theorem spawnsStopElement_extends (h : spawnsStopElement a w = .ok w') : w.Extends w' := by
  simp only [spawnsStopElement, except_bind_eq_ok] at h
  obtain ⟨daemon, _, h⟩ := h
  exact (daemonStop_extends h).after rfl

/-- The end of a daemon starts it at most once. -/
theorem reapChild_extends {info : Siginfo} (h : reapChild info w = .ok w') : w.Extends w' := by
  simp only [reapChild, except_bind_eq_ok] at h
  obtain ⟨⟨found, w₁⟩, hretrieve, h⟩ := h
  apply (World.Extends.of_eq (spawnsRetrieve_forks hretrieve)).trans
  cases found with
  | none =>
    cases h
    exact .refl w₁
  | some a =>
    simp only [reapedDaemon, except_bind_eq_ok] at h
    obtain ⟨daemon, _, h⟩ := h
    split at h
    · exact (daemonStart_extends h).after rfl
    · cases h
      exact .of_eq rfl

/-- `reap_children` starts daemons one after the other. -/
theorem reapChildren_extends {status : Int} (infos : List Siginfo)
    (h : reapChildren infos w = .ok (status, w')) : w.Extends w' := by
  induction infos generalizing w with
  | nil =>
    cases h
    exact .refl _
  | cons info infos ih =>
    rw [reapChildren] at h
    split at h
    · cases h
      exact .refl _
    · rename_i m hwait
      obtain ⟨w₁, hreap, hrest⟩ := except_bind_eq_ok.mp h
      have hm : m.forks = w.forks := by
        rw [Machine.waitid] at hwait
        split at hwait
        · cases hwait
          rfl
        · cases hwait
      exact (World.Extends.of_eq hm).trans ((reapChild_extends hreap).trans (ih hrest))

/-- A new daemon is started at most once. -/
theorem configurationLoadDaemon_extends {name : Name} {filep : Stream}
    (h : configurationLoadDaemon host name filep w = .ok w') : w.Extends w' := by
  simp only [configurationLoadDaemon, daemonCreate, except_bind_eq_ok] at h
  obtain ⟨daemon, _, ⟨status, conf⟩, _, h⟩ := h
  split at h
  · exact (World.Extends.of_eq (daemonDestroy_forks h)).after rfl
  · obtain ⟨w₁, hinsert, h⟩ := except_bind_eq_ok.mp h
    have hloaded : w₁.Extends w' := by
      split at h
      · exact daemonStart_extends h
      · cases h
        exact .refl _
    exact ((daemonsInsert_extends hinsert).trans hloaded).after rfl

/-- A reloaded daemon is started at most once. -/
theorem configurationReloadDaemon_extends {name : Name} {filep : Stream}
    {olddaemons olddaemons' : TreeNode Addr}
    (h : configurationReloadDaemon host name filep olddaemons w = .ok (olddaemons', w')) :
    w.Extends w' := by
  simp only [configurationReloadDaemon, except_bind_eq_ok] at h
  obtain ⟨removal, _, h⟩ := h
  split at h
  · obtain ⟨w₁, hload, h⟩ := except_bind_eq_ok.mp h
    cases h
    exact configurationLoadDaemon_extends hload
  · obtain ⟨⟨status, newconf⟩, _, h⟩ := except_bind_eq_ok.mp h
    simp only at h
    split at h
    · obtain ⟨daemon, _, h⟩ := except_bind_eq_ok.mp h
      split at h
      · simp only [except_bind_eq_ok] at h
        obtain ⟨w₁, hstart, w₂, hinsert, h⟩ := h
        cases h
        exact ((daemonStart_extends hstart).trans (daemonsInsert_extends hinsert)).after rfl
      · simp only [except_pure, except_bind_ok, except_bind_eq_ok] at h
        obtain ⟨w₂, hinsert, h⟩ := h
        cases h
        exact (daemonsInsert_extends hinsert).after rfl
    · obtain ⟨w₂, hinsert, h⟩ := except_bind_eq_ok.mp h
      cases h
      exact daemonsInsert_extends hinsert

/-- What is left of a tree is destroyed without any `fork(2)`. -/
theorem treeMutate_destroy_forks {olddaemons : TreeNode Addr}
    (h : treeMutate daemonDestroy olddaemons w = .ok w') : w'.forks = w.forks := by
  rw [treeMutate_eq] at h
  generalize olddaemons.preorder = l at h
  induction l generalizing w with
  | nil =>
    cases h
    rfl
  | cons a l ih =>
    rw [List.foldlM_cons] at h
    obtain ⟨w₁, hdestroy, hrest⟩ := except_bind_eq_ok.mp h
    exact (ih hrest).trans (daemonDestroy_forks hdestroy)

/-- A reload starts daemons one entry after the other. -/
theorem configurationReload_extends {dirp : Option Directory}
    (h : configurationReload host dirp w = .ok w') : w.Extends w' := by
  cases dirp with
  | none =>
    cases h
    exact .refl w
  | some dir =>
    simp only [configurationReload, except_bind_eq_ok] at h
    obtain ⟨⟨olddaemons, w₁⟩, hloop, hdestroy⟩ := h
    apply World.Extends.trans _ (.of_eq (treeMutate_destroy_forks hdestroy))
    have hentries : ∀ (l : List DirEntry) (s s' : TreeNode Addr × World),
        l.foldlM (configurationReloadEntry host) s = .ok s' → s.2.Extends s'.2 := by
      intro l
      induction l with
      | nil =>
        rintro s _ ⟨⟩
        exact .refl s.2
      | cons entry l ih =>
        intro s s' hl
        rw [List.foldlM_cons] at hl
        obtain ⟨s₁, hentry, hrest⟩ := except_bind_eq_ok.mp hl
        apply World.Extends.trans _ (ih s₁ s' hrest)
        rw [configurationReloadEntry] at hentry
        split at hentry
        · cases hentry
          exact .refl s.2
        · split at hentry
          · cases hentry
            exact .refl s.2
          · exact configurationReloadDaemon_extends hentry
    exact (hentries _ _ _ hloop).after rfl

/-- An adoption calls no `fork(2)`. -/
theorem Machine.adopt_forks (m : Machine) (pid : Int) : (m.adopt pid).forks = m.forks := by
  rw [adopt]
  split <;> rfl

/-- At the entry of the program there was no call. -/
theorem Boot.world_forks (boot : Boot) : boot.world.forks = [] := by
  have hadopt : ∀ (orphans : List Int) (m : Machine),
      (orphans.foldl Machine.adopt m).forks = m.forks := by
    intro orphans
    induction orphans with
    | nil => exact fun m => rfl
    | cons pid orphans ih => exact fun m => (ih _).trans (m.adopt_forks pid)
  exact hadopt boot.orphans _

/-- An event only adds calls. -/
theorem World.step_extends {event : Event} (h : w.step host event = .ok w') : w.Extends w' := by
  cases event with
  | command action name =>
    simp only [World.step, except_bind_eq_ok] at h
    obtain ⟨found, _, h⟩ := h
    split at h
    · cases h
      exact .refl w
    · exact DaemonAction.perform_extends h
  | reap infos =>
    simp only [World.step, except_bind_eq_ok] at h
    obtain ⟨⟨status, w₁⟩, hreap, h⟩ := h
    cases h
    exact reapChildren_extends infos hreap
  | reload dirp => exact configurationReload_extends h
  | stop =>
    rw [World.step, spawnsStop, treeMutate_eq] at h
    exact extends_foldlM (fun _ _ _ hstop => spawnsStopElement_extends hstop) _ h
  | adopt pid =>
    cases h
    exact .of_eq (w.adopt_forks pid)

end Cyberd
