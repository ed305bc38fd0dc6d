import Cyberd.Server.Changes

/-!
# Loads and reloads with their descriptors

With the descriptors of the directory and of the file that is read, a load and a reload
follow those of the daemons on what can be opened. The descriptors are closed again, and the
children of the daemons that are started are given them.
-/

namespace Cyberd

open Library

namespace Server

/-- What is opened of an entry. -/
def served (s : Server) (answer : OpenAnswer) (entry : DirEntry) : DirEntry where
  name := entry.name
  filep := if (s.takeFile (answer.fds entry.name)).isSome then entry.filep else none

/-- What is opened of the entries of a directory. -/
def servedDirectory (s : Server) (answer : OpenAnswer) (dir : Directory) : Directory where
  entries := dir.entries.map (s.served answer)
  distinct := by simpa [Function.comp_def, served] using dir.distinct
  failure := dir.failure

/-- What is opened of a directory, while it is open itself. -/
def opened (s : Server) (answer : OpenAnswer) (dirp : Option Directory) : Option Directory :=
  match dirp, s.takeFile answer.dirfd with
  | some dir, some fd => some ((s.install fd ⟨.directory, true⟩).servedDirectory answer dir)
  | _, _ => none

/-- A child may be given the open descriptors with the one of a configuration. -/
def Reads (s : Server) (fds : Descriptors) : Prop :=
  ∃ fd name, fds = s.fds.install fd ⟨.configuration name, false⟩

variable {s s' : Server} {host : Host} {answer : OpenAnswer} {entry : DirEntry} {fd : Fd}
variable {given : Descriptors → Prop} {descriptor : Descriptor}

theorem servedDirectory_read (s : Server) (answer : OpenAnswer) (dir : Directory) :
    (s.servedDirectory answer dir).read = dir.read.map (s.served answer) := by
  cases hfailure : dir.failure with
  | none => simp only [Directory.read, servedDirectory, hfailure]
  | some count => simp only [Directory.read, servedDirectory, hfailure, List.map_take]

/-- A file takes a descriptor that is not open. -/
theorem takeFile_some {answer : Option Fd} (h : s.takeFile answer = some fd) :
    s.fds fd = none := by
  obtain ⟨-, hfd⟩ := Option.filter_eq_some_iff.mp h
  exact of_decide_eq_true hfd

/-- What was opened is closed after the children were forked. -/
theorem Forks.close_install (hfree : s.fds fd = none)
    (h : (s.install fd descriptor).Forks given s') : s.Forks given (s'.close fd) := by
  obtain ⟨w, new, rfl, hforks, hgiven⟩ := h
  refine ⟨w, new, ?_, hforks, hgiven⟩
  change { s with
    world := w
    inherited := s.inherited ++ new
    fds := (s.fds.install fd descriptor).close fd } = _
  rw [Descriptors.close_install hfree]

/-- The children of a daemon that is loaded are given its configuration. -/
theorem forks_configuration (hfree : s.fds fd = none) {name : Name} {w : World}
    (hw : s.world.Extends w) :
    s.Forks s.Reads
      (((s.install fd ⟨.configuration name, false⟩).record w).close fd) := by
  have hrecord : (s.install fd ⟨.configuration name, false⟩).Forks s.Reads
      ((s.install fd ⟨.configuration name, false⟩).record w) :=
    .record hw ⟨fd, name, rfl⟩
  exact hrecord.close_install hfree

/-- An iteration of `configuration_load` follows the one of the daemons. -/
theorem configurationLoadEntry_follows (s : Server) (entry : DirEntry) :
    Follows (fun w s' => s'.world = w ∧ s.Forks s.Reads s')
      (Cyberd.configurationLoadEntry host s.world (s.served answer entry))
      (s.configurationLoadEntry host answer entry) := by
  rw [Cyberd.configurationLoadEntry, configurationLoadEntry]
  have hhidden : (s.served answer entry).hidden = entry.hidden := rfl
  rw [hhidden]
  by_cases hid : entry.hidden = true
  · rw [if_pos hid, if_pos hid]
    exact ⟨rfl, .refl _ s⟩
  rw [if_neg hid, if_neg hid]
  cases hfilep : entry.filep with
  | none =>
    simp only [served, hfilep, ite_self]
    exact ⟨rfl, .refl _ s⟩
  | some filep =>
    cases htake : s.takeFile (answer.fds entry.name) with
    | none =>
      simp only [served, htake, Option.isSome_none, Bool.false_eq_true, if_false]
      exact ⟨rfl, .refl _ s⟩
    | some fd =>
      simp only [served, htake, hfilep, Option.isSome_some, if_true]
      have hworld : (s.install fd ⟨.configuration entry.name, false⟩).world = s.world := rfl
      rw [hworld]
      cases hload : configurationLoadDaemon host entry.name filep s.world with
      | error trap => exact rfl
      | ok w =>
        exact ⟨rfl, forks_configuration (takeFile_some htake)
          (configurationLoadDaemon_extends hload)⟩

/-- An iteration of `configuration_reload` follows the one of the daemons. -/
theorem configurationReloadEntry_follows (t : TreeNode Addr × Server) (entry : DirEntry) :
    Follows (fun u t' => t'.1 = u.1 ∧ t'.2.world = u.2 ∧ t.2.Forks t.2.Reads t'.2)
      (Cyberd.configurationReloadEntry host (t.1, t.2.world) (t.2.served answer entry))
      (configurationReloadEntry host answer t entry) := by
  obtain ⟨olddaemons, s⟩ := t
  rw [Cyberd.configurationReloadEntry, configurationReloadEntry]
  have hhidden : (s.served answer entry).hidden = entry.hidden := rfl
  simp only [hhidden]
  by_cases hid : entry.hidden = true
  · rw [if_pos hid, if_pos hid]
    exact ⟨rfl, rfl, .refl _ s⟩
  rw [if_neg hid, if_neg hid]
  cases hfilep : entry.filep with
  | none =>
    simp only [served, hfilep, ite_self]
    exact ⟨rfl, rfl, .refl _ s⟩
  | some filep =>
    cases htake : s.takeFile (answer.fds entry.name) with
    | none =>
      simp only [served, htake, Option.isSome_none, Bool.false_eq_true, if_false]
      exact ⟨rfl, rfl, .refl _ s⟩
    | some fd =>
      simp only [served, htake, hfilep, Option.isSome_some, if_true]
      have hworld : (s.install fd ⟨.configuration entry.name, false⟩).world = s.world := rfl
      rw [hworld]
      cases hload : configurationReloadDaemon host entry.name filep olddaemons s.world with
      | error trap => exact rfl
      | ok u =>
        exact ⟨rfl, rfl, forks_configuration (takeFile_some htake)
          (configurationReloadDaemon_extends hload)⟩

/-- The directory is open while its configurations are read. -/
theorem Reads.gives (hfree : s.fds fd = none) {fds : Descriptors}
    (h : (s.install fd ⟨.directory, true⟩).Reads fds) : s.Gives fds := by
  obtain ⟨fd', name, rfl⟩ := h
  exact Or.inr ⟨fd, fd', name, hfree, rfl⟩

/-- The descriptors are the same after children were forked. -/
theorem Forks.fds_eq (h : s.Forks given s') : s'.fds = s.fds := by
  obtain ⟨w, new, rfl, -⟩ := h
  rfl

/-- Only the descriptors count for what is opened. -/
theorem served_congr (h : s'.fds = s.fds) : s'.served answer = s.served answer := by
  have htake : s'.takeFile = s.takeFile :=
    congrArg (fun (fds : Descriptors) (fd : Option Fd) => fd.filter fun fd => fds fd = none) h
  funext entry
  rw [served, served, htake]

theorem Reads.congr (h : s'.fds = s.fds) {fds : Descriptors} (hreads : s'.Reads fds) :
    s.Reads fds := by
  rw [Reads, h] at hreads
  exact hreads

/-- `configuration_load` follows the one of the daemons on what is opened. -/
theorem configurationLoad_follows (s : Server) (dirp : Option Directory) :
    Follows (fun w s' => s'.world = w ∧ s.Forks s.Gives s')
      (Cyberd.configurationLoad host (s.opened answer dirp) s.world)
      (s.configurationLoad host dirp answer) := by
  cases dirp with
  | none => exact ⟨rfl, .refl _ s⟩
  | some dir =>
    cases htake : s.takeFile answer.dirfd with
    | none =>
      simp only [configurationLoad, opened, htake]
      exact ⟨rfl, .refl _ s⟩
    | some fd =>
      have hfree := takeFile_some htake
      simp only [configurationLoad, opened, htake, Cyberd.configurationLoad, servedDirectory_read]
      generalize hs₁ : s.install fd ⟨.directory, true⟩ = s₁
      have hworld : s₁.world = s.world := by rw [← hs₁, install]
      have hloop : Follows (fun w s' => s'.world = w ∧ s₁.Forks s₁.Reads s')
          ((dir.read.map (s₁.served answer)).foldlM (Cyberd.configurationLoadEntry host) s.world)
          (dir.read.foldlM (configurationLoadEntry host answer) s₁) := by
        apply Follows.foldlM (s₁.served answer) _ dir.read ⟨hworld, .refl _ s₁⟩
        rintro _ t entry ⟨rfl, hforks⟩
        rw [← served_congr hforks.fds_eq]
        apply (configurationLoadEntry_follows t entry).mono
        rintro w t' ⟨hw, hforks'⟩
        exact ⟨hw, hforks.trans (hforks'.mono fun _ => Reads.congr hforks.fds_eq)⟩
      rw [← bind_pure (List.foldlM _ _ _)]
      apply hloop.bind
      rintro w s' - ⟨hw, hforks⟩
      rw [← hs₁] at hforks
      exact ⟨hw, (hforks.mono fun _ => Reads.gives hfree).close_install hfree⟩

/-- `configuration_reload` follows the one of the daemons on what is opened. -/
theorem configurationReload_follows (s : Server) (dirp : Option Directory) :
    Follows (fun w s' => s'.world = w ∧ s.Forks s.Gives s')
      (Cyberd.configurationReload host (s.opened answer dirp) s.world)
      (s.configurationReload host dirp answer) := by
  cases dirp with
  | none => exact ⟨rfl, .refl _ s⟩
  | some dir =>
    cases htake : s.takeFile answer.dirfd with
    | none =>
      simp only [configurationReload, opened, htake]
      exact ⟨rfl, .refl _ s⟩
    | some fd =>
      have hfree := takeFile_some htake
      simp only [configurationReload, opened, htake, Cyberd.configurationReload,
        servedDirectory_read]
      generalize hs₁ : s.install fd ⟨.directory, true⟩ = s₁
      have hworld : s₁.world = s.world := by rw [← hs₁, install]
      have hnull : s₁.Forks s₁.Reads { s₁ with world := { s₁.world with daemons := .null } } :=
        .of_world rfl
      have hloop : Follows
          (fun u t => t.1 = u.1 ∧ t.2.world = u.2 ∧ s₁.Forks s₁.Reads t.2)
          ((dir.read.map (s₁.served answer)).foldlM (Cyberd.configurationReloadEntry host)
            (s₁.world.daemons, { s₁.world with daemons := .null }))
          (dir.read.foldlM (configurationReloadEntry host answer)
            (s₁.world.daemons, { s₁ with world := { s₁.world with daemons := .null } })) := by
        apply Follows.foldlM (s₁.served answer) _ dir.read ⟨rfl, rfl, hnull⟩
        rintro ⟨olddaemons, w⟩ t entry ⟨rfl, rfl, hforks⟩
        rw [← served_congr hforks.fds_eq]
        apply (configurationReloadEntry_follows t entry).mono
        rintro u t' ⟨hold, hw, hforks'⟩
        exact ⟨hold, hw, hforks.trans (hforks'.mono fun _ => Reads.congr hforks.fds_eq)⟩
      rw [← hworld]
      apply hloop.bind
      rintro ⟨_, _⟩ ⟨olddaemons, s'⟩ - ⟨rfl, rfl, hforks⟩
      rw [← hs₁] at hforks
      have hclosed := (hforks.mono fun _ => Reads.gives hfree).close_install hfree
      have hworld' : (s'.close fd).world = s'.world := rfl
      simp only [hworld']
      cases hdestroy : treeMutate daemonDestroy olddaemons s'.world with
      | error trap => exact rfl
      | ok w => exact ⟨rfl, hclosed.trans (.of_world (treeMutate_destroy_forks hdestroy))⟩

end Server

end Cyberd
