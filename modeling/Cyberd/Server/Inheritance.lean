import Cyberd.Server.Exec
import Cyberd.Server.Runs

/-!
# The descriptors that daemons inherit

Everything that the program opens beyond the standard streams is closed on exec, but the
configurations. A daemon that is started while its configuration is read keeps it open, and
one that is set up without the lowest descriptors loses its standard streams.
-/

namespace Cyberd

open Library

/-- Beyond the standard streams, everything is closed on exec, and no configuration is open. -/
def Descriptors.Closed (fds : Descriptors) : Prop :=
  ∀ fd descriptor, 3 ≤ fd → fds fd = some descriptor →
    descriptor.cloexec = true ∧ ∀ name, descriptor.file ≠ .configuration name

namespace Descriptors

variable {fds : Descriptors} {fd : Fd} {descriptor : Descriptor}

/-- Closed descriptors are guarded. -/
theorem Closed.guarded (h : fds.Closed) : fds.Guarded := by
  intro fd descriptor hfd hopen
  obtain ⟨hcloexec, hfile⟩ := h fd descriptor hfd hopen
  constructor
  · intro hleft
    rw [hleft] at hcloexec
    cases hcloexec
  · rintro ⟨name, hname⟩
    exact absurd hname (hfile name)

/-- What is closed on exec, and is no configuration, may be opened. -/
theorem Closed.install (h : fds.Closed) (hcloexec : descriptor.cloexec = true)
    (hfile : ∀ name, descriptor.file ≠ .configuration name) :
    (fds.install fd descriptor).Closed := by
  intro n d hn hopen
  rw [install_apply] at hopen
  split at hopen
  · cases hopen
    exact ⟨hcloexec, hfile⟩
  · exact h n d hn hopen

/-- Descriptors may be closed. -/
theorem Closed.close (h : fds.Closed) (fd : Fd) : (fds.close fd).Closed := by
  intro n d hn hopen
  rw [close_apply] at hopen
  split at hopen
  · cases hopen
  · exact h n d hn hopen

/-- A configuration that is opened is left to a child, and nothing else is. -/
theorem Closed.configuration (h : fds.Closed) (fd : Fd) (name : Name) :
    (fds.install fd ⟨.configuration name, false⟩).Guarded := by
  intro n d hn hopen
  rw [install_apply] at hopen
  split at hopen
  · cases hopen
    exact iff_of_true rfl ⟨name, rfl⟩
  · exact h.guarded n d hn hopen

end Descriptors

namespace Server

/-- Between two operations the descriptors are closed on exec, and the children were given
descriptors that are guarded. -/
structure Hygienic (s : Server) : Prop where
  /-- No descriptor is left to a child. -/
  closed : s.fds.Closed
  /-- The descriptors that each child was given are known. -/
  forks : s.inherited.map Inheritance.fork = s.world.forks
  /-- Beyond the standard streams, only configurations were left to a child. -/
  guarded : ∀ inheritance ∈ s.inherited, inheritance.fds.Guarded

variable {s s' : Server} {fds : Descriptors}

/-- What children are given is guarded. -/
theorem Gives.guarded (h : s.Gives fds) (hs : s.fds.Closed) : fds.Guarded := by
  rcases h with rfl | ⟨dirfd, fd, name, -, rfl⟩
  · exact hs.guarded
  · have hdirectory : (s.fds.install dirfd ⟨.directory, true⟩).Closed :=
      hs.install rfl fun name' hname => by cases hname
    exact hdirectory.configuration fd name

/-- Every move keeps the descriptors closed on exec. -/
theorem Move.hygienic (h : Move s s') (hs : s.Hygienic) : s'.Hygienic := by
  cases h with
  | select readset operated => exact ⟨hs.closed, hs.forks, hs.guarded⟩
  | change a s' h =>
    cases h with
    | refused path => exact ⟨hs.closed, hs.forks, hs.guarded⟩
    | created fd path capabilities snodes activeset hfree hpath =>
      refine ⟨?_, hs.forks, hs.guarded⟩
      exact hs.closed.install rfl fun name hname => by cases hname
    | accepted fd parser snodes activeset hfree =>
      refine ⟨?_, hs.forks, hs.guarded⟩
      exact hs.closed.install rfl fun name hname => by cases hname
    | removed fd parser snodes activeset ha =>
      exact ⟨hs.closed.close fd, hs.forks, hs.guarded⟩
    | parsed fd parser parser' ha => exact ⟨hs.closed, hs.forks, hs.guarded⟩
    | forked s' hforks =>
      obtain ⟨w, new, rfl, hworld, hgiven⟩ := hforks
      refine ⟨hs.closed, ?_, fun inheritance hmem => ?_⟩
      · change (s.inherited ++ new).map Inheritance.fork = w.forks
        rw [List.map_append, hs.forks, hworld]
      · rcases List.mem_append.mp hmem with hmem | hmem
        · exact hs.guarded inheritance hmem
        · exact (hgiven inheritance hmem).guarded hs.closed

/-- The program starts with the standard streams and its log. -/
theorem start_hygienic (boot : ServerBoot) : (start boot).Hygienic := by
  refine ⟨fun fd descriptor hfd hopen => ?_, boot.boot.world_forks.symm,
    fun inheritance hmem => by cases hmem⟩
  simp only [start, openlog] at hopen
  split at hopen
  · rename_i hlt
    exact absurd hfd (Nat.not_le.mpr hlt.1)
  · split at hopen
    · cases hopen
      exact ⟨rfl, fun name hname => by cases hname⟩
    · cases hopen

/-- In every run, the descriptors that survive the exec of a child are its standard streams
exactly when it was forked without a configuration beyond them, and with the lowest descriptors
open. -/
theorem inheritance_over_runs (platform : Platform) (host : Host) (boot : ServerBoot)
    (events : List ServerEvent) :
    Outcome (Halts platform host boot events)
      (fun s => s.inherited.map Inheritance.fork = s.world.forks ∧
        ∀ inheritance ∈ s.inherited, ∀ devNull answers conf fds,
          daemonChildSetup devNull answers conf inheritance.fds = some fds →
            (fds.exec = conf.descriptors devNull ↔ inheritance.fds.Sealed conf))
      (run platform host boot events) := by
  have hygienic := run_induction Hygienic platform host boot events (start_hygienic boot)
    fun s s' _ hmove hs => hmove.hygienic hs
  apply hygienic.mono _ fun _ ht => ht
  rintro s ⟨-, hs⟩
  refine ⟨hs.forks, fun inheritance hmem devNull answers conf fds hsetup => ?_⟩
  exact daemonChildSetup_iff (hs.guarded inheritance hmem) hsetup

/-- A program that starts the daemon `a` in its first load: the directory is opened on the
descriptor 3, and the configuration on 4. -/
def inheritanceBoot : ServerBoot where
  boot := loadBoot
  standard := fun _ => true
  log := none
  resolve := id
  paths := []
  path := [47, 101]
  root := [114]
  mkdir := false
  create := ⟨false, none, false, false⟩
  load := ⟨some 3, fun _ => some 4⟩

/-- The daemon is left with its configuration on the descriptor 4. -/
theorem inheritance_load_fails :
    ∃ s, run ⟨.little, true⟩ bareHost inheritanceBoot [] = .ok s ∧
      ∃ inheritance ∈ s.inherited, ∃ fds,
        daemonChildSetup [47, 110] ⟨1024, fun _ => true, true⟩ (daemonConfInit bareHost)
          inheritance.fds = some fds ∧
        fds.exec 4 = some ⟨.configuration [97], false⟩ ∧
        fds.exec ≠ (daemonConfInit bareHost).descriptors [47, 110] := by
  have hrun : ((run ⟨.little, true⟩ bareHost inheritanceBoot []).toOption.bind fun s =>
      s.inherited.head?.bind fun inheritance =>
        (daemonChildSetup [47, 110] ⟨1024, fun _ => true, true⟩ (daemonConfInit bareHost)
          inheritance.fds).map fun fds => fds.exec 4) =
      some (some ⟨.configuration [97], false⟩) := by decide +kernel
  obtain ⟨s, hs, hrun⟩ := Option.bind_eq_some_iff.mp hrun
  obtain ⟨inheritance, hfirst, hrun⟩ := Option.bind_eq_some_iff.mp hrun
  obtain ⟨fds, hfds, hexec⟩ := Option.map_eq_some_iff.mp hrun
  refine ⟨s, ok_of_toOption hs, inheritance, List.mem_of_head? hfirst, fds, hfds, hexec, ?_⟩
  intro heq
  rw [heq] at hexec
  cases hexec

end Server

end Cyberd
