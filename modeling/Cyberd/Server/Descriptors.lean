import Cyberd.Library.CString

/-!
# File descriptors

The descriptors of the process, with the system calls that act on them. What is not
closed on exec is what a new program is given.
-/

namespace Cyberd

open Library

/-- A file descriptor. -/
abbrev Fd := Nat

/-- The standard streams of a daemon. -/
inductive Standard
  | stdin
  | stdout
  | stderr
  deriving DecidableEq, Repr

/-- What a descriptor refers to. -/
inductive File
  /-- What the program was started with. -/
  | inherited (fd : Fd)
  /-- The system log. -/
  | log
  /-- The directory of the configurations. -/
  | directory
  /-- The configuration of a daemon. -/
  | configuration (name : Name)
  /-- A socket, with the path it is bound to. -/
  | socket (path : Option Name)
  /-- An accepted connection. -/
  | connection
  /-- What was opened as a standard stream of a daemon. -/
  | standard (stream : Standard) (path : Name)
  deriving DecidableEq, Repr

/-- An open descriptor. -/
structure Descriptor where
  /-- What it refers to. -/
  file : File
  /-- `FD_CLOEXEC` -/
  cloexec : Bool
  deriving DecidableEq, Repr

/-- The descriptors that are open. -/
abbrev Descriptors := Fd → Option Descriptor

namespace Descriptors

/-- A descriptor is opened, or replaced. -/
def install (fds : Descriptors) (fd : Fd) (descriptor : Descriptor) : Descriptors :=
  fun n => if n = fd then some descriptor else fds n

/-- `close(2)` -/
def close (fds : Descriptors) (fd : Fd) : Descriptors := fun n => if n = fd then none else fds n

/-- The lowest descriptor that is not open, below the limit of the process. -/
def lowest (fds : Descriptors) (limit : Nat) : Option Fd :=
  (List.range limit).find? fun fd => (fds fd).isNone

/-- `open(2)` of a path, which may fail. -/
def openPath (fds : Descriptors) (limit : Nat) (succeeds : Bool) (descriptor : Descriptor) :
    Option (Fd × Descriptors) :=
  if succeeds then (fds.lowest limit).map fun fd => (fd, fds.install fd descriptor) else none

/-- `dup2(2)` of an open descriptor, which changes nothing when both are the same. -/
def dup2 (fds : Descriptors) (old new : Fd) : Descriptors :=
  if old = new then fds
  else
    match fds old with
    | none => fds
    | some descriptor => fds.install new ⟨descriptor.file, false⟩

/-- What `execve(2)` leaves open. -/
def exec (fds : Descriptors) : Descriptors :=
  fun fd => (fds fd).filter fun descriptor => !descriptor.cloexec

variable {fds : Descriptors} {fd n old new limit : Nat} {descriptor : Descriptor}

@[simp] theorem install_apply :
    fds.install fd descriptor n = if n = fd then some descriptor else fds n := rfl

@[simp] theorem close_apply : fds.close fd n = if n = fd then none else fds n := rfl

/-- Closing what was opened leaves the descriptors as they were. -/
theorem close_install (hfree : fds fd = none) : (fds.install fd descriptor).close fd = fds := by
  funext n
  rw [close_apply, install_apply]
  by_cases hn : n = fd
  · rw [if_pos hn, hn, hfree]
  · rw [if_neg hn, if_neg hn]

/-- The last of two descriptors counts. -/
theorem install_install {descriptor' : Descriptor} :
    (fds.install fd descriptor).install fd descriptor' = fds.install fd descriptor' := by
  funext n
  simp only [install_apply]
  split <;> rfl

/-- The lowest descriptor is free, and those below it are not. -/
theorem lowest_some (h : fds.lowest limit = some fd) : fds fd = none ∧ ∀ n < fd, fds n ≠ none := by
  obtain ⟨hfree, i, hi, hfd, hbefore⟩ := List.find?_eq_some_iff_getElem.mp h
  rw [List.getElem_range] at hfd
  subst hfd
  refine ⟨Option.isNone_iff_eq_none.mp hfree, fun n hn hnone => ?_⟩
  have hopen := hbefore n hn
  rw [List.getElem_range, hnone] at hopen
  cases hopen

/-- A path is opened on the lowest descriptor. -/
theorem openPath_some {succeeds : Bool} {fds' : Descriptors}
    (h : fds.openPath limit succeeds descriptor = some (fd, fds')) :
    fds fd = none ∧ (∀ n < fd, fds n ≠ none) ∧ fds' = fds.install fd descriptor := by
  rw [openPath] at h
  split at h
  · obtain ⟨fd', hlowest, heq⟩ := Option.map_eq_some_iff.mp h
    cases heq
    obtain ⟨hfree, hbelow⟩ := lowest_some hlowest
    exact ⟨hfree, hbelow, rfl⟩
  · cases h

theorem dup2_self : fds.dup2 fd fd = fds := if_pos rfl

/-- Another descriptor is replaced, without `FD_CLOEXEC`. -/
theorem dup2_apply (hne : old ≠ new) (hold : fds old = some descriptor) :
    fds.dup2 old new n = if n = new then some ⟨descriptor.file, false⟩ else fds n := by
  rw [dup2, if_neg hne, hold]
  rfl

/-- No other descriptor than the new one is changed. -/
theorem dup2_ne (h : n ≠ new) : fds.dup2 old new n = fds n := by
  by_cases hne : old = new
  · rw [hne, dup2_self]
  · cases hold : fds old with
    | none => rw [dup2, if_neg hne, hold]
    | some descriptor => rw [dup2_apply hne hold, if_neg h]

theorem exec_some : fds.exec fd = some descriptor ↔
    fds fd = some descriptor ∧ descriptor.cloexec = false := by
  rw [exec, Option.filter_eq_some_iff, Bool.not_eq_eq_eq_not, Bool.not_true]

theorem exec_none : fds.exec fd = none ↔
    ∀ descriptor, fds fd = some descriptor → descriptor.cloexec = true := by
  rw [exec, Option.filter_eq_none_iff]
  simp

end Descriptors

end Cyberd
