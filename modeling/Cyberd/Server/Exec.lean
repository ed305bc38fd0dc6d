import Cyberd.Conf.Values
import Cyberd.Server.Descriptors

/-!
# The descriptors of a daemon

A child opens the standard streams of its daemon on the lowest descriptors that are free,
and then replaces its first three ones. Which descriptors it is left with only depends on
those that it was forked with.
-/

namespace Cyberd

open Library

/-- What the system answers to a child that sets itself up. -/
structure ChildAnswers where
  /-- `RLIMIT_NOFILE` -/
  limit : Nat
  /-- The standard streams that can be opened. -/
  opens : Standard → Bool
  /-- Every further call succeeds. -/
  succeeds : Bool

/-- The file of a standard stream, `/dev/null` (`CONFIG_DAEMON_DEV_NULL`) by default. The
default of the standard error is the standard output. -/
def DaemonConf.standard (devNull : Name) (conf : DaemonConf) : Standard → File
  | .stdin => .standard .stdin (conf.stdin.getD devNull)
  | .stdout => .standard .stdout (conf.stdout.getD devNull)
  | .stderr =>
    match conf.stderr with
    | some path => .standard .stderr path
    | none => .standard .stdout (conf.stdout.getD devNull)

/-- `errfd` of `daemon_child_setup`, a duplicate of `outfd` by default. -/
def openErrfd (answers : ChildAnswers) (conf : DaemonConf) (outfd : Fd) (fds : Descriptors) :
    Option (Fd × Descriptors) :=
  match conf.stderr with
  | some stderr =>
    fds.openPath answers.limit (answers.opens .stderr) ⟨.standard .stderr stderr, true⟩
  | none => some (outfd, fds)

/-- `daemon_child_setup` up to `execve(2)`, none when it exits before. -/
def daemonChildSetup (devNull : Name) (answers : ChildAnswers) (conf : DaemonConf)
    (fds : Descriptors) : Option Descriptors := do
  let stdin := conf.stdin.getD devNull
  let stdout := conf.stdout.getD devNull
  let (infd, fds) ←
    fds.openPath answers.limit (answers.opens .stdin) ⟨.standard .stdin stdin, true⟩
  let (outfd, fds) ←
    fds.openPath answers.limit (answers.opens .stdout) ⟨.standard .stdout stdout, true⟩
  let (errfd, fds) ← openErrfd answers conf outfd fds
  let fds := fds.dup2 infd 0
  let fds := fds.dup2 outfd 1
  let fds := fds.dup2 errfd 2
  if answers.succeeds then some fds else none

/-- The descriptors that a daemon is meant to have: its standard streams and no other. -/
def DaemonConf.descriptors (devNull : Name) (conf : DaemonConf) : Descriptors
  | 0 => some ⟨conf.standard devNull .stdin, false⟩
  | 1 => some ⟨conf.standard devNull .stdout, false⟩
  | 2 => some ⟨conf.standard devNull .stderr, false⟩
  | _ + 3 => none

/-- Beyond the standard streams, only the configurations are not closed on exec. -/
def Descriptors.Guarded (fds : Descriptors) : Prop :=
  ∀ fd descriptor, 3 ≤ fd → fds fd = some descriptor →
    (descriptor.cloexec = false ↔ ∃ name, descriptor.file = .configuration name)

/-- The daemon is not forked with a configuration beyond the standard streams, the
descriptor 0 is open, and so is 1 or 2 unless the standard error is configured. -/
structure Descriptors.Sealed (fds : Descriptors) (conf : DaemonConf) : Prop where
  /-- No configuration is open beyond the standard streams. -/
  configuration : ∀ fd descriptor name, 3 ≤ fd → fds fd = some descriptor →
    descriptor.file ≠ .configuration name
  /-- The descriptor 0 is not taken by the standard input that is opened. -/
  stdin : fds 0 ≠ none
  /-- The descriptor 2 is not taken by the standard output that is opened, which the
  standard error would be a duplicate of. -/
  stderr : fds 1 ≠ none ∨ fds 2 ≠ none ∨ conf.stderr ≠ none

variable {fds fds' : Descriptors} {devNull : Name} {conf : DaemonConf} {answers : ChildAnswers}

/-- A further call that fails only matters at the end. -/
theorem daemonChildSetup_succeeds (devNull : Name) (answers : ChildAnswers) (conf : DaemonConf)
    (fds : Descriptors) :
    daemonChildSetup devNull answers conf fds =
      if answers.succeeds then
        daemonChildSetup devNull ⟨answers.limit, answers.opens, true⟩ conf fds
      else none := by
  obtain ⟨limit, opens, succeeds⟩ := answers
  cases succeeds with
  | true => rfl
  | false => simp [daemonChildSetup]

/-- The descriptors on which a child has opened the standard streams. -/
structure Streams (devNull : Name) (conf : DaemonConf) (fds : Descriptors)
    (infd outfd errfd : Nat) (opened : Descriptors) : Prop where
  /-- The standard input took the lowest free descriptor. -/
  stdin : fds infd = none ∧ ∀ n < infd, fds n ≠ none
  /-- The standard output took the next one. -/
  stdout : infd < outfd ∧ fds outfd = none ∧ ∀ n, infd < n → n < outfd → fds n ≠ none
  /-- The standard error took another one if it is configured, and none otherwise. -/
  stderr : if conf.stderr = none then errfd = outfd else outfd < errfd ∧ fds errfd = none
  /-- The files are those of the configuration. -/
  files : opened infd = some ⟨conf.standard devNull .stdin, true⟩ ∧
    opened outfd = some ⟨conf.standard devNull .stdout, true⟩ ∧
    opened errfd = some ⟨conf.standard devNull .stderr, true⟩
  /-- The other descriptors are the same. -/
  others : ∀ n, n ≠ infd → n ≠ outfd → n ≠ errfd → opened n = fds n

/-- A descriptor that is free after another one was opened comes after it. -/
theorem Descriptors.lt_of_free {fd fd' : Nat} {descriptor : Descriptor}
    (hbelow : ∀ n < fd, fds n ≠ none) (hfree : fds.install fd descriptor fd' = none) :
    fd < fd' ∧ fds fd' = none := by
  rw [install_apply] at hfree
  split at hfree
  · cases hfree
  · rename_i hne
    refine ⟨?_, hfree⟩
    by_contra hle
    exact hbelow fd' (by omega) hfree

/-- A child reaches `execve(2)` by the three descriptors that it has opened. -/
theorem daemonChildSetup_streams (h : daemonChildSetup devNull answers conf fds = some fds') :
    ∃ infd outfd errfd opened, Streams devNull conf fds infd outfd errfd opened ∧
      fds' = ((opened.dup2 infd 0).dup2 outfd 1).dup2 errfd 2 := by
  simp only [daemonChildSetup, Option.bind_eq_bind, Option.bind_eq_some_iff] at h
  obtain ⟨⟨infd, fds₁⟩, hin, ⟨outfd, fds₂⟩, hout, ⟨errfd, fds₃⟩, herr, h⟩ := h
  simp only at hout herr h
  obtain ⟨hinfree, hinbelow, rfl⟩ := Descriptors.openPath_some hin
  obtain ⟨houtfree, houtbelow, rfl⟩ := Descriptors.openPath_some hout
  obtain ⟨hlt, houtfree'⟩ := Descriptors.lt_of_free hinbelow houtfree
  have hbetween : ∀ n, infd < n → n < outfd → fds n ≠ none := by
    intro n hn hn'
    have hopen := houtbelow n hn'
    rwa [Descriptors.install_apply, if_neg hn.ne'] at hopen
  have hfds' : fds' = ((fds₃.dup2 infd 0).dup2 outfd 1).dup2 errfd 2 := by
    split at h
    · exact (Option.some.inj h).symm
    · cases h
  refine ⟨infd, outfd, errfd, fds₃, ?_, hfds'⟩
  rw [openErrfd] at herr
  cases hconf : conf.stderr with
  | none =>
    rw [hconf] at herr
    cases herr
    refine ⟨⟨hinfree, hinbelow⟩, ⟨hlt, houtfree', hbetween⟩, by simp [hconf], ⟨?_, ?_, ?_⟩,
      fun n hnin hnout _ => ?_⟩
    · simp [DaemonConf.standard, hlt.ne]
    · simp [DaemonConf.standard]
    · simp [DaemonConf.standard, hconf]
    · simp [hnin, hnout]
  | some path =>
    rw [hconf] at herr
    obtain ⟨herrfree, -, rfl⟩ := Descriptors.openPath_some herr
    obtain ⟨hlt', herrfree'⟩ := Descriptors.lt_of_free houtbelow herrfree
    rw [Descriptors.install_apply, if_neg (by omega)] at herrfree'
    refine ⟨⟨hinfree, hinbelow⟩, ⟨hlt, houtfree', hbetween⟩, ?_, ⟨?_, ?_, ?_⟩,
      fun n hnin hnout hnerr => ?_⟩
    · simp [hconf, hlt', herrfree']
    · simp [DaemonConf.standard, hlt.ne, (hlt.trans hlt').ne]
    · simp [DaemonConf.standard, hlt'.ne]
    · simp [DaemonConf.standard, hconf]
    · simp [hnin, hnout, hnerr]

namespace Streams

variable {infd outfd errfd : Nat} {opened : Descriptors}

/-- The descriptors at `execve(2)`. -/
def replaced (opened : Descriptors) (infd outfd errfd : Fd) : Descriptors :=
  ((opened.dup2 infd 0).dup2 outfd 1).dup2 errfd 2

/-- Beyond the standard streams, what is left open is what was not closed on exec. -/
theorem exec_beyond (h : Streams devNull conf fds infd outfd errfd opened) {n : Nat} (hn : 3 ≤ n) :
    (replaced opened infd outfd errfd).exec n = fds.exec n := by
  have hopened : replaced opened infd outfd errfd n = opened n := by
    rw [replaced, Descriptors.dup2_ne (by omega), Descriptors.dup2_ne (by omega),
      Descriptors.dup2_ne (by omega)]
  -- A standard stream that was opened there is closed, and nothing was open before.
  have hstream : ∀ {fd : Nat} {stream : Standard}, fds fd = none →
      opened fd = some ⟨conf.standard devNull stream, true⟩ → n = fd →
      (replaced opened infd outfd errfd).exec n = fds.exec n := by
    rintro fd stream hfree hfile rfl
    have hafter : (replaced opened infd outfd errfd).exec n = none := by
      rw [Descriptors.exec_none, hopened, hfile]
      rintro descriptor ⟨⟩
      rfl
    have hbefore : fds.exec n = none := by
      rw [Descriptors.exec_none, hfree]
      intro descriptor hd
      cases hd
    rw [hafter, hbefore]
  by_cases hin : n = infd
  · exact hstream h.stdin.1 h.files.1 hin
  by_cases hout : n = outfd
  · exact hstream h.stdout.2.1 h.files.2.1 hout
  by_cases herr : n = errfd
  · refine hstream ?_ h.files.2.2 herr
    have herrfd := h.stderr
    split at herrfd
    · rw [herrfd]
      exact h.stdout.2.1
    · exact herrfd.2
  · rw [Descriptors.exec, hopened, h.others n hin hout herr]
    rfl

/-- The standard input is left open when the descriptor 0 was. -/
theorem exec_zero (h : Streams devNull conf fds infd outfd errfd opened) :
    (replaced opened infd outfd errfd).exec 0 =
      if infd = 0 then none else some ⟨conf.standard devNull .stdin, false⟩ := by
  have hreplaced : replaced opened infd outfd errfd 0 = opened.dup2 infd 0 0 := by
    rw [replaced, Descriptors.dup2_ne (by decide), Descriptors.dup2_ne (by decide)]
  split
  · rename_i hin
    have hfile := h.files.1
    rw [Descriptors.exec_none, hreplaced, hin, Descriptors.dup2_self]
    rw [hin] at hfile
    rw [hfile]
    rintro descriptor ⟨⟩
    rfl
  · rename_i hin
    rw [Descriptors.exec_some, hreplaced, Descriptors.dup2_apply hin h.files.1, if_pos rfl]
    exact ⟨rfl, rfl⟩

/-- The standard output is left open when the standard input was opened beyond 0. -/
theorem exec_one (h : Streams devNull conf fds infd outfd errfd opened) (hin : infd ≠ 0) :
    (replaced opened infd outfd errfd).exec 1 =
      some ⟨conf.standard devNull .stdout, false⟩ := by
  have hlt := h.stdout.1
  have hfile : opened.dup2 infd 0 outfd = some ⟨conf.standard devNull .stdout, true⟩ := by
    rw [Descriptors.dup2_ne (by omega)]
    exact h.files.2.1
  rw [Descriptors.exec_some, replaced, Descriptors.dup2_ne (by decide),
    Descriptors.dup2_apply (by omega) hfile, if_pos rfl]
  exact ⟨rfl, rfl⟩

/-- The standard error is left open unless it is opened on its own descriptor. -/
theorem exec_two (h : Streams devNull conf fds infd outfd errfd opened) (hin : infd ≠ 0) :
    (replaced opened infd outfd errfd).exec 2 =
      if errfd = 2 then none else some ⟨conf.standard devNull .stderr, false⟩ := by
  have hlt := h.stdout.1
  have hge : outfd ≤ errfd := by
    have herrfd := h.stderr
    split at herrfd
    · exact herrfd.ge
    · exact herrfd.1.le
  have hfile : (opened.dup2 infd 0).dup2 outfd 1 errfd =
      some ⟨conf.standard devNull .stderr, true⟩ := by
    rw [Descriptors.dup2_ne (by omega), Descriptors.dup2_ne (by omega)]
    exact h.files.2.2
  split
  · rename_i herr
    rw [Descriptors.exec_none, replaced, herr, Descriptors.dup2_self]
    rw [herr] at hfile
    rw [hfile]
    rintro descriptor ⟨⟩
    rfl
  · rename_i herr
    rw [Descriptors.exec_some, replaced, Descriptors.dup2_apply herr hfile, if_pos rfl]
    exact ⟨rfl, rfl⟩

/-- The standard input is opened on 0 exactly when 0 is free. -/
theorem infd_eq_zero (h : Streams devNull conf fds infd outfd errfd opened) :
    infd = 0 ↔ fds 0 = none := by
  constructor
  · rintro rfl
    exact h.stdin.1
  · intro hfree
    by_contra hne
    exact h.stdin.2 0 (by omega) hfree

/-- The standard error is opened on 2 exactly when it is a duplicate of a standard output
that is opened there, as 1 and 2 are free. -/
theorem errfd_eq_two (h : Streams devNull conf fds infd outfd errfd opened) (hin : infd ≠ 0) :
    errfd = 2 ↔ fds 1 = none ∧ fds 2 = none ∧ conf.stderr = none := by
  have hlt := h.stdout.1
  have herrfd := h.stderr
  constructor
  · rintro rfl
    split at herrfd
    · rename_i hconf
      have hone : infd = 1 := by omega
      refine ⟨hone ▸ h.stdin.1, herrfd ▸ h.stdout.2.1, hconf⟩
    · omega
  · rintro ⟨hone, htwo, hconf⟩
    rw [if_pos hconf] at herrfd
    rw [herrfd]
    have hin' : infd = 1 := by
      by_contra hne
      exact h.stdin.2 1 (by omega) hone
    by_contra hne
    exact h.stdout.2.2 2 (by omega) (by omega) htwo

end Streams

/-- When guarded descriptors are forked, the daemon is left with its standard streams only
exactly when the fork is sealed. -/
theorem daemonChildSetup_iff (hguarded : fds.Guarded)
    (h : daemonChildSetup devNull answers conf fds = some fds') :
    fds'.exec = conf.descriptors devNull ↔ fds.Sealed conf := by
  obtain ⟨infd, outfd, errfd, opened, hstreams, rfl⟩ := daemonChildSetup_streams h
  constructor
  · intro hexec
    have hin : infd ≠ 0 := by
      intro hin
      have hzero := congrFun hexec 0
      rw [← Streams.replaced, hstreams.exec_zero, if_pos hin] at hzero
      cases hzero
    refine ⟨fun fd descriptor name hfd hopen hfile => ?_, ?_, ?_⟩
    · have hbeyond := congrFun hexec fd
      obtain ⟨k, rfl⟩ := Nat.exists_eq_add_of_le' hfd
      rw [← Streams.replaced, hstreams.exec_beyond hfd] at hbeyond
      have hcloexec := (hguarded _ descriptor hfd hopen).mpr ⟨name, hfile⟩
      rw [Descriptors.exec_some.mpr ⟨hopen, hcloexec⟩] at hbeyond
      cases hbeyond
    · exact fun hfree => hin (hstreams.infd_eq_zero.mpr hfree)
    · by_contra hopen
      push Not at hopen
      have htwo := congrFun hexec 2
      rw [← Streams.replaced, hstreams.exec_two hin,
        if_pos ((hstreams.errfd_eq_two hin).mpr hopen)] at htwo
      cases htwo
  · intro hsealed
    have hin : infd ≠ 0 := fun hin => hsealed.stdin (hstreams.infd_eq_zero.mp hin)
    have herr : errfd ≠ 2 := by
      intro herr
      obtain ⟨hone, htwo, hconf⟩ := (hstreams.errfd_eq_two hin).mp herr
      rcases hsealed.stderr with hopen | hopen | hopen
      · exact hopen hone
      · exact hopen htwo
      · exact hopen hconf
    funext fd
    rw [← Streams.replaced]
    match fd with
    | 0 => rw [hstreams.exec_zero, if_neg hin]; rfl
    | 1 => rw [hstreams.exec_one hin]; rfl
    | 2 => rw [hstreams.exec_two hin, if_neg herr]; rfl
    | k + 3 =>
      have hbeyond : 3 ≤ k + 3 := Nat.le_add_left 3 k
      rw [hstreams.exec_beyond hbeyond, DaemonConf.descriptors, Descriptors.exec_none]
      intro descriptor hopen
      have hguard := hguarded _ descriptor hbeyond hopen
      cases hcloexec : descriptor.cloexec with
      | true => rfl
      | false =>
        obtain ⟨name, hfile⟩ := hguard.mp hcloexec
        exact absurd hfile (hsealed.configuration _ descriptor name hbeyond hopen)

end Cyberd
