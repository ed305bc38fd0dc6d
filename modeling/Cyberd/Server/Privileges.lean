import Cyberd.Conf.Grammar
import Cyberd.Library.Credentials
import Cyberd.Server.Exec

/-!
# The credentials of a daemon

A child gives up its user id before it changes its group id and its priority. A
daemon that does not run as root keeps the group that its child was forked with,
and is never given a lower nice value.
-/

namespace Cyberd

open Library

/-- What the system answers to the calls of `daemon_child_setup` that do not depend on
the credentials. -/
structure ChildCalls where
  /-- `RLIMIT_NOFILE` -/
  limit : Nat
  /-- The standard streams that can be opened. -/
  opens : Standard → Bool
  /-- `chdir(2)` to a directory succeeds. -/
  chdir : Name → Bool
  /-- `daemon_child_sigprocmask` succeeds. -/
  sigprocmask : Bool

/-- A child that has just been forked. -/
structure ForkedChild where
  /-- Its descriptors. -/
  fds : Descriptors
  /-- Its ids and its priority. -/
  credentials : Credentials

/-- A process about to call `execve(2)`, with the arguments of the call. -/
structure ExecImage where
  /-- The program. -/
  path : Option Name
  /-- Its arguments. -/
  argv : List Name
  /-- Its environment. -/
  envp : List Name
  /-- The descriptors of the process. -/
  fds : Descriptors
  /-- Its file mode creation mask. -/
  umask : Nat
  /-- Its working directory. -/
  workdir : Name
  /-- Its ids and its priority. -/
  credentials : Credentials

/-- `!conf->nosid && setsid() < 0` -/
def daemonChildSetsid (conf : DaemonConf) (c : Credentials) : Option Credentials :=
  if conf.nosid then some c else c.setsid

/-- The part of `daemon_child_setup` about credentials and scheduling. -/
def daemonChildCredentials (conf : DaemonConf) (c : Credentials) : Option Credentials := do
  let c ← c.setuid conf.uid
  let c ← c.setgid conf.gid
  let c ← daemonChildSetsid conf c
  c.setpriority conf.priority

/-- `daemon_child_setup` up to `execve(2)`, none when it exits before. -/
def daemonChildExec (devNull defaultWorkdir : Name) (calls : ChildCalls) (name : Name)
    (conf : DaemonConf) (child : ForkedChild) : Option ExecImage := do
  let workdir := conf.workdir.getD defaultWorkdir
  let argv := conf.arguments.getD [name]
  let envp := conf.environment.getD []
  let fds ← daemonChildSetup devNull ⟨calls.limit, calls.opens, true⟩ conf child.fds
  if ¬ calls.chdir workdir then none
  else if ¬ calls.sigprocmask then none
  else
    let credentials ← daemonChildCredentials conf child.credentials
    some ⟨conf.path, argv, envp, fds, conf.umask, workdir, credentials⟩

/-- The further calls of a child succeed: those that depend on its credentials too. -/
def ChildCalls.succeed (defaultWorkdir : Name) (calls : ChildCalls) (conf : DaemonConf)
    (c : Credentials) : Bool :=
  calls.chdir (conf.workdir.getD defaultWorkdir) && calls.sigprocmask &&
    (daemonChildCredentials conf c).isSome

variable {devNull defaultWorkdir name : Name} {calls : ChildCalls} {conf : DaemonConf}
  {child : ForkedChild}

/-- What is known of the descriptors of a child holds of every process that calls
`execve(2)`. -/
theorem daemonChildExec_fds :
    (daemonChildExec devNull defaultWorkdir calls name conf child).map ExecImage.fds =
      daemonChildSetup devNull ⟨calls.limit, calls.opens,
        calls.succeed defaultWorkdir conf child.credentials⟩ conf child.fds := by
  rw [daemonChildSetup_succeeds, daemonChildExec, ChildCalls.succeed]
  cases daemonChildSetup devNull ⟨calls.limit, calls.opens, true⟩ conf child.fds with
  | none => simp
  | some fds =>
    cases calls.chdir (conf.workdir.getD defaultWorkdir) with
    | false => rfl
    | true =>
      cases calls.sigprocmask with
      | false => rfl
      | true => cases daemonChildCredentials conf child.credentials <;> rfl

/-- A child with the credentials of root gets those of its configuration when it stays
root, or when it neither changes its group nor lowers its nice value. -/
theorem daemonChildCredentials_root (hpriority : -20 ≤ conf.priority ∧ conf.priority ≤ 19) :
    daemonChildCredentials conf .root =
      if conf.uid = 0 ∨ conf.gid = 0 ∧ 0 ≤ conf.priority then
        some ⟨.all conf.uid, .all conf.gid, conf.priority, !conf.nosid⟩
      else none := by
  rw [daemonChildCredentials, Credentials.setuid_of_privileged (by decide), Option.bind_eq_bind,
    Option.bind_some]
  have hsession : ∀ c : Credentials, c.leader = false →
      daemonChildSetsid conf c = some { c with leader := !conf.nosid } := by
    intro c hc
    rw [daemonChildSetsid, Credentials.setsid_of_follower hc]
    cases conf.nosid
    · rfl
    · simp [← hc]
  by_cases huid : conf.uid = 0
  · rw [if_pos (Or.inl huid), huid, Credentials.setgid_of_privileged (by decide),
      Option.bind_some, hsession _ rfl, Option.bind_some,
      Credentials.setpriority_of_range hpriority, if_neg]
    exact fun hnot => hnot.2 rfl
  · have hunprivileged : ∀ c : Credentials, c.uid = .all conf.uid → c.privileged = false := by
      intro c hc
      rw [Credentials.privileged, hc]
      exact beq_eq_false_iff_ne.mpr huid
    rw [@Credentials.setgid_of_unprivileged _ _ 0 (hunprivileged _ rfl) rfl]
    by_cases hgid : conf.gid = 0
    · rw [if_pos hgid, Option.bind_some, hsession _ rfl, Option.bind_some,
        Credentials.setpriority_of_range hpriority, hunprivileged _ rfl]
      by_cases hlow : 0 ≤ conf.priority
      · rw [if_neg (by simp [Credentials.root, hlow]), if_pos (Or.inr ⟨hgid, hlow⟩), hgid]
        rfl
      · rw [if_pos, if_neg]
        · rintro (h | ⟨-, h⟩)
          · exact huid h
          · exact hlow h
        · exact ⟨Int.not_le.mp hlow, by decide⟩
    · rw [if_neg hgid, if_neg]
      · rfl
      · rintro (h | ⟨h, -⟩)
        · exact huid h
        · exact hgid h

/-- A child reaches `execve(2)` with the credentials of its configuration. -/
def CredentialsApplied (devNull defaultWorkdir : Name) (calls : ChildCalls) (name : Name)
    (conf : DaemonConf) (child : ForkedChild) : Prop :=
  ∃ image, daemonChildExec devNull defaultWorkdir calls name conf child = some image ∧
    image.credentials.uid = .all conf.uid ∧ image.credentials.gid = .all conf.gid ∧
    image.credentials.priority = conf.priority

/-- Of the children of root for which the other calls succeed, those of a daemon that runs
as root get their credentials, and those of one that neither changes its group nor lowers
its nice value. All others exit. -/
theorem credentialsApplied_iff (hpriority : -20 ≤ conf.priority ∧ conf.priority ≤ 19)
    (hopen : (daemonChildSetup devNull ⟨calls.limit, calls.opens, true⟩ conf child.fds).isSome)
    (hchdir : calls.chdir (conf.workdir.getD defaultWorkdir) = true)
    (hmask : calls.sigprocmask = true) (hroot : child.credentials = .root) :
    CredentialsApplied devNull defaultWorkdir calls name conf child ↔
      conf.uid = 0 ∨ conf.gid = 0 ∧ 0 ≤ conf.priority := by
  obtain ⟨fds, hfds⟩ := Option.isSome_iff_exists.mp hopen
  have hexec : daemonChildExec devNull defaultWorkdir calls name conf child =
      (daemonChildCredentials conf .root).map fun credentials =>
        ⟨conf.path, conf.arguments.getD [name], conf.environment.getD [], fds, conf.umask,
          conf.workdir.getD defaultWorkdir, credentials⟩ := by
    rw [daemonChildExec, hfds, hchdir, hmask, hroot]
    cases daemonChildCredentials conf .root <;> rfl
  rw [CredentialsApplied, hexec, daemonChildCredentials_root hpriority]
  split
  · rename_i happlied
    exact iff_of_true ⟨_, rfl, rfl, rfl, rfl⟩ happlied
  · rename_i hnot
    refine iff_of_false ?_ hnot
    rintro ⟨image, himage, -⟩
    cases himage

/-- A system that answers to every call, for a child with its standard streams open. -/
def willingCalls : ChildCalls := ⟨1024, fun _ => true, fun _ => true, true⟩

/-- A child of root, with its standard streams. -/
def rootChild : ForkedChild :=
  ⟨fun fd => if fd < 3 then some ⟨.inherited fd, false⟩ else none, .root⟩

/-- A daemon that runs as root, in another group and with a lower nice value. -/
theorem credentialsApplied_iff_root :
    CredentialsApplied [47, 110] [47] willingCalls [97]
      { daemonConfInit bareHost with gid := 7, priority := -5 } rootChild :=
  (credentialsApplied_iff (by decide) (by decide +kernel) rfl rfl rfl).mpr (Or.inl rfl)

/-- A daemon with a user and a group of its own exits before `execve(2)`. -/
theorem credentialsApplied_fails :
    daemonChildExec [47, 110] [47] willingCalls [97]
      { daemonConfInit bareHost with uid := 1, gid := 1 } rootChild = none ∧
    ¬ CredentialsApplied [47, 110] [47] willingCalls [97]
      { daemonConfInit bareHost with uid := 1, gid := 1 } rootChild := by
  have hexit : (daemonChildExec [47, 110] [47] willingCalls [97]
      { daemonConfInit bareHost with uid := 1, gid := 1 } rootChild).isNone := by decide +kernel
  rw [Option.isNone_iff_eq_none] at hexit
  refine ⟨hexit, ?_⟩
  rintro ⟨image, himage, -⟩
  rw [hexit] at himage
  cases himage

end Cyberd
