import Mathlib.Tactic.Common

/-!
# Process credentials

The ids of a process and its scheduling priority, with the system calls that
change them. A privileged process is one with effective user id 0; what one call
takes away, the following ones cannot count on.
-/

namespace Cyberd.Library

/-- The user ids, or the group ids, of a process. -/
structure Ids where
  /-- Whose process it is. -/
  real : Nat
  /-- Whose rights it has. -/
  effective : Nat
  /-- Whose rights it can take back. -/
  saved : Nat
  deriving DecidableEq, Repr

/-- All three ids are the same. -/
def Ids.all (id : Nat) : Ids := ⟨id, id, id⟩

/-- `setuid(2)` or `setgid(2)`: a privileged process changes all three ids, another one
can only go to an id that it holds as real or saved. -/
def Ids.set (privileged : Bool) (id : Nat) (ids : Ids) : Option Ids :=
  if privileged then some (.all id)
  else if id = ids.real ∨ id = ids.saved then some { ids with effective := id }
  else none

/-- Without privilege, ids that are all the same can only be kept. -/
theorem Ids.set_all (own id : Nat) :
    (Ids.all own).set false id = if id = own then some (.all own) else none := by
  simp only [Ids.set, Ids.all, Bool.false_eq_true, if_false, or_self]
  split
  · rename_i hid
    rw [hid]
  · rfl

/-- What the system calls of this module act on. -/
structure Credentials where
  /-- User ids. -/
  uid : Ids
  /-- Group ids. -/
  gid : Ids
  /-- The nice value. -/
  priority : Int
  /-- Whether the process leads its process group. -/
  leader : Bool
  deriving DecidableEq, Repr

namespace Credentials

/-- The effective user id is 0. -/
def privileged (c : Credentials) : Bool := c.uid.effective == 0

/-- `setuid(2)` -/
def setuid (id : Nat) (c : Credentials) : Option Credentials :=
  (c.uid.set c.privileged id).map fun uid => { c with uid := uid }

/-- `setgid(2)` -/
def setgid (id : Nat) (c : Credentials) : Option Credentials :=
  (c.gid.set c.privileged id).map fun gid => { c with gid := gid }

/-- `setsid(2)`, which no leader of a process group may call. -/
def setsid (c : Credentials) : Option Credentials :=
  if c.leader then none else some { c with leader := true }

/-- `setpriority(2)` of the process itself: the value is brought into the range of nice
values, and only a privileged process lowers it. -/
def setpriority (priority : Int) (c : Credentials) : Option Credentials :=
  let nice := max (-20) (min priority 19)
  if nice < c.priority ∧ ¬ c.privileged then none else some { c with priority := nice }

/-- What a process that root has forked starts with. -/
def root : Credentials := ⟨.all 0, .all 0, 0, false⟩

variable {c c' : Credentials} {id : Nat} {priority : Int}

/-- A privileged process takes any user id, and is unprivileged unless it is 0. -/
theorem setuid_of_privileged (h : c.privileged = true) :
    c.setuid id = some { c with uid := .all id } := by
  rw [setuid, h]
  rfl

/-- A privileged process takes any group id. -/
theorem setgid_of_privileged (h : c.privileged = true) :
    c.setgid id = some { c with gid := .all id } := by
  rw [setgid, h]
  rfl

/-- An unprivileged process whose group ids are all the same can only keep them. -/
theorem setgid_of_unprivileged {gid : Nat} (h : c.privileged = false) (hgid : c.gid = .all gid) :
    c.setgid id = if id = gid then some c else none := by
  rw [setgid, h, hgid, Ids.set_all]
  split
  · rw [Option.map_some, ← hgid]
  · rfl

/-- A process that leads no group starts a session. -/
theorem setsid_of_follower (h : c.leader = false) :
    c.setsid = some { c with leader := true } := by
  rw [setsid, h]
  rfl

/-- A nice value in range is set as it is, unless an unprivileged process lowers it. -/
theorem setpriority_of_range (h : -20 ≤ priority ∧ priority ≤ 19) :
    c.setpriority priority =
      if priority < c.priority ∧ ¬ c.privileged then none
      else some { c with priority := priority } := by
  have hnice : max (-20) (min priority 19) = priority := by omega
  rw [setpriority, hnice]

end Credentials

end Cyberd.Library
