import Cyberd.Conf.Expanded
import Cyberd.Conf.Fields

/-!
# The record and its copies

The pointers of a record own the copies of its values, each its own one. A value
parser replaces the copies of its field, or one of its allocations fails and it
keeps them all. So a file is read as if the values whose parser ran out of memory
were missing from it.
-/

namespace Cyberd

open Library Library.Memory

/-- The fields that are not pointers are those of another record. -/
def DaemonConf.assign (conf scalars : DaemonConf) : DaemonConf :=
  { conf with
    sigfinish := scalars.sigfinish, sigreload := scalars.sigreload, uid := scalars.uid,
    gid := scalars.gid, nosid := scalars.nosid, umask := scalars.umask,
    priority := scalars.priority, start := scalars.start }

/-- What the pointers of a record own. -/
def StoredConf.parts (p : StoredConf) (c : DaemonConf) : List (Blocks → Prop) :=
  [StringAt p.path c.path, ListAt p.arguments c.arguments, ListAt p.environment c.environment,
    StringAt p.workdir c.workdir, StringAt p.stdin c.stdin, StringAt p.stdout c.stdout,
    StringAt p.stderr c.stderr]

/-- The record has the values of the plain one, of which it owns the copies. -/
structure StoredConf.Represents (p : StoredConf) (c : DaemonConf) (blocks : Blocks) : Prop where
  /-- The fields that are not pointers. -/
  scalars : p.scalars = c.scalars
  /-- The other fields. -/
  parts : Divided (p.parts c) blocks

variable {stop : Trap → Prop} {p : StoredConf} {c : DaemonConf} {blocks : Blocks}
  {host : Host}

end Cyberd
