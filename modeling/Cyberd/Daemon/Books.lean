import Cyberd.Daemon.Heap
import Cyberd.Daemon.Merge

/-!
# What the storage owns, and what it leaks

The books of the storage: its daemons with their configurations, and the strings that
are allocated but that nothing points to anymore. Every load and every reload is an entry
in the books, whichever allocations fail. Nothing else is ever allocated: the only
strings that leak are the paths of the descriptors of configurations that were discarded.
-/

namespace Cyberd

open Library Library.Memory

/-- A daemon, by its name and its configuration. -/
abbrev BookedDaemon : Type := Name × DaemonConf

/-- The books of the storage. -/
structure Books where
  /-- The daemons that were not found again yet, during a reload. -/
  olddaemons : List BookedDaemon
  /-- The daemons of the storage. -/
  daemons : List BookedDaemon
  /-- The strings that nothing points to anymore. -/
  leaked : List Name

namespace Books

/-- A configuration is read for a new daemon, which is destroyed without a path. -/
def load (b : Books) (name : Name) (conf : DaemonConf) : Books :=
  if conf.path = none then { b with leaked := b.leaked ++ conf.unfreed }
  else { b with daemons := b.daemons ++ [(name, conf)] }

/-- A configuration is read for a daemon that has one. Without a path it is discarded,
otherwise the one before it is. -/
def replace (b : Books) (name : Name) (old conf : DaemonConf) : Books where
  olddaemons := b.olddaemons.eraseP fun daemon => daemon.1 = name
  daemons := b.daemons ++ [(name, if conf.path = none then old else conf)]
  leaked := b.leaked ++ (if conf.path = none then conf else old).unfreed

/-- A configuration is read for the daemon of a name. -/
def reload (b : Books) (name : Name) (conf : DaemonConf) : Books :=
  match b.olddaemons.find? fun daemon => daemon.1 = name with
  | none => b.load name conf
  | some old => b.replace name old.2 conf

/-- The daemons that were not found again are destroyed. -/
def destroy (b : Books) : Books :=
  { b with
    olddaemons := [], leaked := b.leaked ++ b.olddaemons.flatMap fun daemon => daemon.2.unfreed }

/-- A reload begins. -/
def begin (b : Books) : Books := { b with olddaemons := b.daemons, daemons := [] }

/-- Nothing was loaded. -/
def empty : Books := ⟨[], [], []⟩

end Books

/-- The configuration that is read from a stream, when `n` allocations fail meanwhile. -/
def Stream.Reads (host : Host) (filep : Stream) (n : Nat) (conf : DaemonConf) : Prop :=
  ∃ values, handedValues host filep.before filep.content = .ok values ∧
    Remains host values (daemonConfInit host) n conf

/-- The entry of `configuration_load_daemon`. -/
inductive LoadsDaemon (host : Host) (name : Name) (filep : Stream) (b : Books) :
    Nat → Books → Prop
  /-- The daemon could not be created. -/
  | missing : LoadsDaemon host name filep b 1 b
  /-- Its configuration is read. -/
  | read (n : Nat) (conf : DaemonConf) (h : filep.Reads host n conf) :
      LoadsDaemon host name filep b n (b.load name conf)

/-- The entry of `configuration_reload_daemon`. -/
inductive ReloadsDaemon (host : Host) (name : Name) (filep : Stream) (b : Books) :
    Nat → Books → Prop
  /-- The daemon is a new one, which could not be created. -/
  | missing (hnew : b.olddaemons.find? (fun daemon => daemon.1 = name) = none) :
      ReloadsDaemon host name filep b 1 b
  /-- Its configuration is read. -/
  | read (n : Nat) (conf : DaemonConf) (h : filep.Reads host n conf) :
      ReloadsDaemon host name filep b n (b.reload name conf)

/-- The entry that the function makes, unless the directory entry is skipped. -/
def EntryOf (entered : Name → Stream → Books → Nat → Books → Prop) (entry : DirEntry) (b : Books)
    (n : Nat) (b' : Books) : Prop :=
  match entry.stream with
  | none => n = 0 ∧ b' = b
  | some filep => entered entry.name filep b n b'

/-- The entries of `configuration_load`. -/
def LoadsAll (host : Host) (dirp : Option Directory) (b : Books) (n : Nat) (b' : Books) : Prop :=
  match dirp with
  | none => n = 0 ∧ b' = b
  | some dir => Counted (EntryOf (LoadsDaemon host)) dir.read b n b'

/-- The entries of `configuration_reload`. -/
def ReloadsAll (host : Host) (dirp : Option Directory) (b : Books) (n : Nat) (b' : Books) : Prop :=
  match dirp with
  | none => n = 0 ∧ b' = b
  | some dir => ∃ b'', Counted (EntryOf (ReloadsDaemon host)) dir.read b.begin n b'' ∧
      b' = b''.destroy

/-- The entries of the first load and of the reloads after it. -/
def RunsTo (host : Host) (dirp : Option Directory) (reloads : List (Option Directory)) (n : Nat)
    (b : Books) : Prop :=
  ∃ b' n' n'', LoadsAll host dirp .empty n' b' ∧ Counted (ReloadsAll host) reloads b' n'' b ∧
    n = n' + n''

/-- The configuration that is read from a stream when no allocation fails. -/
def Stream.record (host : Host) (filep : Stream) : DaemonConf :=
  ((handedValues host filep.before filep.content).toOption.getD []).foldl
    (HandedValue.parse host) (daemonConfInit host)

/-- The entry that the function makes when no allocation fails. -/
def Books.enter (host : Host) (entered : Books → Name → DaemonConf → Books) (b : Books)
    (entry : DirEntry) : Books :=
  match entry.stream with
  | none => b
  | some filep => entered b entry.name (filep.record host)

/-- The entries of `configuration_load` when no allocation fails. -/
def Books.loadAll (host : Host) (b : Books) (dirp : Option Directory) : Books :=
  match dirp with
  | none => b
  | some dir => dir.read.foldl (Books.enter host Books.load) b

/-- The entries of `configuration_reload` when no allocation fails. -/
def Books.reloadAll (host : Host) (b : Books) (dirp : Option Directory) : Books :=
  match dirp with
  | none => b
  | some dir => (dir.read.foldl (Books.enter host Books.reload) b.begin).destroy

/-- What a daemon owns. -/
def DaemonAt (a : Nat) (daemon : BookedDaemon) (blocks : Blocks) : Prop :=
  ∃ (str : Nat) (p : StoredConf) (own : Blocks), p.Represents daemon.2 own ∧
    blocks = {(a, .daemon (some ⟨some str, p⟩))} + ({(str, .string daemon.1)} + own)

/-- What some daemons own. -/
def DaemonsAt : List Nat → List BookedDaemon → Blocks → Prop
  | [], [], blocks => blocks = 0
  | a :: as, daemon :: daemons, blocks => ∃ own other, blocks = own + other ∧
      DaemonAt a daemon own ∧ DaemonsAt as daemons other
  | _, _, _ => False

/-- What the storage owns, and what it has leaked. -/
def Books.At (b : Books) (olddaemons daemons : List Nat) (blocks : Blocks) : Prop :=
  Divided [DaemonsAt olddaemons b.olddaemons, DaemonsAt daemons b.daemons, Strings b.leaked] blocks

variable {stop : Trap → Prop} {host : Host} {name : Name} {filep : Stream} {a : Nat}
  {daemon : BookedDaemon} {b : Books} {olddaemons daemons : List Nat} {blocks blocks' : Blocks}
  {booked : List BookedDaemon}

/-- One more daemon. -/
theorem DaemonsAt.append (h : DaemonsAt daemons booked blocks) (hd : DaemonAt a daemon blocks') :
    DaemonsAt (daemons ++ [a]) (booked ++ [daemon]) (blocks + blocks') := by
  induction daemons generalizing booked blocks with
  | nil =>
    cases booked with
    | nil =>
      obtain rfl : blocks = 0 := h
      exact ⟨blocks', 0, add_comm _ _, hd, rfl⟩
    | cons daemon' booked => exact h.elim
  | cons a' daemons ih =>
    cases booked with
    | nil => exact h.elim
    | cons daemon' booked =>
      obtain ⟨own, other, rfl, hown, hother⟩ := h
      exact ⟨own, other + blocks', add_assoc _ _ _, hown, ih hother⟩

namespace Books

/-- A daemon is stored. -/
theorem At.insert (h : b.At olddaemons daemons blocks) (hd : DaemonAt a daemon blocks') :
    { b with daemons := b.daemons ++ [daemon] }.At olddaemons (daemons ++ [a])
      (blocks' + blocks) := by
  obtain ⟨old, _, rfl, hold, new, rest, rfl, hnew, hrest⟩ := h
  refine ⟨old, _, add_left_comm _ _ _, hold, new + blocks', rest, ?_, hnew.append hd, hrest⟩
  rw [← add_assoc, add_comm new]

end Books

/-- Between two reloads there are no old daemons. -/
theorem Books.At.settled (h : b.At [] daemons blocks) :
    Divided [DaemonsAt daemons b.daemons, Strings b.leaked] blocks := by
  obtain ⟨old, rest, rfl, hold, hrest⟩ := h
  have hnone : old = 0 := by
    cases hbooked : b.olddaemons with
    | nil =>
      rw [hbooked] at hold
      exact hold
    | cons daemon booked =>
      rw [hbooked] at hold
      exact hold.elim
  rw [hnone, zero_add]
  exact hrest

/-- The daemons of the storage become the old ones. -/
theorem Books.At.begin (h : b.At [] daemons blocks) : b.begin.At daemons [] blocks := by
  obtain ⟨new, rest, rfl, hnew, hrest⟩ := h.settled
  exact ⟨new, rest, rfl, hnew, 0, rest, (zero_add _).symm, rfl, hrest⟩

/-- Without failures a daemon has the configuration of its file. -/
theorem Stream.Reads.zero {conf : DaemonConf} (h : filep.Reads host 0 conf) :
    conf = filep.record host := by
  obtain ⟨values, hvalues, hremains⟩ := h
  rw [Stream.record, hvalues]
  exact remains_zero.mp hremains

/-- Without failures the entries of a directory are those of its files. -/
theorem EntryOf.zero {entered : Name → Stream → Books → Nat → Books → Prop}
    {f : Books → Name → DaemonConf → Books} {entry : DirEntry} {b' : Books}
    (hf : ∀ filep b', entered entry.name filep b 0 b' → b' = f b entry.name (filep.record host))
    (h : EntryOf entered entry b 0 b') : b' = Books.enter host f b entry := by
  unfold EntryOf at h
  unfold Books.enter
  cases hstream : entry.stream with
  | none =>
    rw [hstream] at h
    exact h.2
  | some filep =>
    rw [hstream] at h
    exact hf filep b' h

/-- Without failures the books are those of the files. -/
theorem RunsTo.zero {dirp : Option Directory} {reloads : List (Option Directory)}
    (h : RunsTo host dirp reloads 0 b) :
    b = reloads.foldl (Books.reloadAll host) (Books.loadAll host .empty dirp) := by
  obtain ⟨b', n', n'', hload, hreloads, hsum⟩ := h
  obtain ⟨rfl, rfl⟩ : n' = 0 ∧ n'' = 0 := by omega
  have hb' : b' = Books.loadAll host .empty dirp := by
    cases dirp with
    | none => exact hload.2
    | some dir =>
      refine Counted.zero (fun entry _ b b' hentry => hentry.zero fun filep b'' hloads => ?_) hload
      cases hloads with
      | read _ conf hreads => rw [hreads.zero]
  rw [← hb']
  refine Counted.zero (fun dirp _ b b'' hreload => ?_) hreloads
  cases dirp with
  | none => exact hreload.2
  | some dir =>
    obtain ⟨b₁, hcounted, rfl⟩ := hreload
    refine congrArg Books.destroy (Counted.zero
      (fun entry _ b b' hentry => hentry.zero fun filep b'' hreloads => ?_) hcounted)
    cases hreloads with
    | read _ conf hreads => rw [hreads.zero]

end Cyberd
