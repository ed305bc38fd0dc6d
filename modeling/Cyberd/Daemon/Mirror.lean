import Cyberd.Daemon.Books
import Cyberd.Daemon.Operations
import Cyberd.Daemon.Reload

/-!
# The daemons of the memory are those of the storage

The storage with its trees keeps the configurations as values. When no allocation
fails, its daemons are those of the books, after any sequence of loads and reloads and
whatever commands and terminated children come between them. So the allocated memory
has a copy of each of their names and values.
-/

namespace Cyberd

open Library Library.Memory

/-- What the books know about a daemon. -/
def Daemon.booked (daemon : Daemon) : BookedDaemon := (daemon.name, daemon.conf)

/-- What the books know about the daemon at an address. -/
def Machine.booked (m : Machine) (a : Addr) : Option BookedDaemon := (m.heap a).map Daemon.booked

/-- The daemons of both memories have the same names and configurations. -/
def Machine.SameBooked (m m' : Machine) : Prop := ∀ a, m'.booked a = m.booked a

/-- The daemons of the books are those of the trees. -/
structure Books.Mirrors (b : Books) (s : TreeNode Addr × World) : Prop where
  /-- The ones of the old tree. -/
  olddaemons : ∀ daemon, daemon ∈ b.olddaemons ↔ ∃ a ∈ s.1.toList, s.2.booked a = some daemon
  /-- The ones of the storage. -/
  daemons : ∀ daemon, daemon ∈ b.daemons ↔
    ∃ a ∈ s.2.daemons.toList, s.2.booked a = some daemon
  /-- No name is in the books twice. -/
  distinct : ((b.olddaemons ++ b.daemons).map Prod.fst).Nodup

namespace Machine

variable {m m' m'' : Machine} {a : Addr} {daemon daemon' : Daemon}

theorem SameBooked.refl (m : Machine) : m.SameBooked m := fun _ => rfl

theorem SameBooked.trans (h : m.SameBooked m') (h' : m'.SameBooked m'') : m.SameBooked m'' :=
  fun a => (h' a).trans (h a)

end Machine

variable {host : Host} {w w' : World} {s s' : TreeNode Addr × World} {b : Books} {a : Addr}
  {entry : DirEntry}

/-- The daemons of the storage are those of the books. -/
abbrev World.Booked (w : World) (b : Books) : Prop := b.Mirrors (.null, w)

/-- What keeps the configurations and the storage keeps the books. -/
theorem Books.Mirrors.congr (h : w.Booked b)
    (hs : w.SameBooked w'.toMachine ∧ w'.daemons = w.daemons) : w'.Booked b := by
  obtain ⟨hbooked, hdaemons⟩ := hs
  refine ⟨fun daemon => ?_, fun daemon => ?_, h.distinct⟩
  · rw [h.olddaemons]
    simp
  · simp only [h.daemons, hdaemons, hbooked _]

/-- The name of a daemon is the one in the books. -/
theorem Machine.booked_name {m : Machine} {daemon : BookedDaemon}
    (h : m.booked a = some daemon) : m.name a = daemon.1 := by
  obtain ⟨d, hheap, rfl⟩ := Option.map_eq_some_iff.mp h
  exact Machine.name_eq hheap

section Trees

variable {m m' : Machine} {l l' : List Addr} {x : Addr} {daemon new : BookedDaemon}

/-- One more daemon is in a tree to which it was added. -/
theorem booked_add (hl : ∀ a, a ∈ l' ↔ a = x ∨ a ∈ l) (hx : m'.booked x = some new)
    (hm : ∀ a ∈ l, m'.booked a = m.booked a) :
    (∃ a ∈ l', m'.booked a = some daemon) ↔
      (∃ a ∈ l, m.booked a = some daemon) ∨ daemon = new := by
  constructor
  · rintro ⟨a, ha, hbooked⟩
    rcases (hl a).mp ha with rfl | ha
    · exact Or.inr (Option.some.inj (hbooked.symm.trans hx))
    · exact Or.inl ⟨a, ha, (hm a ha).symm.trans hbooked⟩
  · rintro (⟨a, ha, hbooked⟩ | rfl)
    · exact ⟨a, (hl a).mpr (Or.inr ha), (hm a ha).trans hbooked⟩
    · exact ⟨x, (hl x).mpr (Or.inl rfl), hx⟩

/-- The daemon of a name is not in a tree anymore from which it was taken. -/
theorem booked_remove (hl : ∀ a, a ∈ l' ↔ a ∈ l ∧ a ≠ x) {name : Name}
    (hx : ∀ a ∈ l, a = x ↔ m.name a = name)
    (hm : ∀ a ∈ l, a ≠ x → m'.booked a = m.booked a) :
    (∃ a ∈ l', m'.booked a = some daemon) ↔
      (∃ a ∈ l, m.booked a = some daemon) ∧ daemon.1 ≠ name := by
  constructor
  · rintro ⟨a, ha, hbooked⟩
    obtain ⟨ha, hne⟩ := (hl a).mp ha
    have hbooked := (hm a ha hne).symm.trans hbooked
    exact ⟨⟨a, ha, hbooked⟩, fun heq => hne ((hx a ha).mpr
      ((Machine.booked_name hbooked).trans heq))⟩
  · rintro ⟨⟨a, ha, hbooked⟩, hname⟩
    have hne : a ≠ x := fun heq => hname
      ((Machine.booked_name hbooked).symm.trans ((hx a ha).mp heq))
    exact ⟨a, (hl a).mpr ⟨ha, hne⟩, (hm a ha hne).trans hbooked⟩

end Trees

/-- The names of the books are different in both of its lists. -/
theorem nodup_parts {olddaemons daemons : List BookedDaemon} :
    ((olddaemons ++ daemons).map Prod.fst).Nodup ↔ (olddaemons.map Prod.fst).Nodup ∧
      (daemons.map Prod.fst).Nodup ∧
        ∀ old ∈ olddaemons, ∀ daemon ∈ daemons, old.1 ≠ daemon.1 := by
  rw [List.map_append, List.nodup_append]
  simp only [List.mem_map, forall_exists_index, and_imp, forall_apply_eq_imp_iff₂]

/-- What remains when the daemon of a name is taken out. -/
theorem mem_eraseP {olddaemons : List BookedDaemon} {name : Name} {daemon : BookedDaemon}
    (h : (olddaemons.map Prod.fst).Nodup) :
    daemon ∈ olddaemons.eraseP (fun daemon => daemon.1 = name) ↔
      daemon ∈ olddaemons ∧ daemon.1 ≠ name := by
  induction olddaemons with
  | nil => simp
  | cons old olddaemons ih =>
    rw [List.map_cons, List.nodup_cons] at h
    by_cases hname : old.1 = name
    · rw [List.eraseP_cons_of_pos (by simpa using hname), List.mem_cons]
      constructor
      · intro hmem
        refine ⟨Or.inr hmem, fun heq => h.1 ?_⟩
        rw [hname, ← heq]
        exact List.mem_map_of_mem hmem
      · rintro ⟨rfl | hmem, hne⟩
        · exact absurd hname hne
        · exact hmem
    · rw [List.eraseP_cons_of_neg (by simpa using hname), List.mem_cons, List.mem_cons, ih h.2]
      constructor
      · rintro (rfl | ⟨hmem, hne⟩)
        · exact ⟨Or.inl rfl, hname⟩
        · exact ⟨Or.inr hmem, hne⟩
      · rintro ⟨rfl | hmem, hne⟩
        · exact Or.inl rfl
        · exact Or.inr ⟨hmem, hne⟩

/-- A daemon is added whose name is new. -/
theorem nodup_add {olddaemons daemons : List BookedDaemon} {name : Name} (conf : DaemonConf)
    (h : ((olddaemons ++ daemons).map Prod.fst).Nodup) (hold : ∀ old ∈ olddaemons, old.1 ≠ name)
    (hnew : ∀ daemon ∈ daemons, daemon.1 ≠ name) :
    ((olddaemons ++ (daemons ++ [(name, conf)])).map Prod.fst).Nodup := by
  rw [← List.append_assoc, List.map_append, List.nodup_append]
  refine ⟨h, List.nodup_singleton _, ?_⟩
  rintro _ hmem _ hname rfl
  obtain ⟨daemon, hdaemon, rfl⟩ := List.mem_map.mp hmem
  have heq : daemon.1 = name := List.mem_singleton.mp hname
  rcases List.mem_append.mp hdaemon with hdaemon | hdaemon
  · exact hold daemon hdaemon heq
  · exact hnew daemon hdaemon heq

/-- The daemon of a name is moved to the other list. -/
theorem nodup_move {olddaemons daemons : List BookedDaemon} {old : BookedDaemon}
    (conf : DaemonConf) (h : ((olddaemons ++ daemons).map Prod.fst).Nodup)
    (hmem : old ∈ olddaemons) :
    ((olddaemons.eraseP (fun daemon => daemon.1 = old.1) ++
      (daemons ++ [(old.1, conf)])).map Prod.fst).Nodup := by
  obtain ⟨hold, -, hapart⟩ := nodup_parts.mp h
  refine nodup_add conf ?_ (fun daemon hdaemon => ((mem_eraseP hold).mp hdaemon).2)
    fun daemon hdaemon => (hapart old hmem daemon hdaemon).symm
  exact h.sublist (((List.eraseP_sublist ..).append_right _).map _)

/-- An old daemon is moved to the storage, with some configuration. -/
theorem Books.Mirrors.move {old old' : TreeNode Addr} (h : b.Mirrors (old, w))
    (hs : Merging (old, w)) {daemon : Daemon} (ha : a ∈ old.toList)
    (hheap : w.heap a = some daemon) (hname : daemon.name = entry.name)
    (hold : ∀ b, b ∈ old'.toList ↔ b ∈ old.toList ∧ b ≠ a)
    (hdaemons : ∀ b, b ∈ w'.daemons.toList ↔ b = a ∨ b ∈ w.daemons.toList) {conf : DaemonConf}
    {leaked : List Name} (hmoved : w'.booked a = some (entry.name, conf))
    (hother : ∀ b, b ≠ a → w'.booked b = w.booked b) :
    Books.Mirrors ⟨b.olddaemons.eraseP fun daemon => daemon.1 = entry.name,
      b.daemons ++ [(entry.name, conf)], leaked⟩ (old', w') := by
  have hmem : daemon.booked ∈ b.olddaemons :=
    (h.olddaemons _).mpr ⟨a, ha, congrArg (Option.map Daemon.booked) hheap⟩
  have hunique : ∀ a' ∈ old.toList, a' = a ↔ w.name a' = entry.name := by
    intro a' ha'
    rw [← hname, ← Machine.name_eq hheap]
    exact ⟨fun heq => heq ▸ rfl, hs.owned.wellFormed_old.eq_of_key ha' ha⟩
  refine ⟨fun daemon' => ?_, fun daemon' => ?_, ?_⟩
  · rw [mem_eraseP (nodup_parts.mp h.distinct).1, h.olddaemons]
    exact (booked_remove hold hunique fun b _ hb => hother b hb).symm
  · rw [List.mem_append, List.mem_singleton, h.daemons]
    refine (booked_add hdaemons hmoved fun b hb => hother b fun heq => ?_).symm
    exact hs.owned.apart b hb a ha (heq ▸ rfl)
  · have hmove := nodup_move conf h.distinct hmem
    rw [← hname]
    exact hmove

/-- The directories that the events reload, none for one that cannot be opened. -/
def reloads (events : List Event) : List (Option Directory) :=
  events.filterMap fun event => match event with
    | .reload dirp => some dirp
    | _ => none

end Cyberd
