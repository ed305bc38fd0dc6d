import Cyberd.Conf.Numbers
import Cyberd.Conf.Overrides

/-!
# The user and the group of a daemon

A value of `user` or `group` is the name of an entry, or the number itself. The parsers
succeed without an id when the lookup fails, and with one that the value does not stand
for when it is empty or a number that wraps around into the range.
-/

namespace Cyberd

open Library

variable {host : Host} {value key : Name} {lookup : Name → Lookup} {max : Nat}
  {assign : DaemonConf → Nat → DaemonConf} {stored : DaemonConf → Nat}
  {values : List HandedValue} {conf : DaemonConf} {field : ConfField}

/-- The id is the one that the value names: that of its entry, or its own number when the
lookup finds no entry. -/
def IdResolved (lookup : Lookup) (value : Name) (id : Nat) : Prop :=
  match lookup with
  | .found entry => id = entry
  | .missing => SignedNumeral 10 (valueBody value) id
  | .failed => False

/-- The parser resolves the id, or fails and changes nothing. -/
def ResolvesId (parse : ValueParser) (lookup : Lookup) (stored : DaemonConf → Nat)
    (value : Name) : Prop :=
  ∀ conf key,
    (parse conf key (some value)).1 = 0 ∧
      IdResolved lookup value (stored (parse conf key (some value)).2) ∨
    (parse conf key (some value)).1 ≠ 0 ∧ (parse conf key (some value)).2 = conf

/-- The lookup does not fail, and a value without entry has a digit and is no number that
`strtoul(3)` turns into another one in range. -/
def Resolvable (lookup : Lookup) (max : Nat) (value : Name) : Prop :=
  match lookup with
  | .found _ => True
  | .missing => value ≠ [] ∧ ∀ z, SignedNumeral 10 (valueBody value) z →
      strtoulValue z ≤ max → 0 ≤ z ∧ z < 2 ^ 32
  | .failed => False

/-- The last value that is accepted for a key of the general section is this one. -/
def LastAccepted (host : Host) (values : List HandedValue) (key value : Name) : Prop :=
  ∃ front back, values = front ++ ⟨.general, key, some value⟩ :: back ∧
    HandedValue.Accepted host ⟨.general, key, some value⟩ ∧
    ∀ later ∈ back, HandedValue.SameKey ⟨.general, key, some value⟩ later →
      ¬ later.Accepted host

/-- A value is resolvable exactly when its id is resolved if it is accepted. -/
theorem parseId_resolvable_iff (hstored : ∀ conf id, stored (assign conf id) = id)
    (conf : DaemonConf) (key : Name) :
    Resolvable (lookup value) max value ↔
      ((parseId lookup max assign conf key (some value)).1 = 0 →
        IdResolved (lookup value) value
          (stored (parseId lookup max assign conf key (some value)).2)) := by
  cases hlookup : lookup value with
  | found entry =>
    refine iff_of_true trivial fun _ => ?_
    simp only [parseId, hlookup]
    exact hstored conf entry
  | failed =>
    refine iff_of_false id fun h => h ?_
    simp only [parseId, hlookup]
  | missing =>
    rcases @parseId_missing value lookup max assign hlookup conf key with
      ⟨rfl, hok⟩ | ⟨z, hz, hok⟩ | ⟨hne, hnone, hfail⟩
    · rw [hok]
      exact iff_of_false (fun h => h.1 rfl) fun h => not_signedNumeral_nil (h rfl)
    · have hne : value ≠ [] := by
        rintro rfl
        exact not_signedNumeral_nil hz
      rw [hok]
      split
      · rename_i hlarge
        refine iff_of_true ⟨hne, fun z' hz' hle => ?_⟩ fun h => by cases h
        rw [hz.unique hz'] at hlarge
        exact absurd hle (Nat.not_le.mpr hlarge)
      · rename_i hle
        rw [hstored]
        constructor
        · rintro ⟨-, hrange⟩ -
          obtain ⟨h0, hlt⟩ := hrange z hz (Nat.not_lt.mp hle)
          obtain ⟨n, rfl⟩ := Int.eq_ofNat_of_zero_le h0
          have hsame : strtoulValue n % 2 ^ 32 = n := by
            rw [strtoulValue_natCast]
            omega
          rw [hsame]
          exact hz
        · intro hid
          refine ⟨hne, fun z' hz' _ => ?_⟩
          have heq := hz'.unique (hid rfl)
          omega
    · rw [hfail]
      exact iff_of_true ⟨hne, fun z hz => absurd hz (hnone z)⟩ fun h => by cases h

/-- The parser of a user or a group resolves an id exactly when the value is resolvable. -/
theorem parseId_resolves_iff (hstored : ∀ conf id, stored (assign conf id) = id) :
    ResolvesId (parseId lookup max assign) (lookup value) stored value ↔
      Resolvable (lookup value) max value := by
  constructor
  · intro h
    refine (parseId_resolvable_iff hstored (daemonConfInit bareHost) []).mpr fun hzero => ?_
    rcases h (daemonConfInit bareHost) [] with ⟨-, hid⟩ | ⟨hne, -⟩
    · exact hid
    · exact absurd hzero hne
  · intro h conf key
    have hid := (parseId_resolvable_iff hstored conf key).mp h
    rcases parseId_stores key (some value) lookup max assign with ⟨-, hstores⟩ | ⟨-, hzero⟩
    · rcases hstores with hreject | ⟨id, hstore⟩
      · rw [hreject]
        exact Or.inr ⟨by simp, rfl⟩
      · rw [hstore] at hid ⊢
        exact Or.inl ⟨rfl, hid rfl⟩
    · rw [hzero] at hid ⊢
      exact Or.inl ⟨rfl, hid rfl⟩

/-- The last value that is accepted is resolved in the record exactly when it is resolvable. -/
theorem LastAccepted.resolved_iff (h : LastAccepted host values key value)
    (hstored : ∀ conf id, stored (assign conf id) = id)
    (hparser : findParser host .general key = some (parseId lookup max assign))
    (hmem : field ∈ keyFields .general key)
    (hfield : ∀ c c', field.Agree c c' → stored c = stored c')
    (hfails : HandedValue.LookupFails host ⟨.general, key, some value⟩ ↔ lookup value = .failed) :
    IdResolved (lookup value) value (stored (values.foldl (HandedValue.parse host) conf)) ↔
      Resolvable (lookup value) max value := by
  by_cases hfailed : lookup value = .failed
  · rw [hfailed]
    exact Iff.rfl
  · obtain ⟨front, back, rfl, haccepted, hlater⟩ := h
    have hfound : ¬ HandedValue.LookupFails host ⟨.general, key, some value⟩ :=
      fun hlookup => hfailed (hfails.mp hlookup)
    have hsec : (⟨.general, key, some value⟩ : HandedValue).sec ≠ .environment := by simp
    obtain ⟨parse, hparse, hzero⟩ := haccepted
    obtain rfl : parse = parseId lookup max assign := Option.some.inj (hparse.symm.trans hparser)
    have hkept := HandedValue.Accepted.kept_foldl ⟨_, hparser, hzero⟩ hsec hfound hlater hmem
      (.refl (HandedValue.parse host (front.foldl (HandedValue.parse host) conf)
        ⟨.general, key, some value⟩) field)
    rw [List.foldl_append, List.foldl_cons, hfield _ _ hkept, HandedValue.parse_eq hparser,
      parseId_resolvable_iff hstored (front.foldl (HandedValue.parse host) conf) key]
    exact ⟨fun hid _ => hid, fun hid => hid (hzero _)⟩

/-- A user or a group is resolved, by its parser and in every record that a file gives. -/
structure IdsResolved (host : Host) (before : Nat → Option UInt8) (conf : DaemonConf)
    (file : List UInt8) (value : Name) : Prop where
  /-- The parser of a user resolves the id or fails without effect. -/
  user : ResolvesId (daemonConfParseGeneralUser host) (host.getpwnam value) DaemonConf.uid value
  /-- So does the parser of a group. -/
  group : ResolvesId (daemonConfParseGeneralGroup host) (host.getgrnam value) DaemonConf.gid value
  /-- The last line of a file that is accepted for a user gives the id of the daemon. -/
  fileUser : ∀ values status final name, handedValues host before file = .ok values →
    daemonConfParse host before conf file = .ok (status, final) →
    LastAccepted host values (ascii "user") name → IdResolved (host.getpwnam name) name final.uid
  /-- So does the last line that is accepted for a group. -/
  fileGroup : ∀ values status final name, handedValues host before file = .ok values →
    daemonConfParse host before conf file = .ok (status, final) →
    LastAccepted host values (ascii "group") name → IdResolved (host.getgrnam name) name final.gid

/-- The value, and the last ones of a file, are resolvable. -/
structure IdsResolvable (host : Host) (before : Nat → Option UInt8) (file : List UInt8)
    (value : Name) : Prop where
  /-- As a user. -/
  user : Resolvable (host.getpwnam value) host.maxUid value
  /-- As a group. -/
  group : Resolvable (host.getgrnam value) host.maxGid value
  /-- The last user of the file. -/
  fileUser : ∀ values name, handedValues host before file = .ok values →
    LastAccepted host values (ascii "user") name →
    Resolvable (host.getpwnam name) host.maxUid name
  /-- The last group of the file. -/
  fileGroup : ∀ values name, handedValues host before file = .ok values →
    LastAccepted host values (ascii "group") name →
    Resolvable (host.getgrnam name) host.maxGid name

/-- The user in the record that a file gives is resolved exactly when it is resolvable. -/
theorem LastAccepted.user_iff (h : LastAccepted host values (ascii "user") value) :
    IdResolved (host.getpwnam value) value
        (values.foldl (HandedValue.parse host) conf).uid ↔
      Resolvable (host.getpwnam value) host.maxUid value :=
  h.resolved_iff (fun _ _ => rfl) rfl (by decide : ConfField.uid ∈ _) (fun _ _ hagree => hagree)
    (((lookupFails_iff rfl).1 rfl).trans (by simp))

/-- The group in the record that a file gives is resolved exactly when it is resolvable. -/
theorem LastAccepted.group_iff (h : LastAccepted host values (ascii "group") value) :
    IdResolved (host.getgrnam value) value
        (values.foldl (HandedValue.parse host) conf).gid ↔
      Resolvable (host.getgrnam value) host.maxGid value :=
  h.resolved_iff (fun _ _ => rfl) rfl (by decide : ConfField.gid ∈ _) (fun _ _ hagree => hagree)
    (((lookupFails_iff rfl).2 rfl).trans (by simp))

/-- Users and groups are resolved exactly where lookups do not fail and the values without
entry are numerals that `strtoul(3)` reads as they are. -/
theorem idsResolved_iff (host : Host) (before : Nat → Option UInt8) (conf : DaemonConf)
    (file : List UInt8) (value : Name) :
    IdsResolved host before conf file value ↔ IdsResolvable host before file value := by
  constructor
  · rintro ⟨huser, hgroup, hfileUser, hfileGroup⟩
    refine ⟨(parseId_resolves_iff fun _ _ => rfl).mp huser,
      (parseId_resolves_iff fun _ _ => rfl).mp hgroup, fun values name hvalues hlast => ?_,
      fun values name hvalues hlast => ?_⟩
    · obtain ⟨status, hparse⟩ := daemonConfParse_handed hvalues conf
      exact hlast.user_iff.mp (hfileUser _ _ _ _ hvalues hparse hlast)
    · obtain ⟨status, hparse⟩ := daemonConfParse_handed hvalues conf
      exact hlast.group_iff.mp (hfileGroup _ _ _ _ hvalues hparse hlast)
  · rintro ⟨huser, hgroup, hfileUser, hfileGroup⟩
    refine ⟨(parseId_resolves_iff fun _ _ => rfl).mpr huser,
      (parseId_resolves_iff fun _ _ => rfl).mpr hgroup,
      fun values status final name hvalues hparse hlast => ?_,
      fun values status final name hvalues hparse hlast => ?_⟩
    · rw [daemonConfParse_ok hvalues hparse]
      exact hlast.user_iff.mpr (hfileUser _ _ hvalues hlast)
    · rw [daemonConfParse_ok hvalues hparse]
      exact hlast.group_iff.mpr (hfileGroup _ _ hvalues hlast)

/-- Where the database of users cannot be read, the only line for a user is accepted, and
the daemon keeps the user 0. -/
theorem idsResolved_fails : ¬ IdsResolved { bareHost with getpwnam := fun _ => .failed }
    (fun _ => none) (daemonConfInit bareHost) (ascii "user=backup\npath=/bin/sh\n")
    (ascii "backup") := by
  let host : Host := { bareHost with getpwnam := fun _ => .failed }
  intro h
  have haccepted : ∀ conf, daemonConfParseGeneralUser host conf (ascii "user")
      (some (ascii "backup")) = (0, conf) := fun _ => rfl
  have hvalues : handedValues host (fun _ => none) (ascii "user=backup\npath=/bin/sh\n") =
      .ok [⟨.general, ascii "user", some (ascii "backup")⟩,
        ⟨.general, ascii "path", some (ascii "/bin/sh")⟩] := by decide +kernel
  obtain ⟨status, hparse⟩ := daemonConfParse_handed hvalues (daemonConfInit bareHost)
  refine h.fileUser _ _ _ (ascii "backup") hvalues hparse ⟨[], _, rfl,
    ⟨_, rfl, fun conf => by rw [haccepted]⟩, fun later hlater hsame _ => ?_⟩
  obtain rfl := List.mem_singleton.mp hlater
  exact absurd hsame.2 (by decide)

end Cyberd
