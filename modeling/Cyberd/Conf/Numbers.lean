import Cyberd.Conf.Grammar
import Cyberd.Library.Numerals

/-!
# The numbers of a configuration

The parsers of the numeric values test how `strtol(3)` and `strtoul(3)` end, and then
their value. What these take beyond plain numerals is taken with them: no digit at
all, white space and a sign in front, negative numbers that wrap around.
-/

namespace Cyberd

open Library

variable {β : Type} {host : Host} {value : Name}

/-- The parser succeeds exactly when the value means something, and stores what it means. -/
def AcceptsExactly (parse : ValueParser) (stored : DaemonConf → β) (value : Name)
    (meant : β → Prop) : Prop :=
  ∀ conf key, ((parse conf key (some value)).1 = 0 ↔ ∃ b, meant b) ∧
    ((parse conf key (some value)).1 = 0 → meant (stored (parse conf key (some value)).2))

/-- The value without the white space in front of it. -/
def valueBody (value : Name) : Name := value.dropWhile isSpace

/-- What the parser of a user or a group does with a value that has no entry. -/
theorem parseId_missing {lookup : Name → Lookup} {max : Nat}
    {assign : DaemonConf → Nat → DaemonConf} (h : lookup value = .missing) (conf : DaemonConf)
    (key : Name) :
    (value = [] ∧ parseId lookup max assign conf key (some value) = (0, assign conf 0)) ∨
    (∃ z, SignedNumeral 10 (valueBody value) z ∧ parseId lookup max assign conf key (some value) =
      if max < strtoulValue z then (-1, conf) else (0, assign conf (strtoulValue z % 2 ^ 32))) ∨
    (value ≠ [] ∧ (∀ z, ¬ SignedNumeral 10 (valueBody value) z) ∧
      parseId lookup max assign conf key (some value) = (-1, conf)) := by
  simp only [parseId, h]
  rcases strtoul_cases 10 value with ⟨hnil, hread⟩ | ⟨z, hz, hread⟩ | ⟨hnone, hrest⟩
  · refine Or.inl ⟨hnil, ?_⟩
    rw [hread, if_neg (by simp), Nat.zero_mod]
  · refine Or.inr (Or.inl ⟨z, hz, ?_⟩)
    rw [hread]
    simp
  · refine Or.inr (Or.inr ⟨?_, hnone, ?_⟩)
    · rintro rfl
      exact hrest rfl
    · rw [if_pos (Or.inl hrest)]

/-- A parser that stores what is meant, or fails where nothing is. -/
theorem acceptsExactly_of {parse : ValueParser} {stored : DaemonConf → β} {meant : β → Prop}
    (h : ∀ conf key, (∃ conf', parse conf key (some value) = (0, conf') ∧ meant (stored conf')) ∨
      (∀ b, ¬ meant b) ∧ parse conf key (some value) = (-1, conf)) :
    AcceptsExactly parse stored value meant := by
  intro conf key
  rcases h conf key with ⟨conf', hok, hmeant⟩ | ⟨hnone, hfail⟩
  · rw [hok]
    exact ⟨iff_of_true rfl ⟨_, hmeant⟩, fun _ => hmeant⟩
  · have hne : (-1 : Int) ≠ 0 := by decide
    rw [hfail]
    exact ⟨iff_of_false hne (not_exists.mpr hnone), fun h0 => absurd h0 hne⟩

/-- The priority parser takes the numerals in range behind white space. -/
theorem priority_accepts (hne : value ≠ []) :
    AcceptsExactly daemonConfParseGeneralPriority DaemonConf.priority value fun z =>
      SignedNumeral 10 (valueBody value) z ∧ -20 ≤ z ∧ z ≤ 19 := by
  apply acceptsExactly_of
  intro conf key
  simp only [daemonConfParseGeneralPriority]
  rcases strtol_cases 10 value with ⟨hnil, -⟩ | ⟨z, hz, hread⟩ | ⟨hnone, hrest⟩
  · exact absurd hnil hne
  · rw [hread]
    by_cases hrange : -20 ≤ z ∧ z ≤ 19
    · have hvalue : strtolValue z = z := by
        rw [strtolValue]
        omega
      rw [hvalue, if_neg (by simp; omega)]
      exact Or.inl ⟨_, rfl, hz, hrange⟩
    · have hvalue : strtolValue z < -20 ∨ 19 < strtolValue z := by
        rw [strtolValue]
        omega
      rw [if_pos (Or.inr hvalue)]
      refine Or.inr ⟨?_, rfl⟩
      rintro z' ⟨hz', hrange'⟩
      exact hrange (hz.unique hz' ▸ hrange')
  · rw [if_pos (Or.inl hrest)]
    exact Or.inr ⟨fun z hz => hnone z hz.1, rfl⟩

/-- The umask parser takes every octal numeral behind white space, and stores the low
nine bits of its number as far as it has room. -/
theorem umask_accepts (hne : value ≠ [])
    (hsign : ∀ z, SignedNumeral 8 (valueBody value) z → 0 ≤ z) :
    AcceptsExactly daemonConfParseGeneralUmask DaemonConf.umask value fun mask =>
      ∃ n : Nat, SignedNumeral 8 (valueBody value) n ∧ mask = min n (2 ^ 64 - 1) % 512 := by
  apply acceptsExactly_of
  intro conf key
  simp only [daemonConfParseGeneralUmask]
  rcases strtoul_cases 8 value with ⟨hnil, -⟩ | ⟨z, hz, hread⟩ | ⟨hnone, hrest⟩
  · exact absurd hnil hne
  · obtain ⟨n, rfl⟩ := Int.eq_ofNat_of_zero_le (hsign z hz)
    rw [hread, if_neg (by simp), strtoulValue_natCast]
    exact Or.inl ⟨_, rfl, n, hz, rfl⟩
  · rw [if_pos hrest]
    refine Or.inr ⟨?_, rfl⟩
    rintro mask ⟨n, hn, -⟩
    exact hnone _ hn

/-- The parser of a user or a group without entry takes the decimal numerals in range
behind white space. -/
theorem parseId_accepts {lookup : Name → Lookup} {max : Nat}
    {assign : DaemonConf → Nat → DaemonConf} {stored : DaemonConf → Nat}
    (hstored : ∀ conf id, stored (assign conf id) = id) (hmax : max < 2 ^ 32)
    (hlookup : lookup value = .missing) (hne : value ≠ [])
    (hsign : ∀ z, SignedNumeral 10 (valueBody value) z → z < 0 → max < strtoulValue z) :
    AcceptsExactly (parseId lookup max assign) stored value fun id =>
      SignedNumeral 10 (valueBody value) id ∧ id ≤ max := by
  apply acceptsExactly_of
  intro conf key
  rcases parseId_missing hlookup conf key with ⟨hnil, -⟩ | ⟨z, hz, hread⟩ | ⟨-, hnone, hread⟩
  · exact absurd hnil hne
  · rw [hread]
    by_cases hneg : z < 0
    · rw [if_pos (hsign z hz hneg)]
      refine Or.inr ⟨?_, rfl⟩
      rintro id ⟨hid, -⟩
      have heq := hz.unique hid
      omega
    · obtain ⟨n, rfl⟩ := Int.eq_ofNat_of_zero_le (Int.not_lt.mp hneg)
      rw [strtoulValue_natCast]
      by_cases hn : n ≤ max
      · rw [if_neg (by omega)]
        refine Or.inl ⟨_, rfl, ?_⟩
        have hsame : min n (2 ^ 64 - 1) % 2 ^ 32 = n := by omega
        rw [hstored, hsame]
        exact ⟨hz, hn⟩
      · rw [if_pos (by omega)]
        refine Or.inr ⟨?_, rfl⟩
        rintro id ⟨hid, hle⟩
        have heq := Int.natCast_inj.mp (hz.unique hid)
        omega
  · rw [hread]
    exact Or.inr ⟨fun id hid => hnone _ hid.1, rfl⟩

/-- What the numeric values mean to their parsers: numerals behind white space, for the
umask the low nine bits of the number. Negative numbers that would be taken for an umask
or an id are left out. -/
structure NumbersAccepted (host : Host) (value : Name) : Prop where
  /-- `priority` -/
  priority : AcceptsExactly daemonConfParseGeneralPriority DaemonConf.priority value fun z =>
    SignedNumeral 10 (valueBody value) z ∧ -20 ≤ z ∧ z ≤ 19
  /-- `umask` -/
  umask : (∀ z, SignedNumeral 8 (valueBody value) z → 0 ≤ z) →
    AcceptsExactly daemonConfParseGeneralUmask DaemonConf.umask value fun mask =>
      ∃ n : Nat, SignedNumeral 8 (valueBody value) n ∧ mask = min n (2 ^ 64 - 1) % 512
  /-- `user` -/
  user : host.getpwnam value = .missing →
    (∀ z, SignedNumeral 10 (valueBody value) z → z < 0 → host.maxUid < strtoulValue z) →
    AcceptsExactly (daemonConfParseGeneralUser host) DaemonConf.uid value fun id =>
      SignedNumeral 10 (valueBody value) id ∧ id ≤ host.maxUid
  /-- `group` -/
  group : host.getgrnam value = .missing →
    (∀ z, SignedNumeral 10 (valueBody value) z → z < 0 → host.maxGid < strtoulValue z) →
    AcceptsExactly (daemonConfParseGeneralGroup host) DaemonConf.gid value fun id =>
      SignedNumeral 10 (valueBody value) id ∧ id ≤ host.maxGid

/-- Every value that is not empty means to the parsers what they store. -/
theorem numbersAccepted (huid : host.maxUid < 2 ^ 32) (hgid : host.maxGid < 2 ^ 32)
    (hne : value ≠ []) : NumbersAccepted host value where
  priority := priority_accepts hne
  umask := umask_accepts hne
  user hlookup hsign := parseId_accepts (fun _ _ => rfl) huid hlookup hne hsign
  group hlookup hsign := parseId_accepts (fun _ _ => rfl) hgid hlookup hne hsign

/-- Seven digits for a host without entries. -/
theorem numbersAccepted_digits : NumbersAccepted bareHost (ascii "0001000") :=
  numbersAccepted (by decide) (by decide) (by decide)

/-- What the numeric values would mean as plain numerals in range. -/
structure NumbersPlain (host : Host) (value : Name) : Prop where
  /-- `priority` -/
  priority : AcceptsExactly daemonConfParseGeneralPriority DaemonConf.priority value fun z =>
    SignedNumeral 10 value z ∧ -20 ≤ z ∧ z ≤ 19
  /-- `umask` -/
  umask : AcceptsExactly daemonConfParseGeneralUmask DaemonConf.umask value fun mask =>
    Numeral 8 value mask ∧ mask ≤ 511
  /-- `user` -/
  user : host.getpwnam value = .missing →
    AcceptsExactly (daemonConfParseGeneralUser host) DaemonConf.uid value fun id =>
      Numeral 10 value id ∧ id ≤ host.maxUid
  /-- `group` -/
  group : host.getgrnam value = .missing →
    AcceptsExactly (daemonConfParseGeneralGroup host) DaemonConf.gid value fun id =>
      Numeral 10 value id ∧ id ≤ host.maxGid

/-- The umask 01000 is stored as 0, and a sign in front of a group is taken. -/
theorem numbersPlain_fails :
    ¬ NumbersPlain bareHost (ascii "1000") ∧ ¬ NumbersPlain bareHost (ascii "+5") := by
  constructor
  · intro h
    have hread :
        (daemonConfParseGeneralUmask (daemonConfInit bareHost) [] (ascii "1000")).1 = 0 := by
      decide
    obtain ⟨n, hn, hle⟩ := (h.umask (daemonConfInit bareHost) []).1.mp hread
    have hvalue : digitsValue 8 (ascii "1000") = 512 := by decide
    have heq := hn.value
    omega
  · intro h
    have hread : (daemonConfParseGeneralUser bareHost (daemonConfInit bareHost) []
        (ascii "+5")).1 = 0 := by decide
    obtain ⟨n, hn, -⟩ := (h.user rfl (daemonConfInit bareHost) []).1.mp hread
    exact absurd (hn.digits 43 (by decide)) (by decide)

end Cyberd
