import Cyberd.Conf.Fields

/-!
# Later lines and earlier ones

The fields of a key end up as the last line that was accepted for it has them,
whatever was read before and whatever other keys are read after. The variables of
the environment are kept in the order of the file.
-/

namespace Cyberd

open Library

/-- The parser of the key takes the value. -/
def HandedValue.Accepted (host : Host) (handed : HandedValue) : Prop :=
  ∃ parse, findParser host handed.sec handed.key = some parse ∧
    ∀ conf, (parse conf handed.key handed.value).1 = 0

/-- A value is for the same key of the same section as another one. -/
def HandedValue.SameKey (handed other : HandedValue) : Prop :=
  other.sec = handed.sec ∧ other.key = handed.key

/-- A value that is accepted for a key overrides the earlier ones: if no later one is
accepted for the key, its fields end up as this value has them, whatever they were. -/
def LaterOverrides (host : Host) (values : List HandedValue) (final : DaemonConf) : Prop :=
  ∀ front handed back, values = front ++ handed :: back → handed.sec ≠ .environment →
    handed.Accepted host →
    (∃ earlier ∈ front, handed.SameKey earlier ∧ earlier.Accepted host) →
    (∀ later ∈ back, handed.SameKey later → ¬ later.Accepted host) →
    ∀ conf, ∀ field ∈ keyFields handed.sec handed.key, field.Agree final (handed.parse host conf)

/-- The variables of the environment section, in order. -/
def environmentPairs (values : List HandedValue) : List Name :=
  (values.filter fun handed => handed.sec = .environment).map fun handed =>
    handed.key ++ 61 :: handed.value.getD handed.key

/-- The variables are behind those there were. -/
def Accumulates (values : List HandedValue) (conf final : DaemonConf) : Prop :=
  final.environment =
    if environmentPairs values = [] then conf.environment
    else some (conf.environment.getD [] ++ environmentPairs values)

variable {host : Host} {handed later : HandedValue} {parse : ValueParser} {conf : DaemonConf}
  {values : List HandedValue} {field : ConfField} {sec sec' : ConfSection} {key key' : Name}

/-- The effect of a value is the one of its parser. -/
theorem HandedValue.parse_eq (h : findParser host handed.sec handed.key = some parse) :
    handed.parse host conf = (parse conf handed.key handed.value).2 := by
  rw [HandedValue.parse, h]

/-- A field of a key is in its entry of the table. -/
theorem mem_fieldsIn {table : List (Name × List ConfField)} (h : field ∈ fieldsIn table key) :
    ∃ entry ∈ table, entry.1 = key ∧ field ∈ entry.2 := by
  rw [fieldsIn] at h
  cases hfind : table.find? fun entry => entry.1 = key with
  | none =>
    rw [hfind] at h
    cases h
  | some entry =>
    rw [hfind] at h
    have hkey := List.find?_some hfind
    exact ⟨entry, List.mem_of_find?_eq_some hfind, by simpa using hkey, h⟩

/-- Two keys that stand for the same field are the same key, or raise the same flag. -/
theorem keyFields_inter (h : field ∈ keyFields sec key) (h' : field ∈ keyFields sec' key')
    (hsec : sec ≠ .environment) : sec = sec' ∧ (key = key' ∨ sec = .start) := by
  have hgeneral : ∀ entry ∈ generalFields, ∀ entry' ∈ generalFields, ∀ field ∈ entry.2,
      field ∈ entry'.2 → entry.1 = entry'.1 := by decide
  have happart : ∀ entry ∈ generalFields, ∀ entry' ∈ startFields, ∀ field ∈ entry.2,
      field ∉ entry'.2 := by decide
  have hgeneralenv : ∀ entry ∈ generalFields, .environment ∉ entry.2 := by decide
  have hstartenv : ∀ entry ∈ startFields, .environment ∉ entry.2 := by decide
  cases sec with
  | environment => exact absurd rfl hsec
  | general =>
    obtain ⟨entry, hentry, rfl, hmem⟩ := mem_fieldsIn h
    cases sec' with
    | general =>
      obtain ⟨entry', hentry', rfl, hmem'⟩ := mem_fieldsIn h'
      exact ⟨rfl, Or.inl (hgeneral entry hentry entry' hentry' field hmem hmem')⟩
    | environment =>
      rw [List.mem_singleton.mp h'] at hmem
      exact absurd hmem (hgeneralenv entry hentry)
    | start =>
      obtain ⟨entry', hentry', rfl, hmem'⟩ := mem_fieldsIn h'
      exact absurd hmem' (happart entry hentry entry' hentry' field hmem)
  | start =>
    obtain ⟨entry, hentry, rfl, hmem⟩ := mem_fieldsIn h
    cases sec' with
    | general =>
      obtain ⟨entry', hentry', rfl, hmem'⟩ := mem_fieldsIn h'
      exact absurd hmem (happart entry' hentry' entry hentry field hmem')
    | environment =>
      rw [List.mem_singleton.mp h'] at hmem
      exact absurd hmem (hstartenv entry hentry)
    | start => exact ⟨rfl, Or.inr rfl⟩

/-- The variables of the environment are a field of their own. -/
theorem environment_other {pairs : Option (List Name)} (h : field ≠ .environment) :
    field.Agree { conf with environment := pairs } conf := by
  cases field <;> first | exact rfl | exact absurd rfl h

/-- A value parser only writes the fields of its key. -/
theorem parser_ownFields {key : Name} {value : Option Name} {current : ConfSection}
    {parse : ValueParser} (h : findParser host current key = some parse) {field : ConfField}
    (hother : field ∉ keyFields current key) : field.Agree (parse conf key value).2 conf := by
  have heffect : HandedEffect host ⟨current, key, value⟩ parse := handedEffect h
  cases heffect with
  | rejected status =>
    rw [status]
    exact .refl conf field
  | ignored _ status =>
    rw [status]
    exact .refl conf field
  | appended hsec status =>
    obtain rfl : current = .environment := hsec
    rw [status]
    exact environment_other fun heq => hother (heq ▸ List.mem_singleton_self _)
  | written _ _ source status =>
    rw [status]
    exact putFields_other hother

/-- A value changes no field but those of its key. -/
theorem HandedValue.parse_frame (hother : field ∉ keyFields handed.sec handed.key) :
    field.Agree (handed.parse host conf) conf := by
  cases hparser : findParser host handed.sec handed.key with
  | none =>
    rw [HandedValue.parse, hparser]
    exact .refl conf field
  | some parse =>
    rw [HandedValue.parse_eq hparser]
    exact parser_ownFields hparser hother

/-- A value that is accepted and whose lookup does not fail writes the fields of its key. -/
theorem HandedValue.Accepted.written (h : handed.Accepted host) (hsec : handed.sec ≠ .environment)
    (hfound : ¬ handed.LookupFails host) :
    ∃ source, (∀ conf, handed.parse host conf =
        putFields (keyFields handed.sec handed.key) conf source) ∧
      (handed.sec = .start → source = raised host) := by
  obtain ⟨parse, hparser, hzero⟩ := h
  cases handedEffect hparser with
  | rejected status =>
    have hfail := hzero (daemonConfInit host)
    rw [status] at hfail
    cases hfail
  | ignored fails => exact absurd fails hfound
  | appended sec => exact absurd sec hsec
  | written _ _ source status flags =>
    exact ⟨source, fun conf => by rw [parse_eq hparser, status], flags⟩

/-- A value of another key, or one that is not accepted, leaves the fields of a key as
they were written. -/
theorem HandedValue.Accepted.kept (h : handed.Accepted host) (hsec : handed.sec ≠ .environment)
    (hfound : ¬ handed.LookupFails host)
    (hlater : handed.SameKey later → ¬ later.Accepted host)
    (hmem : field ∈ keyFields handed.sec handed.key) {conf₀ : DaemonConf}
    (hagree : field.Agree conf (handed.parse host conf₀)) :
    field.Agree (later.parse host conf) (handed.parse host conf₀) := by
  cases hparser : findParser host later.sec later.key with
  | none =>
    rw [HandedValue.parse, hparser]
    exact hagree
  | some parse =>
    rw [parse_eq hparser]
    cases handedEffect hparser with
    | rejected status =>
      rw [status]
      exact hagree
    | ignored _ status =>
      rw [status]
      exact hagree
    | appended hlatersec status =>
      have hne : field ≠ .environment := by
        rintro rfl
        have henv : ConfField.environment ∈ keyFields .environment later.key :=
          List.mem_singleton_self _
        exact hsec (keyFields_inter hmem henv hsec).1
      rw [status]
      exact (environment_other hne).trans hagree
    | written _ _ source status flags =>
      rw [status]
      by_cases hboth : field ∈ keyFields later.sec later.key
      · obtain ⟨hsame, hkey | hstart⟩ := keyFields_inter hmem hboth hsec
        · refine absurd ⟨parse, hparser, fun conf => ?_⟩ (hlater ⟨hsame.symm, hkey.symm⟩)
          rw [status]
        · obtain ⟨source', hwrite, hflags⟩ := h.written hsec hfound
          rw [hwrite, hflags hstart, flags (hsame ▸ hstart)]
          exact (putFields_self hboth).trans (putFields_self hmem).symm
      · exact (putFields_other hboth).trans hagree

/-- The fields of a key stay as they were written if no later value is accepted for it. -/
theorem HandedValue.Accepted.kept_foldl (h : handed.Accepted host)
    (hsec : handed.sec ≠ .environment) (hfound : ¬ handed.LookupFails host)
    (hlater : ∀ later ∈ values, handed.SameKey later → ¬ later.Accepted host)
    (hmem : field ∈ keyFields handed.sec handed.key) {conf₀ : DaemonConf}
    (hagree : field.Agree conf (handed.parse host conf₀)) :
    field.Agree (values.foldl (HandedValue.parse host) conf) (handed.parse host conf₀) := by
  induction values generalizing conf with
  | nil => exact hagree
  | cons later values ih =>
    rw [List.forall_mem_cons] at hlater
    exact ih hlater.2 (h.kept hsec hfound hlater.1 hmem hagree)

/-- The parser of a user or a group ignores a value whose lookup fails. -/
theorem parseId_failed {lookup : Name → Lookup} {name : Name} (h : lookup name = .failed)
    (max : Nat) (assign : DaemonConf → Nat → DaemonConf) (conf : DaemonConf) (key : Name) :
    parseId lookup max assign conf key (some name) = (0, conf) := by
  rw [parseId, h]

/-- A value that its parser ignores is accepted. -/
theorem HandedValue.accepted_of_ignored
    (hparser : findParser host handed.sec handed.key = some parse)
    (h : ∀ conf, parse conf handed.key handed.value = (0, conf)) :
    handed.Accepted host ∧ ∀ conf, handed.parse host conf = conf := by
  refine ⟨⟨_, hparser, fun conf => by rw [h]⟩, fun conf => ?_⟩
  rw [parse_eq hparser, h]

/-- A value whose lookup fails is accepted, and leaves any record as it is. -/
theorem HandedValue.LookupFails.accepted (h : handed.LookupFails host) :
    handed.Accepted host ∧ (∀ conf, handed.parse host conf = conf) ∧ handed.sec = .general := by
  obtain ⟨sec, key, value⟩ := handed
  obtain ⟨hsec, name, hvalue, hlookup⟩ := h
  obtain ⟨rfl, rfl⟩ : sec = .general ∧ value = some name := ⟨hsec, hvalue⟩
  rcases hlookup with ⟨hkey, hlookup⟩ | ⟨hkey, hlookup⟩
  · obtain rfl : key = ascii "user" := hkey
    have hignored : ∀ conf, daemonConfParseGeneralUser host conf (ascii "user") (some name) =
        (0, conf) := fun conf => parseId_failed hlookup _ _ conf _
    exact and_assoc.mp ⟨accepted_of_ignored rfl hignored, rfl⟩
  · obtain rfl : key = ascii "group" := hkey
    have hignored : ∀ conf, daemonConfParseGeneralGroup host conf (ascii "group") (some name) =
        (0, conf) := fun conf => parseId_failed hlookup _ _ conf _
    exact and_assoc.mp ⟨accepted_of_ignored rfl hignored, rfl⟩

/-- The values that are accepted override the earlier ones exactly when those whose
lookup fails are overridden themselves. -/
theorem laterOverrides_iff :
    LaterOverrides host values (values.foldl (HandedValue.parse host) conf) ↔
      ∀ front handed back, values = front ++ handed :: back → handed.LookupFails host →
        (∃ earlier ∈ front, handed.SameKey earlier ∧ earlier.Accepted host) →
        ∃ later ∈ back, handed.SameKey later ∧ later.Accepted host := by
  constructor
  · intro hover front handed back hsplit hfails hearlier
    by_contra hnone
    push Not at hnone
    obtain ⟨haccepted, hsame, hsec⟩ := hfails.accepted
    have hne : handed.sec ≠ .environment := by simp [hsec]
    have hfield := hover front handed back hsplit hne haccepted hearlier hnone
    obtain ⟨-, name, -, ⟨hkey, -⟩ | ⟨hkey, -⟩⟩ := hfails
    · have huid := hfield { conf with
        uid := (values.foldl (HandedValue.parse host) conf).uid + 1 } .uid (by
          rw [hsec, hkey]
          decide)
      rw [hsame] at huid
      exact absurd huid (Nat.succ_ne_self _).symm
    · have hgid := hfield { conf with
        gid := (values.foldl (HandedValue.parse host) conf).gid + 1 } .gid (by
          rw [hsec, hkey]
          decide)
      rw [hsame] at hgid
      exact absurd hgid (Nat.succ_ne_self _).symm
  · rintro hover front handed back rfl hsec haccepted hearlier hnone conf₀ field hmem
    have hfound : ¬ handed.LookupFails host := by
      intro hfails
      obtain ⟨later, hlater, hsame, hacc⟩ := hover front handed back rfl hfails hearlier
      exact hnone later hlater hsame hacc
    obtain ⟨source, hwrite, -⟩ := haccepted.written hsec hfound
    rw [List.foldl_append, List.foldl_cons]
    refine haccepted.kept_foldl hsec hfound hnone hmem ?_
    rw [hwrite, hwrite]
    exact (putFields_self hmem).trans (putFields_self hmem).symm

/-- The values of the other sections leave the variables of the environment alone. -/
theorem parse_environment (hsec : handed.sec ≠ .environment) :
    (handed.parse host conf).environment = conf.environment := by
  have hother : ConfField.environment ∉ keyFields handed.sec handed.key := by
    intro hmem
    have henv : ConfField.environment ∈ keyFields .environment handed.key :=
      List.mem_singleton_self _
    exact hsec (keyFields_inter hmem henv hsec).1
  exact HandedValue.parse_frame hother

/-- The variables of the environment accumulate in the order of the values. -/
theorem accumulates_foldl (values : List HandedValue) (conf : DaemonConf) :
    Accumulates values conf (values.foldl (HandedValue.parse host) conf) := by
  induction values generalizing conf with
  | nil => exact rfl
  | cons handed values ih =>
    have hrest := ih (handed.parse host conf)
    unfold Accumulates at hrest ⊢
    rw [List.foldl_cons, hrest]
    by_cases hsec : handed.sec = .environment
    · have hpairs : environmentPairs (handed :: values) =
          (handed.key ++ 61 :: handed.value.getD handed.key) :: environmentPairs values := by
        simp [environmentPairs, hsec]
      have hparser : findParser host handed.sec handed.key = some daemonConfParseEnvironment := by
        rw [hsec]
        rfl
      have henv : (handed.parse host conf).environment = some (conf.environment.getD [] ++
          [handed.key ++ 61 :: handed.value.getD handed.key]) := by
        rw [HandedValue.parse_eq hparser, daemonConfParseEnvironment]
        rfl
      rw [hpairs, henv, if_neg (List.cons_ne_nil _ _)]
      split <;> simp_all
    · have hpairs : environmentPairs (handed :: values) = environmentPairs values := by
        simp [environmentPairs, hsec]
      rw [hpairs, parse_environment hsec]

end Cyberd
