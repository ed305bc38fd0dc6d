import Cyberd.Conf.Grammar

/-!
# The fields that a key stands for

Every value parser either fails and changes nothing, or succeeds and writes the
fields of its key, whatever the record was. A variable of the environment is
appended, a start flag is only ever raised, and a user or a group whose lookup fails
writes nothing.
-/

namespace Cyberd

open Library

/-- The fields of `struct daemon_conf`, with the flags of `start` one by one. -/
inductive ConfField
  | path
  | arguments
  | environment
  | workdir
  | stdin
  | stdout
  | stderr
  | sigfinish
  | sigreload
  | uid
  | gid
  | nosid
  | umask
  | priority
  | load
  | reload
  | exitsuccess
  | exitfailure
  | killed
  | dumped
  deriving DecidableEq, Repr

/-- Two records have the same value of a field. -/
def ConfField.Agree (c c' : DaemonConf) : ConfField → Prop
  | .path => c.path = c'.path
  | .arguments => c.arguments = c'.arguments
  | .environment => c.environment = c'.environment
  | .workdir => c.workdir = c'.workdir
  | .stdin => c.stdin = c'.stdin
  | .stdout => c.stdout = c'.stdout
  | .stderr => c.stderr = c'.stderr
  | .sigfinish => c.sigfinish = c'.sigfinish
  | .sigreload => c.sigreload = c'.sigreload
  | .uid => c.uid = c'.uid
  | .gid => c.gid = c'.gid
  | .nosid => c.nosid = c'.nosid
  | .umask => c.umask = c'.umask
  | .priority => c.priority = c'.priority
  | .load => c.start.load = c'.start.load
  | .reload => c.start.reload = c'.start.reload
  | .exitsuccess => c.start.exitsuccess = c'.start.exitsuccess
  | .exitfailure => c.start.exitfailure = c'.start.exitfailure
  | .killed => c.start.killed = c'.start.killed
  | .dumped => c.start.dumped = c'.start.dumped

/-- A record with one field taken from another one. -/
def ConfField.put (conf source : DaemonConf) : ConfField → DaemonConf
  | .path => { conf with path := source.path }
  | .arguments => { conf with arguments := source.arguments }
  | .environment => { conf with environment := source.environment }
  | .workdir => { conf with workdir := source.workdir }
  | .stdin => { conf with stdin := source.stdin }
  | .stdout => { conf with stdout := source.stdout }
  | .stderr => { conf with stderr := source.stderr }
  | .sigfinish => { conf with sigfinish := source.sigfinish }
  | .sigreload => { conf with sigreload := source.sigreload }
  | .uid => { conf with uid := source.uid }
  | .gid => { conf with gid := source.gid }
  | .nosid => { conf with nosid := source.nosid }
  | .umask => { conf with umask := source.umask }
  | .priority => { conf with priority := source.priority }
  | .load => { conf with start := { conf.start with load := source.start.load } }
  | .reload => { conf with start := { conf.start with reload := source.start.reload } }
  | .exitsuccess =>
    { conf with start := { conf.start with exitsuccess := source.start.exitsuccess } }
  | .exitfailure =>
    { conf with start := { conf.start with exitfailure := source.start.exitfailure } }
  | .killed => { conf with start := { conf.start with killed := source.start.killed } }
  | .dumped => { conf with start := { conf.start with dumped := source.start.dumped } }

/-- A record with some fields taken from another one. -/
def putFields (fields : List ConfField) (conf source : DaemonConf) : DaemonConf :=
  fields.foldl (fun conf field => field.put conf source) conf

/-- The fields of the keys of the general section. -/
def generalFields : List (Name × List ConfField) :=
  [(ascii "arguments", [.arguments]), (ascii "group", [.gid]), (ascii "nosid", [.nosid]),
    (ascii "path", [.path]), (ascii "priority", [.priority]), (ascii "sigfinish", [.sigfinish]),
    (ascii "sigreload", [.sigreload]), (ascii "stdin", [.stdin]), (ascii "stdout", [.stdout]),
    (ascii "stderr", [.stderr]), (ascii "umask", [.umask]), (ascii "user", [.uid]),
    (ascii "workdir", [.workdir])]

/-- The flags of the keys of the start section. -/
def startFields : List (Name × List ConfField) :=
  [(ascii "any exit", [.exitsuccess, .exitfailure, .killed, .dumped]),
    (ascii "dumped", [.dumped]), (ascii "exit", [.exitsuccess, .exitfailure]),
    (ascii "exit failure", [.exitfailure]), (ascii "exit success", [.exitsuccess]),
    (ascii "killed", [.killed]), (ascii "load", [.load]), (ascii "reload", [.reload])]

/-- The fields of a key in a table. -/
def fieldsIn (table : List (Name × List ConfField)) (key : Name) : List ConfField :=
  ((table.find? fun entry => entry.1 = key).map Prod.snd).getD []

/-- The fields that a key of a section stands for. -/
def keyFields : ConfSection → Name → List ConfField
  | .general, key => fieldsIn generalFields key
  | .environment, _ => [.environment]
  | .start, key => fieldsIn startFields key

/-- The lookup of the user or of the group that the value names fails. -/
def HandedValue.LookupFails (host : Host) (handed : HandedValue) : Prop :=
  handed.sec = .general ∧ ∃ value, handed.value = some value ∧
    (handed.key = ascii "user" ∧ host.getpwnam value = .failed ∨
      handed.key = ascii "group" ∧ host.getgrnam value = .failed)

/-- A record whose start flags are all raised. -/
def raised (host : Host) : DaemonConf :=
  { daemonConfInit host with start := ⟨true, true, true, true, true, true⟩ }

/-- What a parser does with a value handed to it, for any record. -/
inductive HandedEffect (host : Host) (handed : HandedValue) (parse : ValueParser) : Prop
  /-- It fails, and changes nothing. -/
  | rejected (status : ∀ conf, parse conf handed.key handed.value = (-1, conf))
  /-- It succeeds, and changes nothing. -/
  | ignored (fails : handed.LookupFails host)
      (status : ∀ conf, parse conf handed.key handed.value = (0, conf))
  /-- It writes the fields of its key, with flags that are raised in the start section. -/
  | written (sec : handed.sec ≠ .environment) (found : ¬ handed.LookupFails host)
      (source : DaemonConf)
      (status : ∀ conf, parse conf handed.key handed.value =
        (0, putFields (keyFields handed.sec handed.key) conf source))
      (flags : handed.sec = .start → source = raised host)
  /-- It appends a variable. -/
  | appended (sec : handed.sec = .environment)
      (status : ∀ conf, parse conf handed.key handed.value = (0, { conf with
        environment := daemonConfListAppend conf.environment
          (handed.key ++ 61 :: handed.value.getD handed.key) }))

variable {host : Host} {handed : HandedValue} {parse : ValueParser} {c c' c'' : DaemonConf}
  {field : ConfField}

theorem ConfField.Agree.refl (c : DaemonConf) (field : ConfField) : field.Agree c c := by
  cases field <;> exact rfl

theorem ConfField.Agree.symm (h : field.Agree c c') : field.Agree c' c := by
  cases field <;> exact Eq.symm h

theorem ConfField.Agree.trans (h : field.Agree c c') (h' : field.Agree c' c'') :
    field.Agree c c'' := by
  cases field <;> exact Eq.trans h h'

/-- The fields are the whole record. -/
theorem ConfField.ext (h : ∀ field : ConfField, field.Agree c c') : c = c' := by
  obtain ⟨_, _, _, _, _, _, _, _, _, _, _, _, _, _, _, _, _, _, _, _⟩ := c
  obtain ⟨_, _, _, _, _, _, _, _, _, _, _, _, _, _, _, _, _, _, _, _⟩ := c'
  simp only [DaemonConf.mk.injEq, Start.mk.injEq]
  exact ⟨h .path, h .arguments, h .environment, h .workdir, h .stdin, h .stdout, h .stderr,
    h .sigfinish, h .sigreload, h .uid, h .gid, h .nosid, h .umask, h .priority, h .load,
    h .reload, h .exitsuccess, h .exitfailure, h .killed, h .dumped⟩

/-- The other fields stay as they are. -/
theorem ConfField.put_other {field' : ConfField} (h : field' ≠ field) :
    field'.Agree (field.put c c') c := by
  cases field <;> cases field' <;> first | rfl | exact absurd rfl h

/-- The field is the one of the other record. -/
theorem ConfField.put_self : field.Agree (field.put c c') c' := by
  cases field <;> rfl

/-- Fields that are not taken stay as they are. -/
theorem putFields_other {fields : List ConfField} (h : field ∉ fields) :
    field.Agree (putFields fields c c') c := by
  induction fields generalizing c with
  | nil => exact .refl c field
  | cons f fields ih =>
    rw [List.mem_cons, not_or] at h
    exact (ih h.2).trans (ConfField.put_other h.1)

/-- Fields that are taken are those of the other record. -/
theorem putFields_self {fields : List ConfField} (h : field ∈ fields) :
    field.Agree (putFields fields c c') c' := by
  induction fields generalizing c with
  | nil => cases h
  | cons f fields ih =>
    by_cases hmem : field ∈ fields
    · exact ih hmem
    · obtain rfl := (List.mem_cons.mp h).resolve_right hmem
      exact (putFields_other hmem).trans ConfField.put_self

/-- The parser refuses the value, or stores what it stands for. -/
def StoresOrFails {α : Type} (parse : ValueParser) (assign : DaemonConf → α → DaemonConf)
    (key : Name) (value : Option Name) : Prop :=
  (∀ conf, parse conf key value = (-1, conf)) ∨
    ∃ a, ∀ conf, parse conf key value = (0, assign conf a)

section Parsers

variable (key : Name) (value : Option Name)

theorem parsePath_stores (assign : DaemonConf → Option Name → DaemonConf) :
    StoresOrFails (parsePath assign) assign key value := by
  unfold StoresOrFails parsePath
  cases daemonConfPath value with
  | none => exact Or.inl fun _ => rfl
  | some path => exact Or.inr ⟨_, fun _ => rfl⟩

theorem parseSignal_stores (host : Host) (assign : DaemonConf → Nat → DaemonConf) :
    StoresOrFails (parseSignal host assign) assign key value := by
  unfold StoresOrFails parseSignal
  cases daemonConfSignal host value with
  | none => exact Or.inl fun _ => rfl
  | some signo => exact Or.inr ⟨_, fun _ => rfl⟩

theorem parseScalar_stores (assign : DaemonConf → DaemonConf) :
    StoresOrFails (parseScalar assign) (fun conf (_ : Unit) => assign conf) key value := by
  unfold StoresOrFails parseScalar
  cases value with
  | some value => exact Or.inl fun _ => rfl
  | none => exact Or.inr ⟨(), fun _ => rfl⟩

theorem parseGeneralArguments_stores :
    StoresOrFails daemonConfParseGeneralArguments
      (fun conf arguments => { conf with arguments := some arguments }) key value := by
  unfold StoresOrFails daemonConfParseGeneralArguments
  cases value with
  | none => exact Or.inl fun _ => rfl
  | some value =>
    simp only
    cases expandArguments value with
    | error trap => exact Or.inl fun _ => rfl
    | ok arguments =>
      cases arguments with
      | none => exact Or.inl fun _ => rfl
      | some arguments => exact Or.inr ⟨arguments, fun _ => rfl⟩

theorem parseGeneralPriority_stores :
    StoresOrFails daemonConfParseGeneralPriority
      (fun conf priority => { conf with priority := priority }) key value := by
  unfold StoresOrFails daemonConfParseGeneralPriority
  cases value with
  | none => exact Or.inl fun _ => rfl
  | some value =>
    simp only
    split
    · exact Or.inl fun _ => rfl
    · exact Or.inr ⟨_, fun _ => rfl⟩

theorem parseGeneralUmask_stores :
    StoresOrFails daemonConfParseGeneralUmask
      (fun conf umask => { conf with umask := umask }) key value := by
  unfold StoresOrFails daemonConfParseGeneralUmask
  cases value with
  | none => exact Or.inl fun _ => rfl
  | some value =>
    simp only
    split
    · exact Or.inl fun _ => rfl
    · exact Or.inr ⟨_, fun _ => rfl⟩

/-- Unless its lookup fails, the parser of a user or a group is like the others. -/
theorem parseId_stores (lookup : Name → Lookup) (max : Nat)
    (assign : DaemonConf → Nat → DaemonConf) :
    (¬ ∃ name, value = some name ∧ lookup name = .failed) ∧
        StoresOrFails (parseId lookup max assign) assign key value ∨
      (∃ name, value = some name ∧ lookup name = .failed) ∧
        ∀ conf, parseId lookup max assign conf key value = (0, conf) := by
  unfold StoresOrFails parseId
  cases value with
  | none => exact Or.inl ⟨by simp, Or.inl fun _ => rfl⟩
  | some name =>
    simp only [Option.some.injEq, exists_eq_left']
    cases hlookup : lookup name with
    | found id => exact Or.inl ⟨by simp, Or.inr ⟨id, fun _ => rfl⟩⟩
    | failed => exact Or.inr ⟨rfl, fun _ => rfl⟩
    | missing =>
      simp only
      split
      · exact Or.inl ⟨by simp, Or.inl fun _ => rfl⟩
      · exact Or.inl ⟨by simp, Or.inr ⟨_, fun _ => rfl⟩⟩

end Parsers

/-- The parser of a key is the one of an entry of its section. -/
theorem findParser_entry {sec : ConfSection} {key : Name}
    (h : findParser host sec key = some parse) :
    ∃ entry ∈ sec.values host, entry.parse = some parse ∧
      (entry.key = none ∨ entry.key = some key) := by
  rw [findParser, Option.bind_eq_some_iff] at h
  obtain ⟨entry, hfind, hparse⟩ := h
  have hkey := List.find?_some hfind
  exact ⟨entry, List.mem_of_find?_eq_some hfind, hparse, by simpa using hkey⟩

/-- The entries of the other sections than the environment have a key. -/
theorem findParser_key {sec : ConfSection} {key : Name} (hsec : sec ≠ .environment)
    (h : findParser host sec key = some parse) :
    ∃ entry ∈ sec.values host, entry.parse = some parse ∧ entry.key = some key := by
  obtain ⟨entry, hmem, hparse, hnone | hkey⟩ := findParser_entry h
  · have hend : ∀ entry ∈ sec.values host, entry.key = none → entry.parse = none := by
      cases sec with
      | general => simp [ConfSection.values, generalValues]
      | environment => exact absurd rfl hsec
      | start => simp [ConfSection.values, startValues]
    rw [hend entry hmem hnone] at hparse
    cases hparse
  · exact ⟨entry, hmem, hparse, hkey⟩

/-- The keys that name neither a user nor a group have nothing to look up. -/
theorem not_lookupFails (huser : handed.key ≠ ascii "user") (hgroup : handed.key ≠ ascii "group") :
    ¬ handed.LookupFails host := by
  rintro ⟨-, value, -, ⟨hkey, -⟩ | ⟨hkey, -⟩⟩
  · exact huser hkey
  · exact hgroup hkey

/-- A parser that stores what its value stands for in the fields of its key. -/
theorem StoresOrFails.written {α : Type} {assign : DaemonConf → α → DaemonConf} {name : Name}
    (h : StoresOrFails parse assign handed.key handed.value) (hkey : handed.key = name)
    (hsec : handed.sec ≠ .environment) (hfound : ¬ handed.LookupFails host)
    (source : α → DaemonConf)
    (hput : ∀ conf a, assign conf a = putFields (keyFields handed.sec name) conf (source a))
    (hflags : handed.sec = .start → ∀ a, source a = raised host) :
    HandedEffect host handed parse := by
  subst hkey
  rcases h with hreject | ⟨a, hstore⟩
  · exact .rejected hreject
  · refine .written hsec hfound (source a) (fun conf => ?_) fun hstart => hflags hstart a
    rw [hstore, hput]

/-- Which lookup a user or a group depends on. -/
theorem lookupFails_iff (hsec : handed.sec = .general) :
    (handed.key = ascii "user" → (handed.LookupFails host ↔
      ∃ value, handed.value = some value ∧ host.getpwnam value = .failed)) ∧
    (handed.key = ascii "group" → (handed.LookupFails host ↔
      ∃ value, handed.value = some value ∧ host.getgrnam value = .failed)) := by
  have hne : ascii "user" ≠ ascii "group" := by decide
  constructor
  · intro hkey
    simp [HandedValue.LookupFails, hsec, hkey, hne]
  · intro hkey
    simp [HandedValue.LookupFails, hsec, hkey, hne.symm]

/-- The parser of a user or of a group. -/
theorem parseId_effect {lookup : Name → Lookup} {max : Nat}
    {assign : DaemonConf → Nat → DaemonConf} {name : Name} (hkey : handed.key = name)
    (hsec : handed.sec = .general)
    (hfails : handed.LookupFails host ↔ ∃ value, handed.value = some value ∧ lookup value = .failed)
    (source : Nat → DaemonConf)
    (hput : ∀ conf a, assign conf a = putFields (keyFields .general name) conf (source a)) :
    HandedEffect host handed (parseId lookup max assign) := by
  have henv : handed.sec ≠ .environment := by simp [hsec]
  rcases parseId_stores handed.key handed.value lookup max assign with
    ⟨hfound, hstores⟩ | ⟨hfailed, hstatus⟩
  · exact hstores.written hkey henv (fun h => hfound (hfails.mp h)) source
      (by rw [hsec]; exact hput) (by simp [hsec])
  · exact .ignored (hfails.mpr hfailed) hstatus

/-- The values of the general section are stored in the fields of their keys. -/
theorem handedEffect_general {key : Name} {value : Option Name}
    (h : findParser host .general key = some parse) :
    HandedEffect host ⟨.general, key, value⟩ parse := by
  obtain ⟨entry, hmem, hparse, hkey⟩ := findParser_key (by decide) h
  have hnone : ∀ {name : Name}, key = name → name ≠ ascii "user" ∧ name ≠ ascii "group" →
      ¬ HandedValue.LookupFails host ⟨.general, key, value⟩ := by
    rintro name rfl ⟨huser, hgroup⟩
    exact not_lookupFails huser hgroup
  have henv : ConfSection.general ≠ .environment := by decide
  have hflags : ∀ {α : Type} {source : α → DaemonConf},
      ConfSection.general = .start → ∀ a, source a = raised host := by
    intro α source hstart
    cases hstart
  simp only [ConfSection.values, generalValues, List.mem_cons, List.not_mem_nil, or_false] at hmem
  rcases hmem with rfl | rfl | rfl | rfl | rfl | rfl | rfl | rfl | rfl | rfl | rfl | rfl | rfl | rfl
    <;> cases hparse <;> have hk := (Option.some.inj hkey).symm
  · exact (parseGeneralArguments_stores _ _).written hk henv (hnone hk (by decide))
      (fun a => { daemonConfInit host with arguments := some a }) (fun _ _ => rfl) hflags
  · exact parseId_effect hk rfl ((lookupFails_iff rfl).2 hk)
      (fun a => { daemonConfInit host with gid := a }) fun _ _ => rfl
  · exact (parseScalar_stores _ _ _).written hk henv (hnone hk (by decide))
      (fun _ => { daemonConfInit host with nosid := true }) (fun _ _ => rfl) hflags
  · exact (parsePath_stores _ _ _).written hk henv (hnone hk (by decide))
      (fun a => { daemonConfInit host with path := a }) (fun _ _ => rfl) hflags
  · exact (parseGeneralPriority_stores _ _).written hk henv (hnone hk (by decide))
      (fun a => { daemonConfInit host with priority := a }) (fun _ _ => rfl) hflags
  · exact (parseSignal_stores _ _ host _).written hk henv (hnone hk (by decide))
      (fun a => { daemonConfInit host with sigfinish := a }) (fun _ _ => rfl) hflags
  · exact (parseSignal_stores _ _ host _).written hk henv (hnone hk (by decide))
      (fun a => { daemonConfInit host with sigreload := a }) (fun _ _ => rfl) hflags
  · exact (parsePath_stores _ _ _).written hk henv (hnone hk (by decide))
      (fun a => { daemonConfInit host with stdin := a }) (fun _ _ => rfl) hflags
  · exact (parsePath_stores _ _ _).written hk henv (hnone hk (by decide))
      (fun a => { daemonConfInit host with stdout := a }) (fun _ _ => rfl) hflags
  · exact (parsePath_stores _ _ _).written hk henv (hnone hk (by decide))
      (fun a => { daemonConfInit host with stderr := a }) (fun _ _ => rfl) hflags
  · exact (parseGeneralUmask_stores _ _).written hk henv (hnone hk (by decide))
      (fun a => { daemonConfInit host with umask := a }) (fun _ _ => rfl) hflags
  · exact parseId_effect hk rfl ((lookupFails_iff rfl).1 hk)
      (fun a => { daemonConfInit host with uid := a }) fun _ _ => rfl
  · exact (parsePath_stores _ _ _).written hk henv (hnone hk (by decide))
      (fun a => { daemonConfInit host with workdir := a }) (fun _ _ => rfl) hflags

/-- The values of the start section raise the flags of their keys. -/
theorem handedEffect_start {key : Name} {value : Option Name}
    (h : findParser host .start key = some parse) :
    HandedEffect host ⟨.start, key, value⟩ parse := by
  obtain ⟨entry, hmem, hparse, hkey⟩ := findParser_key (by decide) h
  have hraises : ∀ {name : Name} {assign : DaemonConf → DaemonConf}, key = name →
      (∀ conf, assign conf = putFields (keyFields .start name) conf (raised host)) →
      HandedEffect host ⟨.start, key, value⟩ (parseScalar assign) := by
    intro name assign hk hput
    exact (parseScalar_stores key value assign).written hk (by simp)
      (fun hfails => by cases hfails.1) (fun _ => raised host) (fun conf _ => hput conf)
      fun _ _ => rfl
  simp only [ConfSection.values, startValues, List.mem_cons, List.not_mem_nil, or_false] at hmem
  rcases hmem with rfl | rfl | rfl | rfl | rfl | rfl | rfl | rfl | rfl
    <;> cases hparse <;> exact hraises (Option.some.inj hkey).symm fun _ => rfl

/-- Every value that is handed to a parser has one of these effects. -/
theorem handedEffect (h : findParser host handed.sec handed.key = some parse) :
    HandedEffect host handed parse := by
  obtain ⟨sec, key, value⟩ := handed
  cases sec with
  | general => exact handedEffect_general h
  | start => exact handedEffect_start h
  | environment =>
    cases h
    exact .appended rfl fun _ => rfl

end Cyberd
