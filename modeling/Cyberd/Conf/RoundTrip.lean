import Cyberd.Conf.Writer

/-!
# A written configuration is parsed back

Every entry of the written file sets the field it was made from, so that parsing
the file from the defaults gives the configuration that was written.
-/

namespace Cyberd

open Library

/-- A path that can be written. -/
structure PathValue (path : Name) : Prop extends FileValue path where
  /-- It is absolute. -/
  absolute : path.head? = some 47

/-- The configurations that can be written with these variables. -/
structure Expressible (host : Host) (conf : DaemonConf) (vars : List Variable) : Prop where
  /-- The path is set. -/
  path : ∃ path, conf.path = some path ∧ PathValue path
  /-- The arguments are absent, or a non-empty list of texts. -/
  arguments : ∀ arguments, conf.arguments = some arguments →
    arguments ≠ [] ∧ ∀ argument ∈ arguments, Plain argument
  /-- The environment is made of the variables, and absent without any. -/
  environment : conf.environment = if vars = [] then none else some (vars.map Variable.pair)
  /-- The other paths are absent or absolute. -/
  paths : ∀ path, conf.workdir = some path ∨ conf.stdin = some path ∨ conf.stdout = some path ∨
    conf.stderr = some path → PathValue path
  /-- The signals are numbers of signals. -/
  signals : ∀ signo, signo = conf.sigfinish ∨ signo = conf.sigreload → 0 < signo ∧ signo < nsig
  /-- The user does not exceed its maximum. -/
  uid : conf.uid ≤ host.maxUid
  /-- The group does not exceed its maximum. -/
  gid : conf.gid ≤ host.maxGid
  /-- The umask is one of a file mode. -/
  umask : conf.umask ≤ 0o777
  /-- The priority is one of a process. -/
  priority : -20 ≤ conf.priority ∧ conf.priority ≤ 19

/-- What is assumed of the build and of the databases of the host: the maxima are
identifiers, and the name made of the digits of an identifier is not the one of another
user or group. -/
structure HostAccepts (host : Host) (conf : DaemonConf) : Prop where
  /-- The maximum of a user is a `uid_t`. -/
  maxUid : host.maxUid < 2 ^ 32
  /-- The maximum of a group is a `gid_t`. -/
  maxGid : host.maxGid < 2 ^ 32
  /-- The digits of the user are no name, or the one of the user. -/
  user : host.getpwnam (numeral 10 conf.uid) = .missing ∨
    host.getpwnam (numeral 10 conf.uid) = .found conf.uid
  /-- The digits of the group are no name, or the one of the group. -/
  group : host.getgrnam (numeral 10 conf.gid) = .missing ∨
    host.getgrnam (numeral 10 conf.gid) = .found conf.gid

/-- The effect of an entry of a section. -/
def parseEntry (host : Host) (sec : ConfSection) (conf : DaemonConf) (entry : Entry) :
    DaemonConf :=
  HandedValue.parse host conf ⟨sec, entry.1, entry.2⟩

/-- The effect of an optional entry is the one of the parser of its key. -/
theorem foldl_textEntry {host : Host} {sec : ConfSection} (key : String) {parse : ValueParser}
    (hparse : findParser host sec (ascii key) = some parse) (value : Option Name)
    (conf : DaemonConf) :
    (textEntry key value).foldl (parseEntry host sec) conf =
      match value with
      | none => conf
      | some value => (parse conf (ascii key) (some value)).2 := by
  cases value with
  | none => rfl
  | some value => simp [textEntry, parseEntry, HandedValue.parse, hparse]

/-- The effect of the entry of a path that was not set before. -/
theorem foldl_path {host : Host} (key : String) {assign : DaemonConf → Option Name → DaemonConf}
    (hparse : findParser host .general (ascii key) = some (parsePath assign))
    {path : Option Name} (h : ∀ p, path = some p → PathValue p) {conf : DaemonConf}
    (hnone : assign conf none = conf) :
    (textEntry key path).foldl (parseEntry host .general) conf = assign conf path := by
  rw [foldl_textEntry key hparse]
  cases path with
  | none => exact hnone.symm
  | some path =>
    obtain ⟨rest, rfl⟩ := List.head?_eq_some_iff.mp (h path rfl).absolute
    rfl

/-- The effect of the entry of a signal. -/
theorem foldl_signal {host : Host} (key : String) {assign : DaemonConf → Nat → DaemonConf}
    (hparse : findParser host .general (ascii key) = some (parseSignal host assign))
    {signo : Nat} (h : signo < nsig) (conf : DaemonConf) :
    (textEntry key (some (numeral 10 signo))).foldl (parseEntry host .general) conf =
      assign conf signo := by
  rw [foldl_textEntry key hparse]
  obtain ⟨byte, rest, hnum, hdigit⟩ := @numeral_head 10 (by omega) (by omega) signo
  have hread := @strtoul_numeral 10 (by omega) (by omega) signo
    (by unfold nsig at h; omega)
  simp only [parseSignal, daemonConfSignal]
  rw [if_pos (by rw [hnum]; exact hdigit), hread]
  simp only
  rw [if_neg (by simp; omega)]

/-- The effect of the entry of a user or of a group. -/
theorem foldl_id {host : Host} (key : String) {lookup : Name → Lookup} {max : Nat}
    {assign : DaemonConf → Nat → DaemonConf}
    (hparse : findParser host .general (ascii key) = some (parseId lookup max assign))
    {id : Nat} (hmax : max < 2 ^ 32) (hid : id ≤ max)
    (hlookup : lookup (numeral 10 id) = .missing ∨ lookup (numeral 10 id) = .found id)
    (conf : DaemonConf) :
    (textEntry key (some (numeral 10 id))).foldl (parseEntry host .general) conf =
      assign conf id := by
  rw [foldl_textEntry key hparse]
  simp only [parseId]
  rcases hlookup with hlookup | hlookup
  · rw [hlookup]
    simp only
    rw [strtoul_numeral (by omega) (by omega) (by omega)]
    simp only
    rw [if_neg (by simp; omega), Nat.mod_eq_of_lt (by omega)]
  · rw [hlookup]

/-- The effect of the entry of a flag. -/
theorem foldl_flagEntry {host : Host} {sec : ConfSection} (key : String)
    {assign : DaemonConf → DaemonConf}
    (hparse : findParser host sec (ascii key) = some (parseScalar assign)) (flag : Bool)
    (conf : DaemonConf) :
    (flagEntry key flag).foldl (parseEntry host sec) conf = if flag then assign conf else conf := by
  cases flag with
  | false => rfl
  | true => simp [flagEntry, parseEntry, HandedValue.parse, hparse, parseScalar]

/-- The effect of the entry of the umask. -/
theorem foldl_umask (host : Host) {umask : Nat} (h : umask ≤ 0o777) (conf : DaemonConf) :
    (textEntry "umask" (some (numeral 8 umask))).foldl (parseEntry host .general) conf =
      { conf with umask := umask } := by
  rw [@foldl_textEntry host .general "umask" daemonConfParseGeneralUmask rfl]
  simp only [daemonConfParseGeneralUmask]
  rw [strtoul_numeral (by omega) (by omega) (by omega)]
  simp only
  rw [if_neg (by simp), Nat.mod_eq_of_lt (by omega)]

/-- The effect of the entry of the priority. -/
theorem foldl_priority (host : Host) {priority : Int} (h : -20 ≤ priority ∧ priority ≤ 19)
    (conf : DaemonConf) :
    (textEntry "priority" (some (intNumeral 10 priority))).foldl (parseEntry host .general) conf =
      { conf with priority := priority } := by
  rw [@foldl_textEntry host .general "priority" daemonConfParseGeneralPriority rfl]
  simp only [daemonConfParseGeneralPriority]
  rw [strtol_intNumeral (by omega) (by omega) (by omega)]
  simp only
  rw [if_neg (by simp; omega)]

/-- A quoted argument is expanded to itself. -/
theorem tokenize_quoted (arguments : Option (List Name)) (word argument rest : List UInt8) :
    tokenize .quoteDouble arguments word
        (argument.flatMap escapeByte ++ byteDoubleQuote :: rest) =
      tokenize .literal arguments (word ++ argument) rest := by
  induction argument generalizing word with
  | nil =>
    rw [List.flatMap_nil, List.nil_append, tokenize, if_pos rfl, List.append_nil]
  | cons byte argument ih =>
    rw [List.flatMap_cons, escapeByte]
    have hassoc : word ++ byte :: argument = word ++ [byte] ++ argument := by simp
    split
    · rw [List.append_assoc, List.cons_append, List.cons_append, tokenize, if_neg (by decide),
        if_pos rfl, tokenize, List.nil_append, ih, hassoc]
    · rename_i hplain
      rw [not_or] at hplain
      rw [List.append_assoc, List.cons_append, tokenize, if_neg hplain.1, if_neg hplain.2,
        List.nil_append, ih, hassoc]

/-- Written arguments are expanded to themselves. -/
theorem tokenize_writeArguments {arguments : List Name} (h : arguments ≠ []) :
    tokenize .spaces none [] (writeArguments arguments) = some arguments := by
  have hmore : ∀ (rest : List Name) (done : Option (List Name)) (word : Name),
      tokenize .literal done word (rest.flatMap fun argument => byteBlank :: quote argument) =
        some (done.getD [] ++ [word] ++ rest) := by
    intro rest
    induction rest with
    | nil =>
      intro done word
      simp [tokenize, daemonConfListAppend]
    | cons argument rest ih =>
      intro done word
      rw [List.flatMap_cons, List.cons_append, tokenize, if_neg (by decide), if_neg (by decide),
        if_pos rfl, quote, List.cons_append, List.cons_append, tokenize, if_neg (by decide),
        if_pos rfl, List.append_assoc, List.singleton_append, tokenize_quoted, ih]
      simp [daemonConfListAppend]
  cases arguments with
  | nil => exact absurd rfl h
  | cons argument arguments =>
    rw [writeArguments, quote, List.cons_append, List.cons_append, tokenize, if_neg (by decide),
      if_pos rfl, List.append_assoc, List.singleton_append, tokenize_quoted, hmore]
    rfl

/-- A text without white space around it, by its first and its last byte. -/
theorem trimmed_of_ends {text : List UInt8} (hhead : text.head?.map isSpace ≠ some true)
    (hlast : text.getLast?.map isSpace ≠ some true) : Trimmed text := by
  constructor
  · rintro byte rest rfl
    simpa using hhead
  · rintro rest byte rfl
    simpa using hlast

/-- The keys of the tables can be written. -/
theorem fileKey_of_knows {sec : ConfSection} {key : Name} (hsec : sec ≠ .environment)
    (h : sec.knows key = true) : FileKey key := by
  have hkey : ∀ text : String, ascii text = key →
      (Plain (ascii text) ∧ (ascii text).head?.map isSpace ≠ some true ∧
        (ascii text).getLast?.map isSpace ≠ some true ∧ ascii text ≠ [] ∧
        byteSeparator ∉ ascii text ∧ (ascii text).head? ≠ some byteOpen) → FileKey key := by
    rintro text rfl ⟨hplain, hhead, hlast, hne, hsep, hopen⟩
    exact ⟨hplain, trimmed_of_ends hhead hlast, hne, hsep, hopen⟩
  cases sec with
  | environment => exact absurd rfl hsec
  | general =>
    simp only [ConfSection.knows, List.any_cons, List.any_nil, Bool.or_eq_true,
      decide_eq_true_eq, Bool.false_eq_true, or_false] at h
    rcases h with h | h | h | h | h | h | h | h | h | h | h | h | h
    all_goals exact hkey _ h (by decide)
  | start =>
    simp only [ConfSection.knows, List.any_cons, List.any_nil, Bool.or_eq_true,
      decide_eq_true_eq, Bool.false_eq_true, or_false] at h
    rcases h with h | h | h | h | h | h | h | h
    all_goals exact hkey _ h (by decide)

/-- A digit is plain, and no white space. -/
private theorem isDigit_plain {byte : UInt8} (h : isDigit byte = true) :
    (byte ≠ 0 ∧ byte ≠ byteNewline ∧ byte ≠ byteComment) ∧ isSpace byte = false := by
  have hrange : 48 ≤ byte.toNat ∧ byte.toNat < 58 := by
    simp only [isDigit, digitOf] at h
    split at h
    · assumption
    · cases h
  have hne : ∀ other : UInt8, other.toNat < 48 → byte ≠ other := by
    rintro other hlt rfl
    omega
  refine ⟨⟨hne 0 (by decide), hne _ (by decide), hne _ (by decide)⟩, ?_⟩
  simp only [isSpace, Bool.or_eq_false_iff, beq_eq_false_iff_ne, Bool.and_eq_false_iff,
    decide_eq_false_iff_not, UInt8.le_iff_toNat_le]
  exact ⟨hne 32 (by decide), Or.inr (by simp; omega)⟩

/-- A text of bytes that are no white space can be written. -/
private theorem fileValue_of_bytes {text : List UInt8}
    (h : ∀ byte ∈ text, (byte ≠ 0 ∧ byte ≠ byteNewline ∧ byte ≠ byteComment) ∧
      isSpace byte = false) : FileValue text := by
  refine ⟨fun byte hb => (h byte hb).1, ⟨?_, ?_⟩⟩
  · rintro byte rest rfl
    exact (h byte (List.mem_cons_self ..)).2
  · rintro rest byte rfl
    exact (h byte (by simp)).2

/-- A numeral can be written. -/
theorem numeral_fileValue {base : Nat} (hb : base ≤ 10) (hpos : 1 < base) (n : Nat) :
    FileValue (numeral base n) :=
  fileValue_of_bytes fun byte h => isDigit_plain (numeral_isDigit hb hpos n byte h)

/-- A numeral with its sign can be written. -/
theorem intNumeral_fileValue (n : Int) : FileValue (intNumeral 10 n) := by
  refine fileValue_of_bytes fun byte h => ?_
  unfold intNumeral at h
  split at h
  · rcases List.mem_cons.mp h with rfl | h
    · decide
    · exact isDigit_plain (numeral_isDigit (by omega) (by omega) _ byte h)
  · exact isDigit_plain (numeral_isDigit (by omega) (by omega) _ byte h)

/-- A quoted argument is plain. -/
private theorem quote_plain {argument : Name} (h : Plain argument) : Plain (quote argument) := by
  intro byte hb
  rw [quote, List.cons_append, List.mem_cons, List.mem_append, List.mem_singleton,
    List.mem_flatMap] at hb
  rcases hb with rfl | ⟨b, hmem, hb⟩ | rfl
  · decide
  · rw [escapeByte] at hb
    split at hb
    · rcases List.mem_cons.mp hb with rfl | hb
      · decide
      · rw [List.mem_singleton.mp hb]
        exact h b hmem
    · rw [List.mem_singleton.mp hb]
      exact h b hmem
  · decide

/-- A quoted argument ends with a quote. -/
private theorem quote_getLast (text : List UInt8) (argument : Name) :
    (text ++ quote argument).getLast? = some byteDoubleQuote := by
  rw [quote, ← List.append_assoc, List.getLast?_concat]

/-- Written arguments can be written, they begin and end with a quote. -/
theorem writeArguments_fileValue {arguments : List Name} (hne : arguments ≠ [])
    (h : ∀ argument ∈ arguments, Plain argument) : FileValue (writeArguments arguments) := by
  have hlast : ∀ (rest : List Name) (text : List UInt8), text.getLast? = some byteDoubleQuote →
      (text ++ rest.flatMap fun argument => byteBlank :: quote argument).getLast? =
        some byteDoubleQuote := by
    intro rest
    induction rest with
    | nil =>
      intro text htext
      rw [List.flatMap_nil, List.append_nil, htext]
    | cons argument rest ih =>
      intro text htext
      rw [List.flatMap_cons, ← List.append_assoc]
      refine ih _ ?_
      rw [← List.singleton_append, ← List.append_assoc, quote_getLast]
  cases arguments with
  | nil => exact absurd rfl hne
  | cons argument arguments =>
    refine ⟨fun byte hb => ?_, trimmed_of_ends ?_ ?_⟩
    · rw [writeArguments, List.mem_append, List.mem_flatMap] at hb
      rcases hb with hb | ⟨other, hmem, hb⟩
      · exact quote_plain (h argument (List.mem_cons_self ..)) byte hb
      · rcases List.mem_cons.mp hb with rfl | hb
        · decide
        · exact quote_plain (h other (List.mem_cons_of_mem _ hmem)) byte hb
    · simp only [writeArguments, quote, List.cons_append, List.head?_cons, Option.map_some]
      decide
    · rw [writeArguments, hlast arguments (quote argument) (quote_getLast [] argument)]
      decide

/-- The effect of the entry of the arguments. -/
theorem foldl_arguments (host : Host) {arguments : Option (List Name)}
    (h : ∀ l, arguments = some l → l ≠ [] ∧ ∀ argument ∈ l, Plain argument) (conf : DaemonConf) :
    (textEntry "arguments" (arguments.map writeArguments)).foldl (parseEntry host .general) conf =
      { conf with arguments := arguments <|> conf.arguments } := by
  rw [@foldl_textEntry host .general "arguments" daemonConfParseGeneralArguments rfl]
  cases arguments with
  | none => rfl
  | some arguments =>
    obtain ⟨hne, hplain⟩ := h arguments rfl
    have hnul : (0 : UInt8) ∉ writeArguments arguments := fun hmem =>
      ((writeArguments_fileValue hne hplain).plain 0 hmem).1 rfl
    simp only [Option.map_some, daemonConfParseGeneralArguments]
    rw [expandArguments_eq hnul, tokenize_writeArguments hne]
    rfl

/-- The effect of the variables. -/
theorem foldl_environment (host : Host) (vars : List Variable) (conf : DaemonConf) :
    (environmentEntries vars).foldl (parseEntry host .environment) conf =
      { conf with environment :=
          if vars = [] then conf.environment
          else some (conf.environment.getD [] ++ vars.map Variable.pair) } := by
  induction vars generalizing conf with
  | nil => rfl
  | cons v vars ih =>
    have hhead : parseEntry host .environment conf (v.key, some v.value) =
        { conf with environment := some (conf.environment.getD [] ++ [v.pair]) } := rfl
    rw [environmentEntries, List.map_cons, List.foldl_cons, hhead]
    refine (ih _).trans ?_
    cases vars with
    | nil => simp
    | cons v' vars => simp

/-- The effect of the flags of the start settings. -/
theorem foldl_start (host : Host) (start : Start) {conf : DaemonConf}
    (h : conf.start = (daemonConfInit host).start) :
    (startEntries start).foldl (parseEntry host .start) conf = { conf with start := start } := by
  obtain ⟨load, reload, exitsuccess, exitfailure, killed, dumped⟩ := start
  simp only [startEntries, List.foldl_append]
  rw [foldl_flagEntry "load" rfl, foldl_flagEntry "reload" rfl,
    foldl_flagEntry "exit success" rfl, foldl_flagEntry "exit failure" rfl,
    foldl_flagEntry "killed" rfl, foldl_flagEntry "dumped" rfl]
  cases conf
  simp only [daemonConfInit] at h
  subst h
  cases load <;> cases reload <;> cases exitsuccess <;> cases exitfailure <;> cases killed <;>
    cases dumped <;> rfl

/-- The effect of the entries of the general section. -/
theorem foldl_general {host : Host} {conf : DaemonConf} {vars : List Variable}
    (he : Expressible host conf vars) (hh : HostAccepts host conf) :
    (generalEntries conf).foldl (parseEntry host .general) (daemonConfInit host) =
      { conf with environment := none, start := (daemonConfInit host).start } := by
  obtain ⟨path, hpath, hvalue⟩ := he.path
  have hpaths : ∀ p, conf.path = some p → PathValue p := fun p hp => by
    rw [hpath] at hp
    cases hp
    exact hvalue
  simp only [generalEntries, List.foldl_append]
  rw [foldl_path "path" rfl hpaths rfl, foldl_arguments host he.arguments,
    foldl_path "workdir" rfl (fun p hp => he.paths p (Or.inl hp)) rfl,
    foldl_path "stdin" rfl (fun p hp => he.paths p (Or.inr (Or.inl hp))) rfl,
    foldl_path "stdout" rfl (fun p hp => he.paths p (Or.inr (Or.inr (Or.inl hp)))) rfl,
    foldl_path "stderr" rfl (fun p hp => he.paths p (Or.inr (Or.inr (Or.inr hp)))) rfl,
    foldl_signal "sigfinish" rfl (he.signals _ (Or.inl rfl)).2,
    foldl_signal "sigreload" rfl (he.signals _ (Or.inr rfl)).2,
    foldl_id "user" rfl hh.maxUid he.uid hh.user,
    foldl_id "group" rfl hh.maxGid he.gid hh.group,
    foldl_flagEntry "nosid" rfl, foldl_umask host he.umask,
    foldl_priority host he.priority]
  cases conf with
  | mk path arguments environment workdir stdin stdout stderr sigfinish sigreload uid gid nosid
      umask priority start =>
    simp only [daemonConfInit, Option.orElse_eq_orElse, Option.orElse_eq_or, Option.or_none]
    cases nosid <;> rfl

/-- The entries of a text that can be written can be written. -/
private theorem textEntry_valid {sec : ConfSection} {key : String} {value : Option Name}
    (hsec : sec ≠ .environment) (hkey : sec.knows (ascii key) = true)
    (h : ∀ v, value = some v → FileValue v) :
    ∀ e ∈ textEntry key value, FileEntry e ∧ sec.knows e.1 = true := by
  intro e he
  obtain ⟨v, hv, rfl⟩ := List.mem_map.mp he
  rw [Option.mem_toList] at hv
  exact ⟨⟨fileKey_of_knows hsec hkey, fun w hw => h w (by rw [hv, ← hw])⟩, hkey⟩

/-- The entry of a flag can be written. -/
private theorem flagEntry_valid {sec : ConfSection} {key : String} (flag : Bool)
    (hsec : sec ≠ .environment) (hkey : sec.knows (ascii key) = true) :
    ∀ e ∈ flagEntry key flag, FileEntry e ∧ sec.knows e.1 = true := by
  intro e he
  rw [flagEntry] at he
  split at he
  · rw [List.mem_singleton.mp he]
    exact ⟨⟨fileKey_of_knows hsec hkey, fun v hv => by cases hv⟩, hkey⟩
  · cases he

/-- Every written entry can be written. -/
theorem writeLines_valid {host : Host} {conf : DaemonConf} {vars : List Variable}
    (he : Expressible host conf vars) :
    (∀ e ∈ generalEntries conf, FileEntry e ∧ ConfSection.general.knows e.1 = true) ∧
      (∀ e ∈ environmentEntries vars, FileEntry e) ∧
      ∀ e ∈ startEntries conf.start, FileEntry e ∧ ConfSection.start.knows e.1 = true := by
  have happend : ∀ {sec : ConfSection} {left right : List Entry},
      (∀ e ∈ left, FileEntry e ∧ sec.knows e.1 = true) →
      (∀ e ∈ right, FileEntry e ∧ sec.knows e.1 = true) →
      ∀ e ∈ left ++ right, FileEntry e ∧ sec.knows e.1 = true :=
    fun hl hr e he => (List.mem_append.mp he).elim (hl e) (hr e)
  have htext : ∀ {key : String} {value : Option Name}, ConfSection.general.knows (ascii key) →
      (∀ v, value = some v → FileValue v) →
      ∀ e ∈ textEntry key value, FileEntry e ∧ ConfSection.general.knows e.1 = true :=
    fun hkey h => textEntry_valid (by decide) hkey h
  have hnumeral : ∀ {base n : Nat}, base ≤ 10 → 1 < base →
      ∀ v, some (numeral base n) = some v → FileValue v := by
    rintro base n hb hpos v hv
    cases hv
    exact numeral_fileValue hb hpos n
  refine ⟨?_, fun e hmem => ?_, ?_⟩
  · unfold generalEntries
    refine happend (happend (happend (happend (happend (happend (happend (happend (happend (happend
      (happend (happend ?_ ?_) ?_) ?_) ?_) ?_) ?_) ?_) ?_) ?_) ?_) ?_) ?_
    · refine htext (by decide) fun v hv => ?_
      obtain ⟨path, hpath, hvalue⟩ := he.path
      rw [hpath] at hv
      cases hv
      exact hvalue.toFileValue
    · refine htext (by decide) fun v hv => ?_
      obtain ⟨arguments, hargs, rfl⟩ := Option.map_eq_some_iff.mp hv
      obtain ⟨hne, hplain⟩ := he.arguments arguments hargs
      exact writeArguments_fileValue hne hplain
    · exact htext (by decide) fun v hv => (he.paths v (Or.inl hv)).toFileValue
    · exact htext (by decide) fun v hv => (he.paths v (Or.inr (Or.inl hv))).toFileValue
    · exact htext (by decide) fun v hv => (he.paths v (Or.inr (Or.inr (Or.inl hv)))).toFileValue
    · exact htext (by decide) fun v hv => (he.paths v (Or.inr (Or.inr (Or.inr hv)))).toFileValue
    · exact htext (by decide) (hnumeral (by omega) (by omega))
    · exact htext (by decide) (hnumeral (by omega) (by omega))
    · exact htext (by decide) (hnumeral (by omega) (by omega))
    · exact htext (by decide) (hnumeral (by omega) (by omega))
    · exact flagEntry_valid _ (by decide) (by decide)
    · exact htext (by decide) (hnumeral (by omega) (by omega))
    · refine htext (by decide) fun v hv => ?_
      cases hv
      exact intNumeral_fileValue _
  · obtain ⟨v, -, rfl⟩ := List.mem_map.mp hmem
    exact ⟨v.key_file, fun value hv => by cases hv; exact v.value_file⟩
  · unfold startEntries
    refine happend (happend (happend (happend (happend ?_ ?_) ?_) ?_) ?_) ?_
    all_goals exact flagEntry_valid _ (by decide) (by decide)

/-- The effect of all of the entries, section by section. -/
theorem foldl_written {host : Host} {conf : DaemonConf} {vars : List Variable}
    (he : Expressible host conf vars) (hh : HostAccepts host conf) :
    (startEntries conf.start).foldl (parseEntry host .start)
        ((environmentEntries vars).foldl (parseEntry host .environment)
          ((generalEntries conf).foldl (parseEntry host .general) (daemonConfInit host))) =
      conf := by
  have henvironment := he.environment
  rw [foldl_general he hh, foldl_environment, foldl_start host conf.start]
  · cases conf
    simp only at henvironment
    subst henvironment
    simp
  · rfl

/-- Every line of a written file can be read back. -/
theorem writeLines_fileLine {host : Host} {conf : DaemonConf} {vars : List Variable}
    (he : Expressible host conf vars) : ∀ line ∈ writeLines conf vars, FileLine line := by
  obtain ⟨hgeneral, henvironment, hstart⟩ := writeLines_valid he
  have hentries : ∀ {entries : List Entry}, (∀ e ∈ entries, FileEntry e) →
      ∀ line ∈ entries.map entryLine, FileLine line := by
    rintro entries h line hline
    obtain ⟨e, hmem, rfl⟩ := List.mem_map.mp hline
    exact entryLine_fileLine (h e hmem)
  intro line hline
  rw [writeLines, List.mem_append, List.cons_append, List.mem_cons, List.mem_append,
    List.mem_cons] at hline
  rcases hline with hline | rfl | hline | rfl | hline
  · exact hentries (fun e he => (hgeneral e he).1) line hline
  · exact (sectionLine_spec .environment).1
  · exact hentries henvironment line hline
  · exact (sectionLine_spec .start).1
  · exact hentries (fun e he => (hstart e he).1) line hline

/-- For every configuration that can be written and whatever precedes the line buffer,
parsing the written file from the defaults succeeds with this configuration. -/
theorem daemonConfParse_writeConf (host : Host) (before : Nat → Option UInt8) {conf : DaemonConf}
    {vars : List Variable} (he : Expressible host conf vars) (hh : HostAccepts host conf) :
    daemonConfParse host before (daemonConfInit host) (writeConf conf vars) = .ok (0, conf) := by
  obtain ⟨hgeneral, henvironment, hstart⟩ := writeLines_valid he
  obtain ⟨path, hpath, -⟩ := he.path
  have hfold : ∀ (sec : ConfSection) (entries : List Entry) (conf : DaemonConf),
      (entries.map fun e => (⟨sec, e.1, e.2⟩ : HandedValue)).foldl (HandedValue.parse host) conf =
        entries.foldl (parseEntry host sec) conf := fun sec entries conf => List.foldl_map
  rw [daemonConfParse_eq, writeConf, handedValues_flatten host before (writeLines_fileLine he),
    writeLines, readLines_written hgeneral henvironment hstart]
  simp only [Except.map, List.foldl_append, hfold]
  rw [foldl_written he hh, hpath]
  rfl

/-- The configuration of `/b` with the arguments `""` and `a "\`, and the priority -5. -/
def quotedConf : DaemonConf :=
  { daemonConfInit bareHost with
    path := some [47, 98]
    arguments := some [[], [97, 32, 34, 92]]
    environment := some [[107, 61, 118, 61]]
    nosid := true
    priority := -5 }

/-- The variable `k` with the value `v=`. -/
def quotedVariable : Variable where
  key := [107]
  value := [118, 61]
  key_file := ⟨by decide, trimmed_of_ends (by decide) (by decide), by decide, by decide, by decide⟩
  value_file := ⟨by decide, trimmed_of_ends (by decide) (by decide)⟩

/-- An empty argument, blanks, quotes and a second separator are parsed back. -/
theorem daemonConfParse_writeConf_quoted :
    daemonConfParse bareHost (fun _ => none) (daemonConfInit bareHost)
      (writeConf quotedConf [quotedVariable]) = .ok (0, quotedConf) := by
  refine daemonConfParse_writeConf bareHost (fun _ => none) ⟨⟨[47, 98], rfl, ?_⟩, ?_, rfl, ?_, ?_,
    by decide, by decide, by decide, by decide⟩
    ⟨by decide, by decide, Or.inl rfl, Or.inl rfl⟩
  · exact ⟨⟨by decide, trimmed_of_ends (by decide) (by decide)⟩, rfl⟩
  · rintro arguments h
    cases h
    decide
  · intro path h
    simp [quotedConf, daemonConfInit] at h
  · rintro signo (rfl | rfl) <;> decide

end Cyberd
