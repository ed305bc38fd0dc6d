import Cyberd.Conf.Grammar

/-!
# Writing a configuration

A configuration is written with one line for each set field, the variables of its
environment and the flags of its start settings. Every written line is read as the
key and the value it was made from.
-/

namespace Cyberd

open Library

/-- A text that fits on one line. -/
def Plain (text : List UInt8) : Prop :=
  ∀ byte ∈ text, byte ≠ 0 ∧ byte ≠ byteNewline ∧ byte ≠ byteComment

instance (text : List UInt8) : Decidable (Plain text) :=
  List.decidableBAll _ _

/-- A key that can be written. -/
structure FileKey (key : Name) : Prop where
  /-- It fits on one line. -/
  plain : Plain key
  /-- There is no white space around it. -/
  trimmed : Trimmed key
  /-- It is not empty. -/
  ne_nil : key ≠ []
  /-- It has no separator. -/
  separator : byteSeparator ∉ key
  /-- It is not taken for a section delimiter. -/
  head : key.head? ≠ some byteOpen

/-- A value that can be written. -/
structure FileValue (value : Name) : Prop where
  /-- It fits on one line. -/
  plain : Plain value
  /-- There is no white space around it. -/
  trimmed : Trimmed value

/-- A key, with its value if it has one. -/
abbrev Entry := Name × Option Name

/-- The line of an entry, `key = value` or the key alone. -/
def entryLine : Entry → List UInt8
  | (key, some value) => key ++ [byteBlank, byteSeparator, byteBlank] ++ value ++ [byteNewline]
  | (key, none) => key ++ [byteNewline]

/-- The line that begins a section. -/
def sectionLine (sec : ConfSection) : List UInt8 :=
  byteOpen :: sec.name ++ [byteClose] ++ [byteNewline]

/-- A byte of a quoted argument, escaped if it has to be. -/
def escapeByte (byte : UInt8) : List UInt8 :=
  if byte = byteDoubleQuote ∨ byte = byteBackslash then [byteBackslash, byte] else [byte]

/-- An argument in double quotes. -/
def quote (argument : Name) : List UInt8 :=
  byteDoubleQuote :: argument.flatMap escapeByte ++ [byteDoubleQuote]

/-- The arguments separated by blanks. -/
def writeArguments : List Name → List UInt8
  | [] => []
  | argument :: arguments =>
    quote argument ++ arguments.flatMap fun argument => byteBlank :: quote argument

/-- The entry of a field that is set. -/
def textEntry (key : String) (value : Option Name) : List Entry :=
  value.toList.map fun value => (ascii key, some value)

/-- The entry of a flag that is set. -/
def flagEntry (key : String) (flag : Bool) : List Entry :=
  if flag then [(ascii key, none)] else []

/-- A variable of an environment. -/
structure Variable where
  /-- Its key. -/
  key : Name
  /-- Its value. -/
  value : Name
  /-- The key can be written. -/
  key_file : FileKey key
  /-- The value can be written. -/
  value_file : FileValue value

/-- The variable as it is in an environment. -/
def Variable.pair (v : Variable) : Name := v.key ++ byteSeparator :: v.value

/-- The entries of the general section. -/
def generalEntries (conf : DaemonConf) : List Entry :=
  textEntry "path" conf.path ++
  textEntry "arguments" (conf.arguments.map writeArguments) ++
  textEntry "workdir" conf.workdir ++
  textEntry "stdin" conf.stdin ++
  textEntry "stdout" conf.stdout ++
  textEntry "stderr" conf.stderr ++
  textEntry "sigfinish" (some (numeral 10 conf.sigfinish)) ++
  textEntry "sigreload" (some (numeral 10 conf.sigreload)) ++
  textEntry "user" (some (numeral 10 conf.uid)) ++
  textEntry "group" (some (numeral 10 conf.gid)) ++
  flagEntry "nosid" conf.nosid ++
  textEntry "umask" (some (numeral 8 conf.umask)) ++
  textEntry "priority" (some (intNumeral 10 conf.priority))

/-- The entries of the environment section. -/
def environmentEntries (vars : List Variable) : List Entry :=
  vars.map fun v => (v.key, some v.value)

/-- The entries of the start section. -/
def startEntries (start : Start) : List Entry :=
  flagEntry "load" start.load ++
  flagEntry "reload" start.reload ++
  flagEntry "exit success" start.exitsuccess ++
  flagEntry "exit failure" start.exitfailure ++
  flagEntry "killed" start.killed ++
  flagEntry "dumped" start.dumped

/-- The lines of a configuration with these variables. -/
def writeLines (conf : DaemonConf) (vars : List Variable) : List (List UInt8) :=
  (generalEntries conf).map entryLine ++
  (sectionLine .environment :: (environmentEntries vars).map entryLine ++
  (sectionLine .start :: (startEntries conf.start).map entryLine))

/-- The file of a configuration with these variables. -/
def writeConf (conf : DaemonConf) (vars : List Variable) : List UInt8 :=
  (writeLines conf vars).flatten

/-- A line that a file is made of. -/
structure FileLine (line : List UInt8) : Prop where
  /-- It ends in its only newline. -/
  newline : ∃ body, line = body ++ [byteNewline] ∧ byteNewline ∉ body
  /-- It has no null byte. -/
  nul : (0 : UInt8) ∉ line
  /-- It has content, which does not begin with a separator. -/
  starts : ¬ Startless line

/-- A file is read line by line. -/
theorem getlines_flatten {lines : List (List UInt8)} (h : ∀ line ∈ lines, FileLine line) :
    getlines lines.flatten = lines := by
  induction lines with
  | nil => rfl
  | cons line lines ih =>
    have ih := ih fun l hl => h l (List.mem_cons_of_mem _ hl)
    obtain ⟨body, rfl, hbody⟩ := (h line (List.mem_cons_self ..)).newline
    rw [List.flatten_cons, List.append_assoc, List.singleton_append, getlines_body hbody, ih]

/-- Lines that have content are readable. -/
theorem linesReadable_of_starts (before : Nat → Option UInt8) {lines : List (List UInt8)}
    (h : ∀ line ∈ lines, FileLine line) (number : Nat) (sec : Option ConfSection) :
    LinesReadable before number sec lines := by
  induction lines generalizing number sec with
  | nil => trivial
  | cons line lines ih =>
    have hline := (h line (List.mem_cons_self ..)).starts
    exact ⟨fun hs => (hline hs).elim, fun hm => (hline hm.startless).elim,
      ih (fun l hl => h l (List.mem_cons_of_mem _ hl)) _ _⟩

/-- The values of a file of such lines are those of the grammar. -/
theorem handedValues_flatten (host : Host) (before : Nat → Option UInt8)
    {lines : List (List UInt8)} (h : ∀ line ∈ lines, FileLine line) :
    handedValues host before lines.flatten = .ok (readLines (some .general) lines) := by
  have hread := parseLines_iff host before (fun line hl => (h line hl).nul) 0 (some .general) []
  rw [handedValues, getlines_flatten h]
  exact hread.mpr (linesReadable_of_starts before h _ _)

/-- The content of a line without comment. -/
private theorem lineContent_eq {text trail : List UInt8} (hplain : Plain text)
    (htrim : Trimmed text) (hne : text ≠ []) (htrail : Blank trail) :
    lineContent (text ++ trail) = text := by
  have hcut : (text ++ trail).takeWhile (· != byteComment) = text ++ trail := by
    refine List.takeWhile_eq_self_iff.mpr fun b hb => ?_
    rcases List.mem_append.mp hb with hb | hb
    · simpa using (hplain b hb).2.2
    · have hspace := htrail b hb
      simp only [bne_iff_ne, ne_eq]
      rintro rfl
      exact absurd hspace (by decide)
  have hnone : Blank [] := by decide
  have htext := trim_eq hnone htrail htrim fun h => absurd h hne
  rw [lineContent, hcut]
  rwa [List.nil_append] at htext

/-- A line whose content is a plain text is one of a file. -/
private theorem fileLine_eq {text trail : List UInt8} (hplain : Plain text)
    (htrim : Trimmed text) (hne : text ≠ []) (hsep : text.head? ≠ some byteSeparator)
    (htrail : ∀ b ∈ trail, b = byteBlank) : FileLine (text ++ trail ++ [byteNewline]) := by
  have hblank : Blank (trail ++ [byteNewline]) := by
    intro b hb
    rcases List.mem_append.mp hb with hb | hb
    · rw [htrail b hb]
      decide
    · rw [List.mem_singleton.mp hb]
      decide
  have hplain' : Plain (text ++ trail) := by
    intro b hb
    rcases List.mem_append.mp hb with hb | hb
    · exact hplain b hb
    · rw [htrail b hb]
      decide
  refine ⟨⟨_, rfl, fun h => (hplain' _ h).2.1 rfl⟩, fun h => ?_, fun h => ?_⟩
  · rcases List.mem_append.mp h with h | h
    · exact (hplain' _ h).1 rfl
    · exact absurd h (by decide)
  · rw [Startless, List.append_assoc, lineContent_eq hplain htrim hne hblank] at h
    exact h.elim hne hsep

/-- The content of the line of an entry. -/
def entryContent : Entry → List UInt8
  | (key, some value) =>
    if value = [] then key ++ [byteBlank, byteSeparator]
    else key ++ [byteBlank, byteSeparator, byteBlank] ++ value
  | (key, none) => key

/-- A key and a value that can be written. -/
structure FileEntry (entry : Entry) : Prop where
  /-- The key can be written. -/
  key : FileKey entry.1
  /-- The value can be written, if there is one. -/
  value : ∀ value, entry.2 = some value → FileValue value

/-- Plain texts are put together. -/
private theorem Plain.append {left right : List UInt8} (hl : Plain left) (hr : Plain right) :
    Plain (left ++ right) := fun b hb => (List.mem_append.mp hb).elim (hl b) (hr b)

/-- The line of an entry is its content, and white space that is trimmed. -/
private theorem entryContent_spec {entry : Entry} (h : FileEntry entry) :
    Plain (entryContent entry) ∧ Trimmed (entryContent entry) ∧ entryContent entry ≠ [] ∧
      (entryContent entry).head? = entry.1.head? ∧
      ∃ trail, (∀ b ∈ trail, b = byteBlank) ∧
        entryLine entry = entryContent entry ++ trail ++ [byteNewline] := by
  obtain ⟨key, value⟩ := entry
  obtain ⟨hkey, hvalue⟩ := h
  have hne : key ≠ [] := hkey.ne_nil
  have hmark : Plain [byteBlank, byteSeparator] := by decide
  cases value with
  | none =>
    exact ⟨hkey.plain, hkey.trimmed, hne, rfl, [], by simp, by simp [entryLine, entryContent]⟩
  | some value =>
    have hvalue := hvalue value rfl
    have hhead : ∀ tail, (key ++ tail).head? = key.head? := fun tail => by
      cases key with
      | nil => exact absurd rfl hne
      | cons b key => rfl
    by_cases hempty : value = []
    · subst hempty
      rw [entryContent, if_pos rfl]
      refine ⟨hkey.plain.append hmark, ?_, by simp [hne], hhead _, [byteBlank], by simp, ?_⟩
      · refine hkey.trimmed.append hne (fun rest byte heq => ?_) (by simp)
        have : byte = byteSeparator := by
          have := congrArg List.getLast? heq
          simpa using this.symm
        rw [this]
        decide
      · simp [entryLine]
    · rw [entryContent, if_neg hempty]
      refine ⟨(hkey.plain.append (by decide)).append hvalue.plain, ?_, by simp [hne], ?_, [],
        by simp, by simp [entryLine]⟩
      · rw [List.append_assoc]
        refine hkey.trimmed.append hne (fun rest byte heq => ?_) (by simp)
        rcases List.eq_nil_or_concat' value with rfl | ⟨front, last, rfl⟩
        · exact absurd rfl hempty
        · rw [← List.append_assoc] at heq
          obtain ⟨-, hlast⟩ := List.append_inj' heq rfl
          cases hlast
          exact hvalue.trimmed.last front _ rfl
      · rw [List.append_assoc]
        exact hhead _

/-- The line of an entry is one of a file. -/
theorem entryLine_fileLine {entry : Entry} (h : FileEntry entry) : FileLine (entryLine entry) := by
  obtain ⟨hplain, htrim, hne, hhead, trail, htrail, hline⟩ := entryContent_spec h
  rw [hline]
  refine fileLine_eq hplain htrim hne (fun hs => ?_) htrail
  rw [hhead] at hs
  obtain ⟨rest, hrest⟩ := List.head?_eq_some_iff.mp hs
  exact h.key.separator (hrest ▸ List.mem_cons_self ..)

/-- The line of an entry is read as its key and its value. -/
theorem readLine_entryLine {entry : Entry} (h : FileEntry entry) :
    readLine (entryLine entry) = .value entry.1 entry.2 := by
  obtain ⟨hplain, htrim, hne, hhead, trail, htrail, hline⟩ := entryContent_spec h
  have hblank : Blank (trail ++ [byteNewline]) := by
    intro b hb
    rcases List.mem_append.mp hb with hb | hb
    · rw [htrail b hb]
      decide
    · rw [List.mem_singleton.mp hb]
      decide
  rw [readLine, hline, List.append_assoc, lineContent_eq hplain htrim hne hblank, readContent,
    if_neg (fun hd => h.key.head (hhead ▸ hd.1))]
  obtain ⟨key, value⟩ := entry
  have hkey : ∀ tail, (key ++ tail).takeWhile (· != byteSeparator) =
      key ++ tail.takeWhile (· != byteSeparator) := fun tail =>
    List.takeWhile_append_of_pos fun b hb => by
      simpa using fun heq : b = byteSeparator => h.key.separator (heq ▸ hb)
  have hdrop : ∀ tail, (key ++ tail).dropWhile (· != byteSeparator) =
      tail.dropWhile (· != byteSeparator) := fun tail =>
    List.dropWhile_append_of_pos fun b hb => by
      simpa using fun heq : b = byteSeparator => h.key.separator (heq ▸ hb)
  have htrimKey : trim (key ++ [byteBlank]) = key := by
    have hnone : Blank [] := by decide
    have hblank : Blank [byteBlank] := by decide
    have := trim_eq hnone hblank h.key.trimmed fun hn => absurd hn h.key.ne_nil
    rwa [List.nil_append] at this
  cases value with
  | none =>
    have hall := hkey []
    rw [List.append_nil, List.takeWhile_nil, List.append_nil] at hall
    rw [entryContent, hall, if_neg h.key.separator, h.key.trimmed.trim]
  | some value =>
    have hvalue := h.value value rfl
    rw [entryContent]
    split
    · rename_i hempty
      subst hempty
      rw [hkey, hdrop, if_pos (by simp)]
      simp only [byteBlank, byteSeparator] at htrimKey ⊢
      rw [show List.takeWhile (· != (61 : UInt8)) [32, 61] = [32] by decide, htrimKey]
      rfl
    · rw [List.append_assoc, hkey, hdrop, if_pos (by simp)]
      have htrimValue : trim (byteBlank :: value) = value := by
        have hlead : Blank [byteBlank] := by decide
        have hnone : Blank [] := by decide
        have := trim_eq hlead hnone hvalue.trimmed fun _ => rfl
        rwa [List.append_nil] at this
      have htake : ([byteBlank, byteSeparator, byteBlank] ++ value).takeWhile
          (· != byteSeparator) = [byteBlank] := rfl
      have hrest : ([byteBlank, byteSeparator, byteBlank] ++ value).dropWhile
          (· != byteSeparator) = byteSeparator :: byteBlank :: value := rfl
      rw [htake, htrimKey, hrest, List.tail_cons, htrimValue]

/-- The line of a section is one of a file, and is read as its delimiter. -/
theorem sectionLine_spec (sec : ConfSection) :
    FileLine (sectionLine sec) ∧ readLine (sectionLine sec) = .delimiter sec.name := by
  cases sec <;> exact ⟨⟨⟨_, rfl, by decide⟩, by decide, by decide⟩, by decide⟩

/-- The lines of entries are read as the entries, in a section that knows their keys. -/
theorem readLines_entries {sec : ConfSection} {entries : List Entry}
    (h : ∀ entry ∈ entries, FileEntry entry ∧ sec.knows entry.1 = true)
    (rest : List (List UInt8)) :
    readLines (some sec) (entries.map entryLine ++ rest) =
      (entries.map fun entry => ⟨sec, entry.1, entry.2⟩) ++ readLines (some sec) rest := by
  induction entries with
  | nil => rfl
  | cons entry entries ih =>
    obtain ⟨hentry, hknows⟩ := h entry (List.mem_cons_self ..)
    rw [List.map_cons, List.cons_append, readLines, readLine_entryLine hentry]
    simp only
    rw [if_pos ⟨hentry.key.ne_nil, hknows⟩, ih fun e he => h e (List.mem_cons_of_mem _ he)]
    rfl

/-- The line of a section selects it. -/
theorem readLines_section (sec : ConfSection) (current : Option ConfSection)
    (rest : List (List UInt8)) :
    readLines current (sectionLine sec :: rest) = readLines (some sec) rest := by
  rw [readLines, (sectionLine_spec sec).2]
  cases sec <;> rfl

/-- The values of written lines: those of its entries, in its three sections. -/
theorem readLines_written {general environment start : List Entry}
    (hgeneral : ∀ e ∈ general, FileEntry e ∧ ConfSection.general.knows e.1 = true)
    (henvironment : ∀ e ∈ environment, FileEntry e)
    (hstart : ∀ e ∈ start, FileEntry e ∧ ConfSection.start.knows e.1 = true) :
    readLines (some .general) (general.map entryLine ++
        (sectionLine .environment :: environment.map entryLine ++
        (sectionLine .start :: start.map entryLine))) =
      (general.map fun e => ⟨.general, e.1, e.2⟩) ++
      (environment.map fun e => ⟨.environment, e.1, e.2⟩) ++
      (start.map fun e => ⟨.start, e.1, e.2⟩) := by
  have hlast := readLines_entries hstart []
  rw [List.append_nil, readLines, List.append_nil] at hlast
  rw [readLines_entries hgeneral, List.cons_append, readLines_section,
    readLines_entries fun e he => ⟨henvironment e he, rfl⟩, readLines_section, hlast,
    List.append_assoc]

end Cyberd
