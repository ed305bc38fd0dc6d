import Cyberd.Conf.Fate

/-!
# The grammar of the configuration files

The reader hands out what the grammar says exactly when no line makes it misread:
every line without content, or that begins with a separator, needs a byte in front
of the buffer that stops the trimming, and an indented comment or separator must
not be in the environment section, where every key is taken.
-/

namespace Cyberd

open Library

/-- The values of the lines from a section on, in order. A section keeps the keys it
has a parser for. -/
def readLines : Option ConfSection → List (List UInt8) → List HandedValue
  | _, [] => []
  | sec, line :: lines =>
    match readLine line with
    | .delimiter key => readLines (findSection key) lines
    | .value key value =>
      match sec with
      | none => readLines sec lines
      | some current =>
        if key ≠ [] ∧ current.knows key = true then
          ⟨current, key, value⟩ :: readLines sec lines
        else readLines sec lines

/-- The values of a file, which begins in the general section. -/
def readFile (file : List UInt8) : List HandedValue := readLines (some .general) (getlines file)

/-- The section after a line. -/
def sectionAfter (sec : Option ConfSection) (line : List UInt8) : Option ConfSection :=
  match readLine line with
  | .delimiter key => findSection key
  | .value _ _ => sec

/-- No line from a section on is misread: the trimming of a line without content, or
that begins with a separator, is stopped in front of the buffer, and if such a line is
indented then it is not one of the environment section. -/
def LinesReadable (before : Nat → Option UInt8) :
    Nat → Option ConfSection → List (List UInt8) → Prop
  | _, _, [] => True
  | number, sec, line :: lines =>
    (Startless line → StopsBefore (before number)) ∧
      (Misread line → sec ≠ some .environment) ∧
      LinesReadable before (number + 1) (sectionAfter sec line) lines

/-- The readability of lines can be computed. -/
def decidableLinesReadable (before : Nat → Option UInt8) (lines : List (List UInt8)) :
    ∀ number sec, Decidable (LinesReadable before number sec lines) :=
  match lines with
  | [] => fun _ _ => inferInstanceAs (Decidable True)
  | line :: lines => fun number sec =>
    haveI := decidableLinesReadable before lines (number + 1) (sectionAfter sec line)
    inferInstanceAs (Decidable (_ ∧ _ ∧ _))

instance (before : Nat → Option UInt8) (number : Nat) (sec : Option ConfSection)
    (lines : List (List UInt8)) : Decidable (LinesReadable before number sec lines) :=
  decidableLinesReadable before lines number sec

/-- The keys of the grammar have neither a comment nor a separator in them. -/
theorem readLines_key {sec : Option ConfSection} {lines : List (List UInt8)}
    {handed : HandedValue} (h : handed ∈ readLines sec lines) :
    byteComment ∉ handed.key ∧ byteSeparator ∉ handed.key := by
  induction lines generalizing sec with
  | nil => simp [readLines] at h
  | cons line lines ih =>
    rw [readLines] at h
    cases hread : readLine line with
    | delimiter key =>
      rw [hread] at h
      exact ih h
    | value key value =>
      rw [hread] at h
      cases sec with
      | none => exact ih h
      | some current =>
        simp only at h
        split at h
        · rcases List.mem_cons.mp h with rfl | h
          · have hsub : ∀ text : List UInt8, ∀ b ∈ trim text, b ∈ text := fun text b hb =>
              (List.dropWhile_sublist _).mem ((List.rdropWhile_prefix _ _).sublist.mem hb)
            rw [readLine, readContent] at hread
            split at hread
            · cases hread
            · cases hread
              constructor
              · intro hmem
                have hin := hsub _ _ ((List.takeWhile_sublist _).mem (hsub _ _ hmem))
                simpa using List.mem_takeWhile_imp hin
              · intro hmem
                simpa using List.mem_takeWhile_imp (hsub _ _ hmem)
          · exact ih h
        · exact ih h

/-- A key that begins with a comment or a separator is one of the environment section. -/
theorem knows_misread {sec : ConfSection} {byte : UInt8} {key : Name}
    (hbyte : byte = byteComment ∨ byte = byteSeparator) (hsec : sec ≠ .environment) :
    sec.knows (byte :: key) = false := by
  cases sec with
  | environment => exact absurd rfl hsec
  | general =>
    rcases hbyte with rfl | rfl <;>
    simp [ConfSection.knows, ascii, byteComment, byteSeparator]
  | start =>
    rcases hbyte with rfl | rfl <;>
    simp [ConfSection.knows, ascii, byteComment, byteSeparator]

/-- The values handed before stay in front of the list. -/
theorem parseLines_prefix {host : Host} {before : Nat → Option UInt8} {number : Nat}
    {lines : List (List UInt8)} {sec : Option ConfSection} {handed result : List HandedValue}
    (h : parseLines host before listHanded number lines sec handed = .ok result) :
    ∃ more, result = handed ++ more := by
  induction lines generalizing number sec handed with
  | nil =>
    cases h
    exact ⟨[], (List.append_nil _).symm⟩
  | cons line lines ih =>
    rw [parseLines] at h
    obtain ⟨parsed, -, h⟩ := except_bind_eq_ok.mp h
    cases parsed with
    | delimiter key => exact ih h
    | value key value =>
      cases sec with
      | none => exact ih h
      | some current =>
        simp only at h
        split at h
        · exact ih h
        · split at h
          · exact ih h
          · obtain ⟨more, hmore⟩ := ih h
            exact ⟨_ :: more, by rw [hmore, listHanded, List.append_assoc]; rfl⟩

/-- From any line on, what is handed out is what the grammar says exactly when the
lines are readable. -/
theorem parseLines_iff (host : Host) (before : Nat → Option UInt8) {lines : List (List UInt8)}
    (hnul : ∀ line ∈ lines, (0 : UInt8) ∉ line) (number : Nat) (sec : Option ConfSection)
    (handed : List HandedValue) :
    parseLines host before listHanded number lines sec handed =
        .ok (handed ++ readLines sec lines) ↔ LinesReadable before number sec lines := by
  induction lines generalizing number sec handed with
  | nil => simp [parseLines, readLines, LinesReadable]
  | cons line lines ih =>
    have ih := ih fun l hl => hnul l (List.mem_cons_of_mem _ hl)
    rw [parseLines, readLines, LinesReadable, sectionAfter]
    cases lineFate (before number) (hnul line (List.mem_cons_self ..)) with
    | trapped startless passes parse =>
      rw [parse]
      exact iff_of_false (by simp) fun h => passes (h.1 startless)
    | misread misread stops byte key value read parse first nokey =>
      rw [parse, nokey]
      simp only [except_bind_ok, stops, misread, implies_true, true_and, forall_const, ne_eq,
        not_true_eq_false, false_and, if_false, reduceCtorEq]
      cases sec with
      | none => simpa using ih (number + 1) none handed
      | some current =>
        by_cases hcurrent : current = .environment
        · subst hcurrent
          refine iff_of_false (fun h => ?_) (by simp)
          simp only at h
          obtain ⟨more, hmore⟩ := parseLines_prefix h
          rw [listHanded, List.append_assoc, List.append_cancel_left_eq] at hmore
          have hmem : (⟨.environment, byte :: key, value⟩ : HandedValue) ∈
              readLines (some .environment) lines := by
            rw [hmore]
            exact List.mem_cons_self ..
          obtain ⟨hcomment, hseparator⟩ := readLines_key hmem
          rcases first with rfl | rfl
          · exact hcomment (List.mem_cons_self ..)
          · exact hseparator (List.mem_cons_self ..)
        · have hnone : findParser host current (byte :: key) = none := by
            have := findParser_isSome host current (byte :: key)
            rw [knows_misread first hcurrent] at this
            simpa using this
          simp only [hnone]
          simpa [hcurrent] using ih (number + 1) (some current) handed
    | read well stops parsed parse agrees =>
      rw [parse]
      simp only [except_bind_ok, well, false_implies, true_and]
      rw [and_iff_right stops]
      rcases agrees with rfl | ⟨key, key', rfl, hread, hsame⟩
      · cases readLine line with
        | delimiter key => exact ih _ _ _
        | value key value =>
          cases sec with
          | none => exact ih _ _ _
          | some current =>
            have hknows := findParser_isSome host current key
            simp only
            by_cases hkey : key = []
            · simp only [hkey, if_true, ne_eq, not_true_eq_false, false_and, if_false]
              exact ih _ _ _
            · cases hparser : findParser host current key with
              | none =>
                rw [hparser] at hknows
                rw [if_neg hkey, if_neg (by simp [← hknows])]
                exact ih _ _ _
              | some parser =>
                rw [hparser] at hknows
                rw [if_neg hkey, if_pos ⟨hkey, by simp [← hknows]⟩]
                simp only
                rw [← ih, listHanded, List.append_assoc]
                rfl
      · rw [hread]
        simp only [hsame]
        exact ih _ _ _

/-- A byte of a line is one of the file. -/
private theorem mem_getlines {file line : List UInt8} {byte : UInt8} (hline : line ∈ getlines file)
    (hbyte : byte ∈ line) : byte ∈ file := by
  induction file generalizing line with
  | nil => simp [getlines] at hline
  | cons b rest ih =>
    rw [getlines] at hline
    split at hline
    · rcases List.mem_cons.mp hline with rfl | hline
      · exact List.mem_cons.mpr (Or.inl (List.mem_singleton.mp hbyte))
      · exact List.mem_cons_of_mem _ (ih hline hbyte)
    · cases hlines : getlines rest with
      | nil =>
        rw [hlines, List.mem_singleton] at hline
        subst hline
        exact List.mem_cons.mpr (Or.inl (List.mem_singleton.mp hbyte))
      | cons l lines =>
        rw [hlines] at hline ih
        rcases List.mem_cons.mp hline with rfl | hline
        · rcases List.mem_cons.mp hbyte with rfl | hbyte
          · exact List.mem_cons_self ..
          · exact List.mem_cons_of_mem _ (ih (List.mem_cons_self ..) hbyte)
        · exact List.mem_cons_of_mem _ (ih (List.mem_cons_of_mem _ hline) hbyte)

/-- For every file without null bytes and whatever precedes the line buffer, the values
handed to the value parsers are those of the grammar exactly when no line is misread. -/
theorem handedValues_iff (host : Host) (before : Nat → Option UInt8) {file : List UInt8}
    (hnul : (0 : UInt8) ∉ file) :
    handedValues host before file = .ok (readFile file) ↔
      LinesReadable before 0 (some .general) (getlines file) :=
  parseLines_iff host before (fun _ hline h => hnul (mem_getlines hline h)) 0 (some .general) []

/-- The options and databases of a host without any user or group. -/
def bareHost : Host := ⟨18, true, 65534, 65534, fun _ => .missing, fun _ => .missing⟩

/-- Of `"#a\npath=/b#c\n"` the path without its comment is handed out, if a null byte precedes
the buffer. -/
theorem handedValues_iff_comments :
    handedValues bareHost (fun _ => some 0)
        [35, 97, 10, 112, 97, 116, 104, 61, 47, 98, 35, 99, 10] =
      .ok [⟨.general, [112, 97, 116, 104], some [47, 98]⟩] :=
  (handedValues_iff bareHost (fun _ => some 0) (by decide)).mpr (by decide)

/-- The indented comment of `"[environment]\n #a=b\n"` is handed out as a variable, and the
blank line of `"\n"` is trimmed in front of the buffer. -/
theorem handedValues_misreads :
    handedValues bareHost (fun _ => some 0)
        [91, 101, 110, 118, 105, 114, 111, 110, 109, 101, 110, 116, 93, 10, 32, 35, 97, 61, 98,
          10] =
      .ok [⟨.environment, [35, 97], some [98, 10]⟩] ∧
    readFile [91, 101, 110, 118, 105, 114, 111, 110, 109, 101, 110, 116, 93, 10, 32, 35, 97, 61,
          98, 10] = [] ∧
    handedValues bareHost (fun _ => none) [10] = .error .outOfBounds ∧ readFile [10] = [] := by
  decide

end Cyberd
