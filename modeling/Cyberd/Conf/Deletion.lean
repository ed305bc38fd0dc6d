import Cyberd.Conf.Overrides

/-!
# Lines that are rejected

A line whose value parser fails is only logged: the record stays as it is, and the
file without such lines gives the same record and the same status. What is left of a
file is read line by line as it was, with the same bytes in front of the buffer.
-/

namespace Cyberd

open Library

variable {host : Host} {before : Nat → Option UInt8} {sec : Option ConfSection}
  {line : List UInt8} {lines : List (List UInt8)} {number : Nat} {conf : DaemonConf}
  {file : List UInt8}

/-- The section that holds after a line. -/
def lineSection (before : Option UInt8) (sec : Option ConfSection) (line : List UInt8) :
    Option ConfSection :=
  match daemonConfParseLine before line with
  | .ok (.delimiter key) => findSection key
  | _ => sec

/-- The value that a line hands to a parser, with this parser. -/
def lineHanded (host : Host) (before : Option UInt8) (sec : Option ConfSection)
    (line : List UInt8) : Option (HandedValue × ValueParser) :=
  match daemonConfParseLine before line, sec with
  | .ok (.value key value), some current =>
    if key = [] then none
    else (findParser host current key).map fun parse => (⟨current, key, value⟩, parse)
  | _, _ => none

/-- The record after a line. -/
def lineConf (host : Host) (before : Option UInt8) (sec : Option ConfSection)
    (conf : DaemonConf) (line : List UInt8) : DaemonConf :=
  match lineHanded host before sec line with
  | some (handed, parse) => (parse conf handed.key handed.value).2
  | none => conf

/-- The value parser of a line returns non-zero. -/
def lineFails (host : Host) (before : Option UInt8) (sec : Option ConfSection)
    (conf : DaemonConf) (line : List UInt8) : Bool :=
  match lineHanded host before sec line with
  | some (handed, parse) => (parse conf handed.key handed.value).1 ≠ 0
  | none => false

/-- The lines whose value parser does not fail, with their numbers. -/
def keptLines (host : Host) (before : Nat → Option UInt8) :
    Nat → List (List UInt8) → Option ConfSection → DaemonConf → List (Nat × List UInt8)
  | _, [], _, _ => []
  | number, line :: lines, sec, conf =>
    let rest := keptLines host before (number + 1) lines (lineSection (before number) sec line)
      (lineConf host (before number) sec conf line)
    if lineFails host (before number) sec conf line then rest else (number, line) :: rest

/-- The file without the lines whose value parser fails. -/
def keptFile (host : Host) (before : Nat → Option UInt8) (conf : DaemonConf)
    (file : List UInt8) : List UInt8 :=
  ((keptLines host before 0 (getlines file) (some .general) conf).map Prod.snd).flatten

/-- The bytes in front of the buffer for the lines that are left. -/
def keptBefore (host : Host) (before : Nat → Option UInt8) (conf : DaemonConf)
    (file : List UInt8) (number : Nat) : Option UInt8 :=
  (keptLines host before 0 (getlines file) (some .general) conf)[number]?.bind fun kept =>
    before kept.1

/-- Only the last line of a file may lack its newline, and no line has another one. -/
structure LinesOfFile (lines : List (List UInt8)) : Prop where
  /-- A line followed by another one ends in a newline. -/
  ended : lines.Pairwise fun line _ => line.getLast? = some byteNewline
  /-- A newline is the last byte of its line. -/
  single : ∀ line ∈ lines, line ≠ [] ∧ byteNewline ∉ line.dropLast

/-- A line is handed over, or changes at most the section. -/
theorem parseLines_cons :
    parseLines host before parseHanded number (line :: lines) sec conf =
      (daemonConfParseLine (before number) line).bind fun _ =>
        parseLines host before parseHanded (number + 1) lines
          (lineSection (before number) sec line)
          (lineConf host (before number) sec conf line) := by
  unfold lineSection lineConf lineHanded
  rw [parseLines]
  cases daemonConfParseLine (before number) line with
  | error trap => rfl
  | ok parsed =>
    cases parsed with
    | delimiter key => rfl
    | value key value =>
      cases sec with
      | none => rfl
      | some current =>
        simp only [except_bind_ok, Except.bind]
        by_cases hkey : key = []
        · simp only [if_pos hkey]
        · simp only [if_neg hkey]
          cases findParser host current key with
          | none => rfl
          | some parse => rfl

/-- The parser of a handed value is the one of its key. -/
theorem findParser_lineHanded {before : Option UInt8} {handed : HandedValue} {parse : ValueParser}
    (h : lineHanded host before sec line = some (handed, parse)) :
    findParser host handed.sec handed.key = some parse ∧
      lineSection before sec line = sec ∧
      ∃ parsed, daemonConfParseLine before line = .ok parsed := by
  unfold lineHanded at h
  split at h
  · rename_i key value current hparsed
    split at h
    · cases h
    · obtain ⟨parse', hparser, heq⟩ := Option.map_eq_some_iff.mp h
      obtain ⟨rfl, rfl⟩ := Prod.mk.inj heq
      refine ⟨hparser, ?_, _, hparsed⟩
      rw [lineSection, hparsed]
  · cases h

/-- A value parser that fails changes nothing. -/
theorem parser_unchanged {key : Name} {value : Option Name} {current : ConfSection}
    {parse : ValueParser} (h : findParser host current key = some parse)
    (hfail : (parse conf key value).1 ≠ 0) : (parse conf key value).2 = conf := by
  have heffect : HandedEffect host ⟨current, key, value⟩ parse := handedEffect h
  cases heffect with
  | rejected status => rw [status]
  | ignored _ status => rw [status]
  | appended _ status =>
    rw [status] at hfail
    exact absurd rfl hfail
  | written _ _ _ status =>
    rw [status] at hfail
    exact absurd rfl hfail

/-- A line whose value parser fails leaves everything as it is. -/
theorem parseLines_fails (h : lineFails host (before number) sec conf line) :
    lineSection (before number) sec line = sec ∧
      lineConf host (before number) sec conf line = conf ∧
      parseLines host before parseHanded number (line :: lines) sec conf =
        parseLines host before parseHanded (number + 1) lines sec conf := by
  cases hhanded : lineHanded host (before number) sec line with
  | none =>
    rw [lineFails, hhanded] at h
    cases h
  | some entry =>
    obtain ⟨handed, parse⟩ := entry
    obtain ⟨hparser, hsec, parsed, hparsed⟩ := findParser_lineHanded hhanded
    have hconf : lineConf host (before number) sec conf line = conf := by
      rw [lineFails, hhanded] at h
      rw [lineConf, hhanded]
      exact parser_unchanged hparser (by simpa using h)
    refine ⟨hsec, hconf, ?_⟩
    rw [parseLines_cons, hsec, hconf, hparsed]
    rfl

/-- The lines that are left are read as they were. -/
theorem parseLines_kept {before' : Nat → Option UInt8} {number' : Nat}
    (hbefore : ∀ i (hi : i < (keptLines host before number lines sec conf).length),
      before' (number' + i) = before (keptLines host before number lines sec conf)[i].1) :
    parseLines host before' parseHanded number'
        ((keptLines host before number lines sec conf).map Prod.snd) sec conf =
      parseLines host before parseHanded number lines sec conf := by
  induction lines generalizing number number' sec conf with
  | nil => rfl
  | cons line lines ih =>
    rw [keptLines] at hbefore ⊢
    by_cases hfails : lineFails host (before number) sec conf line
    · obtain ⟨hsec, hconf, hskip⟩ := @parseLines_fails _ _ _ _ lines _ _ hfails
      simp only [if_pos hfails, hsec, hconf] at hbefore ⊢
      rw [hskip]
      exact ih hbefore
    · simp only [if_neg hfails] at hbefore ⊢
      have hhead : before' number' = before number := hbefore 0 (Nat.succ_pos _)
      have htail : ∀ i (hi : i < (keptLines host before (number + 1) lines
            (lineSection (before number) sec line)
            (lineConf host (before number) sec conf line)).length),
          before' (number' + 1 + i) = before ((keptLines host before (number + 1) lines
            (lineSection (before number) sec line)
            (lineConf host (before number) sec conf line))[i]).1 := by
        intro i hi
        have hnext := hbefore (i + 1) (Nat.succ_lt_succ hi)
        rw [List.getElem_cons_succ, ← Nat.add_assoc, Nat.add_right_comm] at hnext
        exact hnext
      rw [List.map_cons, parseLines_cons, parseLines_cons, hhead, ih htail]

/-- The lines that are left are some of the lines, in order. -/
theorem keptLines_sublist :
    ((keptLines host before number lines sec conf).map Prod.snd).Sublist lines := by
  induction lines generalizing number sec conf with
  | nil => exact List.Sublist.refl []
  | cons line lines ih =>
    rw [keptLines]
    split
    · exact ih.cons line
    · exact ih.cons_cons line

/-- What is left of the lines of a file are lines of a file. -/
theorem LinesOfFile.sublist {lines' : List (List UInt8)} (h : LinesOfFile lines)
    (hsub : lines'.Sublist lines) : LinesOfFile lines' where
  ended := h.ended.sublist hsub
  single := fun line hline => h.single line (hsub.mem hline)

/-- A line without newline is the last one. -/
theorem getlines_last {body : List UInt8} (h : byteNewline ∉ body) (hne : body ≠ []) :
    getlines body = [body] := by
  induction body with
  | nil => exact absurd rfl hne
  | cons byte body ih =>
    rw [List.mem_cons, not_or] at h
    rw [getlines, if_neg (Ne.symm h.1)]
    cases body with
    | nil => rfl
    | cons second body => rw [ih h.2 (List.cons_ne_nil _ _)]

/-- The lines of a file, put together, are read as these lines. -/
theorem LinesOfFile.getlines_flatten (h : LinesOfFile lines) : getlines lines.flatten = lines := by
  induction lines with
  | nil => rfl
  | cons line lines ih =>
    obtain ⟨hended, hsingle⟩ := h
    rw [List.pairwise_cons] at hended
    rw [List.forall_mem_cons] at hsingle
    have ih := ih ⟨hended.2, hsingle.2⟩
    obtain ⟨hne, hbody⟩ := hsingle.1
    obtain ⟨body, last, rfl⟩ := (List.eq_nil_or_concat' line).resolve_left hne
    rw [List.dropLast_concat] at hbody
    rw [List.flatten_cons]
    by_cases hlast : last = byteNewline
    · rw [hlast, List.append_assoc, List.singleton_append, getlines_body hbody, ih]
    · cases lines with
      | nil =>
        have hno : byteNewline ∉ body ++ [last] := by simp [hbody, Ne.symm hlast]
        rw [List.flatten_nil, List.append_nil, getlines_last hno hne]
      | cons next lines =>
        have hend := hended.1 next (List.mem_cons_self ..)
        rw [List.getLast?_concat] at hend
        exact absurd (Option.some.inj hend) hlast

/-- A file is made of its lines. -/
theorem linesOfFile_getlines (file : List UInt8) : LinesOfFile (getlines file) := by
  induction file with
  | nil => exact ⟨List.Pairwise.nil, fun line hline => by cases hline⟩
  | cons byte rest ih =>
    obtain ⟨hended, hsingle⟩ := ih
    rw [getlines]
    split
    · rename_i hbyte
      refine ⟨List.pairwise_cons.mpr ⟨fun _ _ => by rw [hbyte]; rfl, hended⟩, ?_⟩
      rw [List.forall_mem_cons]
      exact ⟨⟨List.cons_ne_nil _ _, List.not_mem_nil⟩, hsingle⟩
    · rename_i hbyte
      cases hlines : getlines rest with
      | nil =>
        refine ⟨List.pairwise_singleton _ _, fun line hline => ?_⟩
        obtain rfl := List.mem_singleton.mp hline
        exact ⟨List.cons_ne_nil _ _, List.not_mem_nil⟩
      | cons first lines =>
        rw [hlines] at hended hsingle
        rw [List.pairwise_cons] at hended
        rw [List.forall_mem_cons] at hsingle
        obtain ⟨⟨hne, hbody⟩, hrest⟩ := hsingle
        obtain ⟨b, first, rfl⟩ := List.exists_cons_of_ne_nil hne
        refine ⟨List.pairwise_cons.mpr ⟨fun next hnext => ?_, hended.2⟩, ?_⟩
        · rw [List.getLast?_cons_cons]
          exact hended.1 next hnext
        · rw [List.forall_mem_cons]
          refine ⟨⟨List.cons_ne_nil _ _, ?_⟩, hrest⟩
          rw [List.dropLast_cons_cons, List.mem_cons, not_or]
          exact ⟨Ne.symm hbyte, hbody⟩

/-- A file without the lines whose value parser fails gives the same record and status. -/
theorem daemonConfParse_keptFile (host : Host) (before : Nat → Option UInt8) (conf : DaemonConf)
    (file : List UInt8) :
    daemonConfParse host (keptBefore host before conf file) conf (keptFile host before conf file) =
      daemonConfParse host before conf file := by
  have hlines := ((linesOfFile_getlines file).sublist
    (@keptLines_sublist host before (some .general) (getlines file) 0 conf)).getlines_flatten
  have hread := @parseLines_kept host before (some .general) (getlines file) 0 conf
    (keptBefore host before conf file) 0 (by
      intro i hi
      rw [Nat.zero_add, keptBefore, List.getElem?_eq_getElem hi, Option.bind_some])
  rw [daemonConfParse, daemonConfParse, keptFile, hlines, hread]

/-- A line that is rejected has no effect, and one that is accepted for a key overrides
the earlier ones. -/
structure RejectedInert (host : Host) (before : Nat → Option UInt8) (conf : DaemonConf)
    (file : List UInt8) : Prop where
  /-- A parser that fails leaves the record as it is. -/
  unchanged : ∀ sec key value parse, findParser host sec key = some parse →
    ∀ c, (parse c key value).1 ≠ 0 → (parse c key value).2 = c
  /-- A parser that succeeds leaves the fields of the other keys as they are. -/
  ownFields : ∀ sec key value parse, findParser host sec key = some parse →
    ∀ c, (parse c key value).1 = 0 → ∀ field ∉ keyFields sec key,
      field.Agree (parse c key value).2 c
  /-- The lines whose parser fails can be deleted. -/
  deletion :
    daemonConfParse host (keptBefore host before conf file) conf (keptFile host before conf file) =
      daemonConfParse host before conf file
  /-- The last line that is accepted for a key decides, and the variables accumulate. -/
  overrides : ∀ values status final, handedValues host before file = .ok values →
    daemonConfParse host before conf file = .ok (status, final) →
    LaterOverrides host values final ∧ Accumulates values conf final

/-- Every value whose lookup fails after an accepted one of its key is overridden in turn. -/
def FailuresOverridden (host : Host) (before : Nat → Option UInt8) (file : List UInt8) : Prop :=
  ∀ front handed back, handedValues host before file = .ok (front ++ handed :: back) →
    handed.LookupFails host →
    (∃ earlier ∈ front, handed.SameKey earlier ∧ earlier.Accepted host) →
    ∃ later ∈ back, handed.SameKey later ∧ later.Accepted host

/-- A value whose lookup fails does not override the earlier ones. -/
theorem RejectedInert.failuresOverridden (h : RejectedInert host before conf file) :
    FailuresOverridden host before file := by
  intro front handed back hvalues
  obtain ⟨status, hfinal⟩ := daemonConfParse_handed hvalues conf
  exact laterOverrides_iff.mp (h.overrides _ _ _ hvalues hfinal).1 front handed back rfl

/-- Lines that are rejected have no effect and accepted ones override, exactly when no
accepted value is followed by one of the same key whose lookup fails and stands. -/
theorem rejectedInert_iff (host : Host) (before : Nat → Option UInt8) (conf : DaemonConf)
    (file : List UInt8) :
    RejectedInert host before conf file ↔ FailuresOverridden host before file := by
  refine ⟨RejectedInert.failuresOverridden, fun h => ⟨fun _ _ _ _ hparser _ hfail =>
    parser_unchanged hparser hfail, fun _ _ _ _ hparser _ _ _ hother =>
    parser_ownFields hparser hother, daemonConfParse_keptFile host before conf file,
    fun values status final hvalues hfinal => ?_⟩⟩
  rw [daemonConfParse_ok hvalues hfinal]
  refine ⟨laterOverrides_iff.mpr ?_, accumulates_foldl values conf⟩
  rintro front handed back rfl
  exact h front handed back hvalues

/-- On a host whose database of users cannot be read for one name, the line of this name
leaves the user of the line before it, and is accepted. -/
theorem rejectedInert_fails : ¬ RejectedInert
    { bareHost with
      getpwnam := fun name => if name = ascii "backup" then .failed else .missing }
    (fun _ => none) (daemonConfInit bareHost)
    (ascii "user=1000\nuser=backup\npath=/bin/sh\n") := by
  let host : Host := { bareHost with
    getpwnam := fun name => if name = ascii "backup" then .failed else .missing }
  intro h
  have hvalues : handedValues host (fun _ => none)
      (ascii "user=1000\nuser=backup\npath=/bin/sh\n") =
      .ok [⟨.general, ascii "user", some (ascii "1000")⟩,
        ⟨.general, ascii "user", some (ascii "backup")⟩,
        ⟨.general, ascii "path", some (ascii "/bin/sh")⟩] := by decide +kernel
  have haccepted : HandedValue.Accepted host ⟨.general, ascii "user", some (ascii "1000")⟩ :=
    ⟨_, rfl, fun conf => rfl⟩
  obtain ⟨later, hlater, ⟨-, hkey⟩, -⟩ := h.failuresOverridden
    [⟨.general, ascii "user", some (ascii "1000")⟩]
    ⟨.general, ascii "user", some (ascii "backup")⟩
    [⟨.general, ascii "path", some (ascii "/bin/sh")⟩] hvalues
    ⟨rfl, _, rfl, Or.inl ⟨rfl, rfl⟩⟩ ⟨_, List.mem_singleton_self _, ⟨rfl, rfl⟩, haccepted⟩
  obtain rfl := List.mem_singleton.mp hlater
  exact absurd hkey (by decide)

end Cyberd
