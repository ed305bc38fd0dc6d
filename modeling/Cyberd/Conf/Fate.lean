import Cyberd.Conf.Reading

/-!
# What becomes of a line

A line is read as the grammar says, or a trimming loop leaves the buffer in front of
it, or it is misread: an indented comment or separator is taken for a key.
-/

namespace Cyberd

open Library

/-- The comment ends the length of a line. -/
private theorem comment_length {body comment : List UInt8} (hbody : byteComment ∉ body)
    (hcomment : comment = [] ∨ ∃ rest, comment = byteComment :: rest)
    (hnul : (0 : UInt8) ∉ body ++ comment) :
    (strchr byteComment (body ++ comment ++ [0]) 0).getD (body ++ comment).length =
      body.length := by
  have hindex := strchr_append byteComment hnul [] []
  rw [List.nil_append, List.length_nil] at hindex
  rw [hindex]
  rcases hcomment with rfl | ⟨rest, rfl⟩
  · rw [List.append_nil, List.idxOf?_eq_none_iff.mpr hbody]
    rfl
  · rw [idxOf_append_cons hbody]
    simp

section Parts

variable (before : Option UInt8) {indent content trail comment : List UInt8}

/-- A line with content is cut after it. -/
private theorem parseLine_content (hindent : Blank indent) (htrail : Blank trail)
    (htrim : Trimmed content) (hne : content ≠ [])
    (hbody : byteComment ∉ indent ++ content ++ trail)
    (hcomment : comment = [] ∨ ∃ rest, comment = byteComment :: rest)
    (hnul : (0 : UInt8) ∉ indent ++ content ++ trail ++ comment) :
    ∃ back, daemonConfParseLine before (indent ++ content ++ trail ++ comment) =
      if content.head? = some byteOpen ∧ content.getLast? = some byteClose then
        parseDelimiter before (indent ++ (content ++ 0 :: back)) indent.length
          (indent ++ content).length
      else parseValue before (indent ++ (content ++ 0 :: back)) indent.length := by
  obtain ⟨old, back, hback⟩ : ∃ old back, trail ++ comment ++ [0] = old :: back := by
    cases h : trail ++ comment with
    | nil => exact ⟨_, _, rfl⟩
    | cons b rest => exact ⟨_, _, rfl⟩
  have hbytes : indent ++ content ++ trail ++ comment ++ [0] =
      indent ++ (content ++ old :: back) := by
    calc
      _ = indent ++ (content ++ (trail ++ comment ++ [0])) := by simp
      _ = _ := by rw [hback]
  have hforward : trimForward (indent ++ content ++ trail ++ comment ++ [0]) 0 =
      .ok indent.length := by
    rw [hbytes]
    cases content with
    | nil => exact absurd rfl hne
    | cons b content =>
      have := trimForward_blank hindent (htrim.head b content rfl) (content ++ old :: back) 0
      rwa [Nat.zero_add] at this
  have hbackward : trimBackward before (indent ++ content ++ trail ++ comment ++ [0])
      (indent ++ content ++ trail).length = .ok (indent ++ content).length := by
    have := trimBackward_text before htrim hne htrail indent (comment ++ [0])
    rwa [← List.append_assoc] at this
  have hterm : terminate (indent ++ content ++ trail ++ comment ++ [0])
      (indent ++ content).length = .ok (indent ++ (content ++ 0 :: back)) := by
    rw [terminate, hbytes, ← List.append_assoc, set_append_cons, if_pos]
    · rw [List.append_assoc]
    · simp only [List.length_append, List.length_cons]
      omega
  have hfirst : (indent ++ (content ++ 0 :: back))[indent.length]? = content.head? := by
    rw [List.getElem?_append_right (Nat.le_refl _), Nat.sub_self, ← List.head?_eq_getElem?]
    cases content with
    | nil => exact absurd rfl hne
    | cons b content => rfl
  have hlast : (indent ++ (content ++ 0 :: back))[(indent ++ content).length - 1]? =
      content.getLast? := by
    have hpos := List.length_pos_iff.mpr hne
    rw [List.length_append, List.getElem?_append_right (by omega),
      List.getElem?_append_left (by omega), List.getLast?_eq_getElem?]
    congr 1
    omega
  refine ⟨back, ?_⟩
  rw [daemonConfParseLine, hforward, except_bind_ok, comment_length hbody hcomment hnul,
    hbackward, except_bind_ok, hterm, except_bind_ok, hfirst, hlast]

/-- A line without content is cut at the beginning of the buffer, if the trimming stops
there. -/
private theorem parseLine_blank (hindent : Blank indent) (hbody : byteComment ∉ indent)
    (hcomment : comment = [] ∨ ∃ rest, comment = byteComment :: rest)
    (hnul : (0 : UInt8) ∉ indent ++ comment) :
    (¬ StopsBefore before →
      daemonConfParseLine before (indent ++ comment) = .error .outOfBounds) ∧
    (StopsBefore before → daemonConfParseLine before (indent ++ comment) =
      parseValue before ((indent ++ (comment ++ [0])).set 0 0) indent.length) := by
  have hforward : trimForward (indent ++ comment ++ [0]) 0 = .ok indent.length := by
    rw [List.append_assoc]
    rcases hcomment with rfl | ⟨rest, rfl⟩
    · have := @trimForward_blank indent hindent 0 (by decide) [] 0
      rwa [Nat.zero_add] at this
    · have := @trimForward_blank indent hindent byteComment (by decide) (rest ++ [0]) 0
      rwa [Nat.zero_add] at this
  obtain ⟨hok, herror⟩ := trimBackward_start before hindent (comment ++ [0])
  rw [← List.append_assoc] at hok herror
  rw [daemonConfParseLine, hforward, except_bind_ok, comment_length hbody hcomment hnul]
  refine ⟨fun h => by rw [herror h]; rfl, fun h => ?_⟩
  rw [hok h, except_bind_ok, terminate, if_pos (by simp), except_bind_ok, if_neg,
    List.append_assoc]
  -- the byte at the beginning of the content is a comment or the terminator
  rintro ⟨hopen, -⟩
  rw [List.getElem?_set] at hopen
  split at hopen
  · split at hopen
    · exact absurd hopen (by decide)
    · cases hopen
  · rw [List.append_assoc, List.getElem?_append_right (Nat.le_refl _), Nat.sub_self] at hopen
    rcases hcomment with rfl | ⟨rest, rfl⟩
    · exact absurd hopen (by decide)
    · exact absurd hopen (by simp [byteComment, byteOpen])

/-- The trimmed line begins with its content, or with its comment. -/
private theorem misread_iff (hindent : Blank indent) (htrim : Trimmed content)
    (hnil : content = [] → trail = [])
    (hcomment : comment = [] ∨ ∃ rest, comment = byteComment :: rest)
    (hbody : byteComment ∉ indent ++ content ++ trail) :
    Misread (indent ++ content ++ trail ++ comment) ↔
      indent ≠ [] ∧ (content = [] ∧ comment ≠ [] ∨ content.head? = some byteSeparator) := by
  have hstart : ∀ byte rest, content ++ trail ++ comment = byte :: rest →
      isSpace byte = false := by
    intro byte rest heq
    cases content with
    | cons b content =>
      cases heq
      exact htrim.head byte content rfl
    | nil =>
      rw [hnil rfl] at heq
      rcases hcomment with rfl | ⟨tail, rfl⟩
      · cases heq
      · cases heq
        decide
  have hdrop : (indent ++ content ++ trail ++ comment).dropWhile isSpace =
      content ++ trail ++ comment := by
    have := dropWhile_blank hindent hstart
    rwa [← List.append_assoc, ← List.append_assoc] at this
  have hhead : (indent ++ content ++ trail ++ comment).head?.map isSpace = some true ↔
      indent ≠ [] := by
    cases indent with
    | cons b indent => simpa using hindent b (List.mem_cons_self ..)
    | nil =>
      rw [List.nil_append]
      cases hall : content ++ trail ++ comment with
      | nil => simp
      | cons byte rest => simp [hstart byte rest hall]
  have hnocomment : content.head? ≠ some byteComment := by
    intro h
    obtain ⟨rest, rfl⟩ := List.head?_eq_some_iff.mp h
    exact hbody (by simp)
  rw [Misread, hdrop, hhead]
  cases content with
  | nil =>
    rw [hnil rfl]
    rcases hcomment with rfl | ⟨rest, rfl⟩ <;> simp
  | cons b content =>
    have hb : b ≠ byteComment := by simpa using hnocomment
    simp [hb]

end Parts

/-- A content that begins with a byte of its own is read by the branch it selects. -/
private theorem readContent_agrees (before : Option UInt8) (indent : List UInt8)
    {content : List UInt8} (htrim : Trimmed content) (hne : content ≠ [])
    (hsep : content.head? ≠ some byteSeparator) (hnul : (0 : UInt8) ∉ content)
    (back : List UInt8) :
    ∃ parsed, (if content.head? = some byteOpen ∧ content.getLast? = some byteClose then
        parseDelimiter before (indent ++ (content ++ 0 :: back)) indent.length
          (indent ++ content).length
      else parseValue before (indent ++ (content ++ 0 :: back)) indent.length) = .ok parsed ∧
      parsed.Agrees (readContent content) := by
  by_cases hdelim : content.head? = some byteOpen ∧ content.getLast? = some byteClose
  · rw [if_pos hdelim, readContent, if_pos hdelim]
    obtain ⟨rest, rfl⟩ := List.head?_eq_some_iff.mp hdelim.1
    rcases List.eq_nil_or_concat' rest with rfl | ⟨inner, last, rfl⟩
    · exact absurd hdelim.2 (by decide)
    · have hlast : last = byteClose := by
        have := hdelim.2
        rw [← List.cons_append, List.getLast?_concat] at this
        simpa using this
      subst hlast
      obtain ⟨key, hparse, hkey⟩ := @parseDelimiter_eq before indent inner
        (fun h => hnul (by simp [h])) back
      have hlen : (indent ++ byteOpen :: (inner ++ [byteClose])).length =
          (indent ++ byteOpen :: inner).length + 1 := by
        simp only [List.length_append, List.length_cons, List.length_nil]
        omega
      have hbytes : indent ++ (byteOpen :: (inner ++ [byteClose]) ++ 0 :: back) =
          indent ++ byteOpen :: (inner ++ byteClose :: 0 :: back) := by simp
      refine ⟨_, by rw [hlen, hbytes]; exact hparse, Or.inr ⟨key, trim inner, rfl, ?_, hkey⟩⟩
      simp
  · rw [if_neg hdelim, readContent, if_neg hdelim]
    cases content with
    | nil => exact absurd rfl hne
    | cons first text =>
      rw [parseValue_eq before indent hnul (htrim.head first text rfl) (by simpa using hsep)]
      by_cases hmem : byteSeparator ∈ first :: text
      · rw [if_pos hmem, if_pos hmem]
        refine ⟨_, rfl, Or.inl ?_⟩
        obtain ⟨hcut, -⟩ := cut_at hmem
        generalize ((first :: text).dropWhile (· != byteSeparator)).tail = second at hcut
        have hsecond : trim second = second.dropWhile isSpace := by
          have hcut' : first :: text =
              (first :: text).takeWhile (· != byteSeparator) ++ [byteSeparator] ++ second := by
            conv_lhs => rw [hcut]
            simp
          exact trim_end (Eq.mp (congrArg Trimmed hcut') htrim)
        rw [hsecond]
      · rw [if_neg hmem, if_neg hmem]
        refine ⟨_, rfl, Or.inl ?_⟩
        have hall : (first :: text).takeWhile (· != byteSeparator) = first :: text :=
          List.takeWhile_eq_self_iff.mpr fun b hb => by
            simpa using fun h : b = byteSeparator => hmem (h ▸ hb)
        have htext := htrim.trim
        rw [hall, htext]

/-- The three fates of a line. -/
inductive LineFate (before : Option UInt8) (line : List UInt8) : Prop
  /-- A trimming loop leaves the buffer. -/
  | trapped (startless : Startless line) (passes : ¬ StopsBefore before)
      (parse : daemonConfParseLine before line = .error .outOfBounds)
  /-- The line has no key, and gets one that begins with a comment or a separator. -/
  | misread (misread : Misread line) (stops : StopsBefore before) (byte : UInt8) (key : Name)
      (value read : Option Name)
      (parse : daemonConfParseLine before line = .ok (.value (byte :: key) value))
      (first : byte = byteComment ∨ byte = byteSeparator) (nokey : readLine line = .value [] read)
  /-- The line is read. -/
  | read (well : ¬ Misread line) (stops : Startless line → StopsBefore before)
      (parsed : ParsedLine) (parse : daemonConfParseLine before line = .ok parsed)
      (agrees : parsed.Agrees (readLine line))

/-- A comment, or nothing at all. -/
private theorem fate_blank (before : Option UInt8) {line indent comment : List UInt8}
    (hline : line = indent ++ comment) (hcontent : lineContent line = []) (hindent : Blank indent)
    (hbody : byteComment ∉ indent)
    (hcomment : comment = [] ∨ ∃ rest, comment = byteComment :: rest)
    (hnul : (0 : UInt8) ∉ line) (hmisread : Misread line ↔ indent ≠ [] ∧ comment ≠ []) :
    LineFate before line := by
  have hread : readLine line = .value [] none := by
    rw [readLine, hcontent]
    rfl
  have hstartless : Startless line := Or.inl hcontent
  obtain ⟨htrap, hparse⟩ := parseLine_blank before hindent hbody hcomment (hline ▸ hnul)
  rw [← hline] at htrap hparse
  by_cases hstop : StopsBefore before
  · have hparse := hparse hstop
    rcases hcomment with rfl | ⟨rest, rfl⟩
    · refine .read (by rw [hmisread]; simp) (fun _ => hstop) _ ?_ (Or.inl hread.symm)
      rw [hparse]
      have hdrop : (indent ++ ([] ++ [0])).set 0 0 = indent.set 0 0 ++ ([] ++ 0 :: []) := by
        cases indent <;> rfl
      have hlen : indent.length = (indent.set 0 0).length := List.length_set.symm
      rw [hdrop, hlen, parseValue, strchr_append byteSeparator (by simp)]
      simp only [List.idxOf?_nil, Option.map_none]
      rw [List.drop_left, cString_append (by simp)]
    · cases indent with
      | nil =>
        refine .read (by rw [hmisread]; simp) (fun _ => hstop) _ ?_ (Or.inl hread.symm)
        rw [hparse]
        change parseValue before ([] ++ ([] ++ 0 :: (rest ++ [0]))) [].length = _
        rw [parseValue, strchr_append byteSeparator (by simp)]
        simp only [List.idxOf?_nil, Option.map_none]
        rw [List.drop_left, cString_append (by simp)]
      | cons b indent =>
        have hrest : (0 : UInt8) ∉ byteComment :: rest :=
          fun h => hnul (by rw [hline]; exact List.mem_append_right _ h)
        change _ = parseValue before ((0 :: indent) ++ (byteComment :: rest ++ 0 :: []))
          (0 :: indent).length at hparse
        rw [parseValue_eq before (0 :: indent) hrest (by decide) (by decide)] at hparse
        have hmis : Misread line := hmisread.mpr ⟨by simp, by simp⟩
        split at hparse
        · rename_i hmem
          obtain ⟨hcut, -⟩ := cut_at hmem
          obtain ⟨key, hkey⟩ : ∃ key,
              trim ((byteComment :: rest).takeWhile (· != byteSeparator)) = byteComment :: key := by
            rw [List.takeWhile_cons_of_pos (by decide), trim,
              List.dropWhile_cons_of_neg (by decide)]
            generalize rest.takeWhile (· != byteSeparator) = text
            obtain ⟨suffix, hfront⟩ := List.rdropWhile_prefix isSpace (byteComment :: text)
            cases htext : (byteComment :: text).rdropWhile isSpace with
            | nil =>
              have := List.rdropWhile_eq_nil_iff.mp htext byteComment (List.mem_cons_self ..)
              exact absurd this (by decide)
            | cons first key =>
              rw [htext] at hfront
              cases hfront
              exact ⟨key, rfl⟩
          rw [hkey] at hparse
          exact .misread hmis hstop _ _ _ _ hparse (Or.inl rfl) hread
        · exact .misread hmis hstop _ _ _ _ hparse (Or.inl rfl) hread
  · exact .trapped hstartless hstop (htrap hstop)

/-- A separator without a key in front of it. -/
private theorem fate_separator (before : Option UInt8) {line indent text back : List UInt8}
    (hcontent : lineContent line = byteSeparator :: text) (htrim : Trimmed (byteSeparator :: text))
    (hindent : Blank indent) (hnul : (0 : UInt8) ∉ text)
    (hparse : daemonConfParseLine before line =
      parseValue before (indent ++ (byteSeparator :: text ++ 0 :: back)) indent.length)
    (hmisread : Misread line ↔ indent ≠ []) : LineFate before line := by
  have hread : readLine line = .value [] (some (text.dropWhile isSpace)) := by
    have htext : trim text = text.dropWhile isSpace := @trim_end [byteSeparator] text htrim
    rw [readLine, hcontent, readContent, if_neg (by simp [byteSeparator, byteOpen]),
      List.takeWhile_cons_of_neg (by simp), if_pos (List.mem_cons_self ..),
      List.dropWhile_cons_of_neg (by simp), List.tail_cons, htext]
    rfl
  obtain ⟨hok, herror⟩ := parseValue_separator before hindent hnul back
  have hstartless : Startless line := Or.inr (by rw [hcontent]; rfl)
  by_cases hstop : StopsBefore before
  · have hparse := hparse.trans (hok hstop)
    by_cases hnil : indent = []
    · rw [if_pos hnil] at hparse
      exact .read (fun h => hmisread.mp h hnil) (fun _ => hstop) _ hparse (Or.inl hread.symm)
    · rw [if_neg hnil] at hparse
      exact .misread (hmisread.mpr hnil) hstop _ _ _ _ hparse (Or.inr rfl) hread
  · exact .trapped hstartless hstop (hparse.trans (herror hstop))

/-- A misread line has no content before its comment or separator. -/
theorem Misread.startless {line : List UInt8} (h : Misread line) : Startless line := by
  obtain ⟨indent, trail, comment, hline, hindent, -, htrim, hnil, hbody, hcomment⟩ :=
    lineContent_shape line
  have hmisread := misread_iff hindent htrim hnil hcomment hbody
  rw [← hline] at hmisread
  rcases (hmisread.mp h).2 with ⟨hempty, -⟩ | hsep
  · exact Or.inl hempty
  · exact Or.inr hsep

/-- Every line has one of the three fates. -/
theorem lineFate (before : Option UInt8) {line : List UInt8} (hnul : (0 : UInt8) ∉ line) :
    LineFate before line := by
  obtain ⟨indent, trail, comment, hline, hindent, htrail, htrim, hnil, hbody, hcomment⟩ :=
    lineContent_shape line
  have hmisread := misread_iff hindent htrim hnil hcomment hbody
  rw [← hline] at hmisread
  by_cases hempty : lineContent line = []
  · have htrail' := hnil hempty
    rw [hempty, htrail'] at hline hbody
    simp only [List.append_nil] at hline hbody
    refine fate_blank before hline hempty hindent hbody hcomment hnul ?_
    rw [hmisread, hempty]
    simp
  · obtain ⟨back, hparse⟩ := parseLine_content before hindent htrail htrim hempty hbody hcomment
      (hline ▸ hnul)
    rw [← hline] at hparse
    have hnul' : (0 : UInt8) ∉ lineContent line := fun h => hnul (by rw [hline]; simp [h])
    by_cases hsep : (lineContent line).head? = some byteSeparator
    · obtain ⟨text, htext⟩ := List.head?_eq_some_iff.mp hsep
      rw [htext] at hparse htrim hnul' hmisread
      rw [if_neg (by simp [byteSeparator, byteOpen])] at hparse
      refine fate_separator before htext htrim hindent (fun h => hnul' (by simp [h])) hparse ?_
      rw [hmisread]
      simp
    · obtain ⟨parsed, hparsed, hagrees⟩ := readContent_agrees before indent htrim hempty hsep
        hnul' back
      refine .read ?_ (fun h => ?_) parsed (hparse.trans hparsed) hagrees
      · rw [hmisread]
        simp [hempty, hsep]
      · rcases h with h | h
        · exact absurd h hempty
        · exact absurd h hsep

end Cyberd
