import Cyberd.Conf.Line

/-!
# What a line is read as

The grammar of a line, and what `daemon_conf_parse_line` makes of it. A line without
content, or whose content begins with a separator, sends the trimming loops in
front of the line: they read the byte before the buffer, and if the line is
indented they cut it at its first byte instead of the place they should.
-/

namespace Cyberd

open Library

/-- The content of a line: what precedes the first `'#'`, trimmed. -/
def lineContent (line : List UInt8) : List UInt8 := trim (line.takeWhile (· != byteComment))

/-- The meaning of a content: a section delimiter, or a key with an optional value. -/
def readContent (content : List UInt8) : ParsedLine :=
  if content.head? = some byteOpen ∧ content.getLast? = some byteClose then
    .delimiter (trim content.tail.dropLast)
  else
    .value (trim (content.takeWhile (· != byteSeparator)))
      (if byteSeparator ∈ content then
        some (trim (content.dropWhile (· != byteSeparator)).tail)
      else none)

/-- The meaning of a line. -/
def readLine (line : List UInt8) : ParsedLine := readContent (lineContent line)

/-- The line has no content, or its content begins with a separator. -/
def Startless (line : List UInt8) : Prop :=
  lineContent line = [] ∨ (lineContent line).head? = some byteSeparator

/-- The line begins with white space, and goes on with a comment or a separator. -/
def Misread (line : List UInt8) : Prop :=
  line.head?.map isSpace = some true ∧
    ((line.dropWhile isSpace).head? = some byteComment ∨
      (line.dropWhile isSpace).head? = some byteSeparator)

/-- The byte before the buffer can be read, and stops a trimming loop. -/
def StopsBefore (before : Option UInt8) : Prop := before.map isSpace = some false

instance (line : List UInt8) : Decidable (Startless line) :=
  inferInstanceAs (Decidable (_ ∨ _))

instance (line : List UInt8) : Decidable (Misread line) :=
  inferInstanceAs (Decidable (_ ∧ _))

instance (before : Option UInt8) : Decidable (StopsBefore before) :=
  inferInstanceAs (Decidable (_ = _))

/-- Both lines are the same, or delimit the same section. -/
def ParsedLine.Agrees (parsed read : ParsedLine) : Prop :=
  parsed = read ∨ ∃ key key', parsed = .delimiter key ∧ read = .delimiter key' ∧
    findSection key = findSection key'

/-- A trimming loop stops after the white space. -/
theorem trimForward_blank {spaces : List UInt8} (h : Blank spaces) {byte : UInt8}
    (hbyte : isSpace byte = false) (rest : List UInt8) (position : Nat) :
    trimForward (spaces ++ byte :: rest) position = .ok (position + spaces.length) := by
  induction spaces generalizing position with
  | nil => rw [List.nil_append, trimForward, if_neg (by simp [hbyte])]; rfl
  | cons space spaces ih =>
    rw [List.cons_append, trimForward, if_pos (h space (List.mem_cons_self ..)),
      ih (fun b hb => h b (List.mem_cons_of_mem _ hb))]
    simp only [List.length_cons]
    congr 1
    omega

/-- A trimming loop goes back over white space. -/
theorem trimBackward_blank (before : Option UInt8) {spaces : List UInt8} (h : Blank spaces)
    (front back : List UInt8) :
    trimBackward before (front ++ spaces ++ back) (front ++ spaces).length =
      trimBackward before (front ++ spaces ++ back) front.length := by
  induction spaces using List.reverseRecOn generalizing back with
  | nil => rw [List.append_nil]
  | append_singleton spaces space ih =>
    have hlen : (front ++ (spaces ++ [space])).length = (front ++ spaces).length + 1 := by
      simp only [List.length_append, List.length_cons, List.length_nil]
      omega
    have hbuf : front ++ (spaces ++ [space]) ++ back = front ++ spaces ++ space :: back := by simp
    have hget : (front ++ spaces ++ space :: back)[(front ++ spaces).length]? = some space := by
      rw [List.getElem?_append_right (Nat.le_refl _), Nat.sub_self]
      rfl
    rw [hlen, hbuf, trimBackward, hget]
    simp only [if_pos (h space (by simp))]
    exact ih (fun b hb => h b (by simp [hb])) (space :: back)

/-- A trimming loop stops after a byte that is not white space. -/
theorem trimBackward_stop (before : Option UInt8) (front : List UInt8) {byte : UInt8}
    (hbyte : isSpace byte = false) (back : List UInt8) :
    trimBackward before (front ++ byte :: back) (front.length + 1) = .ok (front.length + 1) := by
  have hget : (front ++ byte :: back)[front.length]? = some byte := by
    rw [List.getElem?_append_right (Nat.le_refl _), Nat.sub_self]
    rfl
  rw [trimBackward, hget]
  simp [hbyte]

/-- A trimming loop stops at the end of a trimmed text. -/
theorem trimBackward_text (before : Option UInt8) {text spaces : List UInt8} (ht : Trimmed text)
    (hne : text ≠ []) (hs : Blank spaces) (front back : List UInt8) :
    trimBackward before (front ++ text ++ spaces ++ back) (front ++ text ++ spaces).length =
      .ok (front ++ text).length := by
  rw [trimBackward_blank before hs]
  obtain ⟨rest, last, rfl⟩ := (List.eq_nil_or_concat' text).resolve_left hne
  have hbuf : front ++ (rest ++ [last]) ++ spaces ++ back =
      front ++ rest ++ last :: (spaces ++ back) := by simp
  have hlen : (front ++ (rest ++ [last])).length = (front ++ rest).length + 1 := by
    simp only [List.length_append, List.length_cons, List.length_nil]
    omega
  rw [hbuf, hlen]
  exact trimBackward_stop before (front ++ rest) (ht.last rest last rfl) _

/-- White space up to the beginning of the buffer is stopped by the byte before it. -/
theorem trimBackward_start (before : Option UInt8) {spaces : List UInt8} (h : Blank spaces)
    (back : List UInt8) :
    (StopsBefore before → trimBackward before (spaces ++ back) spaces.length = .ok 0) ∧
      (¬ StopsBefore before →
        trimBackward before (spaces ++ back) spaces.length = .error .outOfBounds) := by
  have hzero := trimBackward_blank before h [] back
  rw [List.nil_append] at hzero
  rw [hzero]
  unfold StopsBefore
  cases before with
  | none => simp [trimBackward]
  | some byte => cases hbyte : isSpace byte <;> simp [trimBackward, hbyte]

/-- `strchr` looks at the string that begins at its pointer. -/
theorem strchr_append (byte : UInt8) {text : Name} (h : (0 : UInt8) ∉ text)
    (front back : List UInt8) :
    strchr byte (front ++ (text ++ 0 :: back)) front.length =
      (text.idxOf? byte).map (front.length + ·) := by
  rw [strchr, List.drop_left, cString_append h]

/-- The first occurrence of a byte. -/
theorem idxOf_append_cons {byte : UInt8} {front : List UInt8} (h : byte ∉ front)
    (back : List UInt8) : (front ++ byte :: back).idxOf? byte = some front.length := by
  induction front with
  | nil => simp [List.idxOf?_cons]
  | cons b front ih =>
    rw [List.mem_cons, not_or] at h
    rw [List.cons_append, List.idxOf?_cons, if_neg (by simpa using Ne.symm h.1), ih h.2]
    rfl

/-- A text with a byte, cut at its first occurrence. -/
theorem cut_at {byte : UInt8} {text : List UInt8} (h : byte ∈ text) :
    text = text.takeWhile (· != byte) ++ byte :: (text.dropWhile (· != byte)).tail ∧
      byte ∉ text.takeWhile (· != byte) := by
  have hno : byte ∉ text.takeWhile (· != byte) := fun hmem => by
    simpa using List.mem_takeWhile_imp hmem
  refine ⟨?_, hno⟩
  have hsplit := List.takeWhile_append_dropWhile (p := (· != byte)) (l := text)
  cases hd : text.dropWhile (· != byte) with
  | nil =>
    rw [hd, List.append_nil] at hsplit
    exact (hno (hsplit.symm ▸ h)).elim
  | cons b rest =>
    have hb := List.head?_dropWhile_not (· != byte) text
    rw [hd] at hb
    have hb : b = byte := by simpa using hb
    rw [hd, hb] at hsplit
    exact hsplit.symm

/-- The parts of a line around its content. -/
theorem lineContent_shape (line : List UInt8) : ∃ indent trail comment,
    line = indent ++ lineContent line ++ trail ++ comment ∧ Blank indent ∧ Blank trail ∧
    Trimmed (lineContent line) ∧ (lineContent line = [] → trail = []) ∧
    byteComment ∉ indent ++ lineContent line ++ trail ∧
    (comment = [] ∨ ∃ rest, comment = byteComment :: rest) := by
  obtain ⟨indent, trail, hshape, hindent, htrail, htrim, hnil⟩ :=
    trim_shape (line.takeWhile (· != byteComment))
  by_cases hmem : byteComment ∈ line
  · obtain ⟨hcut, hno⟩ := cut_at hmem
    refine ⟨indent, trail, byteComment :: (line.dropWhile (· != byteComment)).tail, ?_, hindent,
      htrail, htrim, hnil, ?_, Or.inr ⟨_, rfl⟩⟩
    · conv_lhs => rw [hcut, hshape]
      rfl
    · rw [hshape] at hno
      exact hno
  · have hall : line.takeWhile (· != byteComment) = line :=
      List.takeWhile_eq_self_iff.mpr fun b hb => by
        simpa using fun h : b = byteComment => hmem (h ▸ hb)
    refine ⟨indent, trail, [], ?_, hindent, htrail, htrim, hnil, ?_, Or.inl rfl⟩
    · conv_lhs => rw [← hall, hshape]
      rw [List.append_nil]
      rfl
    · intro hin
      apply hmem
      rw [← hall, hshape]
      exact hin

/-- Leading white space is dropped up to a byte that is not, in front of the terminator. -/
theorem trimForward_drop (text back : List UInt8) (position : Nat) :
    trimForward (text ++ 0 :: back) position =
        .ok (position + (text.takeWhile isSpace).length) ∧
      (text ++ 0 :: back).drop (text.takeWhile isSpace).length =
        text.dropWhile isSpace ++ 0 :: back := by
  have hsplit := List.takeWhile_append_dropWhile (p := isSpace) (l := text)
  have hblank : Blank (text.takeWhile isSpace) := fun b hb => List.mem_takeWhile_imp hb
  have hform : text ++ 0 :: back =
      text.takeWhile isSpace ++ (text.dropWhile isSpace ++ 0 :: back) := by
    rw [← List.append_assoc, hsplit]
  refine ⟨?_, by conv_lhs => rw [hform, List.drop_left]⟩
  conv_lhs => rw [hform]
  cases hd : text.dropWhile isSpace with
  | nil => exact @trimForward_blank _ hblank 0 (by decide) back position
  | cons b rest =>
    have hb := List.head?_dropWhile_not isSpace text
    rw [hd] at hb
    exact trimForward_blank hblank (by simpa using hb) _ position

/-- The end of a key is found behind its text, whether or not white space follows. -/
theorem trimKey_text (before : Option UInt8) {name spaces : List UInt8} (hname : Trimmed name)
    (hne : name ≠ []) (hspaces : Blank spaces) (front back : List UInt8) :
    trimKey before (front ++ name ++ spaces ++ back) front.length
      (front ++ name ++ spaces).length = .ok (front ++ name).length := by
  have hpos := List.length_pos_iff.mpr hne
  rw [trimKey]
  split
  · rename_i hend
    simp only [List.length_append] at hend ⊢
    congr 1
    omega
  · exact trimBackward_text before hname hne hspaces front back

/-- A text is ended in front of the bytes that follow it. -/
theorem terminate_text (front : List UInt8) {gap : List UInt8} (hgap : gap ≠ [])
    (back : List UInt8) :
    terminate (front ++ gap ++ back) front.length = .ok (front ++ 0 :: (gap.tail ++ back)) := by
  cases gap with
  | nil => exact absurd rfl hgap
  | cons old gap =>
    rw [terminate, List.append_assoc, List.cons_append, set_append_cons, if_pos, List.tail_cons]
    simp

/-- A text that begins with a byte of its own is cut at its first separator. -/
theorem parseValue_eq (before : Option UInt8) (front : List UInt8) {first : UInt8}
    {text : List UInt8} (hnul : (0 : UInt8) ∉ first :: text) (hspace : isSpace first = false)
    (hsep : first ≠ byteSeparator) (back : List UInt8) :
    parseValue before (front ++ (first :: text ++ 0 :: back)) front.length =
      if byteSeparator ∈ first :: text then
        .ok (.value (trim ((first :: text).takeWhile (· != byteSeparator)))
          (some ((((first :: text).dropWhile (· != byteSeparator)).tail).dropWhile isSpace)))
      else .ok (.value (first :: text) none) := by
  rw [parseValue, strchr_append byteSeparator hnul]
  by_cases hmem : byteSeparator ∈ first :: text
  · rw [if_pos hmem]
    obtain ⟨hcut, hno⟩ := cut_at hmem
    generalize ((first :: text).dropWhile (· != byteSeparator)).tail = second at hcut
    have hkey : ∃ rest, (first :: text).takeWhile (· != byteSeparator) = first :: rest :=
      ⟨_, List.takeWhile_cons_of_pos (by simpa using hsep)⟩
    generalize (first :: text).takeWhile (· != byteSeparator) = key at hcut hno hkey
    obtain ⟨keyRest, rfl⟩ := hkey
    rw [hcut, idxOf_append_cons hno, Option.map_some]
    -- the key is its trimmed text and white space after it
    obtain ⟨spaces, hshape, hspaces, htrim, hne⟩ := @trim_shape_cons first keyRest hspace
    generalize trim (first :: keyRest) = name at hshape htrim hne
    rw [hshape] at hcut ⊢
    have hnameNul : (0 : UInt8) ∉ name := fun h => hnul (by rw [hcut]; simp [h])
    have hsecondNul : (0 : UInt8) ∉ second.dropWhile isSpace := by
      intro h
      refine hnul ?_
      rw [hcut]
      exact List.mem_append_right _ (List.mem_cons_of_mem _ ((List.dropWhile_sublist _).mem h))
    have hbytes : front ++ (name ++ spaces ++ byteSeparator :: second ++ 0 :: back) =
        front ++ name ++ (spaces ++ [byteSeparator]) ++ (second ++ 0 :: back) := by simp
    have hlast : trimKey before (front ++ (name ++ spaces ++ byteSeparator :: second ++ 0 :: back))
        front.length (front.length + (name ++ spaces).length) = .ok (front ++ name).length := by
      have hend : front.length + (name ++ spaces).length = (front ++ name ++ spaces).length := by
        simp
      have hfront : front ++ (name ++ spaces ++ byteSeparator :: second ++ 0 :: back) =
          front ++ name ++ spaces ++ (byteSeparator :: (second ++ 0 :: back)) := by simp
      rw [hend, hfront]
      exact trimKey_text before htrim hne hspaces front _
    have hterm := terminate_text (front ++ name) (List.append_ne_nil_of_right_ne_nil spaces
      (List.cons_ne_nil byteSeparator [])) (second ++ 0 :: back)
    rw [← hbytes] at hterm
    generalize hgap : (spaces ++ [byteSeparator]).tail = gap at hterm
    have hdrop : ((front ++ name) ++ 0 :: (gap ++ (second ++ 0 :: back))).drop
        (front.length + (name ++ spaces).length + 1) = second ++ 0 :: back := by
      have hend : front.length + (name ++ spaces).length + 1 =
          (front ++ name ++ 0 :: gap).length := by
        simp only [← hgap, List.length_append, List.length_cons, List.length_tail]
        simp [Nat.add_assoc]
      rw [hend, ← List.cons_append, ← List.append_assoc, List.drop_left]
    obtain ⟨hforward, hrest⟩ :=
      trimForward_drop second back (front.length + (name ++ spaces).length + 1)
    simp only
    rw [hlast, except_bind_ok, hterm, except_bind_ok, hdrop, hforward, except_bind_ok,
      ← List.drop_drop, hdrop, hrest, List.append_assoc, List.drop_left,
      cString_append hnameNul, cString_append hsecondNul]
    rfl
  · rw [if_neg hmem, List.idxOf?_eq_none_iff.mpr hmem]
    simp only [Option.map_none]
    rw [List.drop_left, cString_append hnul]

/-- A text that begins with a separator is cut where the white space before it begins. -/
theorem parseValue_separator (before : Option UInt8) {front : List UInt8} (hfront : Blank front)
    {text : List UInt8} (hnul : (0 : UInt8) ∉ text) (back : List UInt8) :
    (StopsBefore before →
      parseValue before (front ++ (byteSeparator :: text ++ 0 :: back)) front.length =
        .ok (.value (if front = [] then [] else byteSeparator :: text)
          (some (text.dropWhile isSpace)))) ∧
    (¬ StopsBefore before →
      parseValue before (front ++ (byteSeparator :: text ++ 0 :: back)) front.length =
        .error .outOfBounds) := by
  have hnul' : (0 : UInt8) ∉ byteSeparator :: text := by
    simpa [byteSeparator] using hnul
  have hstart := trimBackward_start before hfront (byteSeparator :: text ++ 0 :: back)
  have hindex : strchr byteSeparator (front ++ (byteSeparator :: text ++ 0 :: back))
      front.length = some front.length := by
    rw [strchr_append byteSeparator hnul', List.idxOf?_cons, if_pos (by simp)]
    rfl
  rw [parseValue, hindex]
  simp only [trimKey]
  rw [if_neg (by omega)]
  refine ⟨fun h => ?_, fun h => by rw [hstart.2 h]; rfl⟩
  rw [hstart.1 h, except_bind_ok, terminate, if_pos (by simp), except_bind_ok]
  obtain ⟨hforward, hrest⟩ := trimForward_drop text back (front.length + 1)
  have hdrop : ((front ++ (byteSeparator :: text ++ 0 :: back)).set 0 0).drop (front.length + 1) =
      text ++ 0 :: back := by
    rw [List.drop_set_of_lt (by omega), ← List.drop_drop, List.drop_left]
    rfl
  rw [hdrop, hforward, except_bind_ok, ← List.drop_drop, hdrop, hrest, cString_append]
  · cases front with
    | nil => rfl
    | cons b front =>
      rw [if_neg (by simp), List.cons_append, List.set_cons_zero]
      change Except.ok (ParsedLine.value (cString ((front ++ (byteSeparator :: text ++
        0 :: back)).drop front.length)) _) = _
      rw [List.drop_left, cString_append hnul']
  · exact fun hmem => hnul ((List.dropWhile_sublist _).mem hmem)

/-- Nothing between the brackets: both loops pass the opposite bracket. -/
private theorem parseDelimiter_blank (before : Option UInt8) (front : List UInt8)
    {inner : List UInt8} (h : Blank inner) (back : List UInt8) :
    parseDelimiter before (front ++ byteOpen :: (inner ++ byteClose :: 0 :: back)) front.length
        ((front ++ byteOpen :: inner).length + 1) =
      .ok (.delimiter (if inner = [] then [] else [byteClose])) := by
  have hdrop : (front ++ byteOpen :: (inner ++ byteClose :: 0 :: back)).drop (front.length + 1) =
      inner ++ byteClose :: 0 :: back := by
    rw [← List.drop_drop, List.drop_left]
    rfl
  have hforward : trimForward (inner ++ byteClose :: 0 :: back) (front.length + 1) =
      .ok (front.length + 1 + inner.length) := trimForward_blank h (by decide) _ _
  have hbackward : trimBackward before (front ++ byteOpen :: (inner ++ byteClose :: 0 :: back))
      (front ++ byteOpen :: inner).length = .ok (front.length + 1) := by
    have hback := trimBackward_blank before h (front ++ [byteOpen]) (byteClose :: 0 :: back)
    simp only [List.append_assoc, List.cons_append, List.nil_append, List.length_append,
      List.length_cons, List.length_nil, Nat.zero_add] at hback ⊢
    rw [hback]
    exact trimBackward_stop before front (by decide) _
  have hset : (front ++ byteOpen :: (inner ++ byteClose :: 0 :: back)).set (front.length + 1) 0 =
      front ++ byteOpen :: (inner ++ byteClose :: 0 :: back).set 0 0 := by
    rw [List.set_append_right _ _ (by omega), Nat.add_sub_cancel_left, List.set_cons_succ]
  rw [parseDelimiter, hdrop, hforward, except_bind_ok, Nat.add_sub_cancel, hbackward,
    except_bind_ok, terminate, if_pos (by simp), except_bind_ok, hset]
  cases inner with
  | nil => simp [cString, ← List.drop_drop]
  | cons b inner =>
    have hend : front.length + 1 + (b :: inner).length =
        (front ++ byteOpen :: 0 :: inner).length := by
      simp only [List.length_append, List.length_cons]
      omega
    have hbytes : front ++ byteOpen :: (b :: inner ++ byteClose :: 0 :: back).set 0 0 =
        (front ++ byteOpen :: 0 :: inner) ++ ([byteClose] ++ 0 :: back) := by simp
    rw [hend, hbytes, List.drop_left, cString_append (by decide)]
    rfl

/-- A name between the brackets, with white space around it. -/
private theorem parseDelimiter_name (before : Option UInt8) (front : List UInt8)
    {lead name spaces : List UInt8} (hlead : Blank lead) (hspaces : Blank spaces)
    (hname : Trimmed name) (hne : name ≠ []) (hnul : (0 : UInt8) ∉ name) (back : List UInt8) :
    parseDelimiter before
        (front ++ byteOpen :: (lead ++ name ++ spaces ++ byteClose :: 0 :: back)) front.length
        ((front ++ byteOpen :: (lead ++ name ++ spaces)).length + 1) = .ok (.delimiter name) := by
  have hdrop : (front ++ byteOpen :: (lead ++ name ++ spaces ++ byteClose :: 0 :: back)).drop
      (front.length + 1) = lead ++ (name ++ (spaces ++ byteClose :: 0 :: back)) := by
    rw [← List.drop_drop, List.drop_left]
    simp
  have hforward : trimForward (lead ++ (name ++ (spaces ++ byteClose :: 0 :: back)))
      (front.length + 1) = .ok (front ++ byteOpen :: lead).length := by
    cases name with
    | nil => exact absurd rfl hne
    | cons b name =>
      have hlen : (front ++ byteOpen :: lead).length = front.length + 1 + lead.length := by
        simp only [List.length_append, List.length_cons]
        omega
      rw [hlen]
      exact trimForward_blank hlead (hname.head b name rfl) _ _
  have hbytes : front ++ byteOpen :: (lead ++ name ++ spaces ++ byteClose :: 0 :: back) =
      front ++ byteOpen :: lead ++ name ++ spaces ++ byteClose :: 0 :: back := by simp
  have hbackward : trimBackward before
      (front ++ byteOpen :: lead ++ name ++ spaces ++ byteClose :: 0 :: back)
      (front ++ byteOpen :: (lead ++ name ++ spaces)).length =
      .ok (front ++ byteOpen :: lead ++ name).length := by
    have hlen : (front ++ byteOpen :: (lead ++ name ++ spaces)).length =
        (front ++ byteOpen :: lead ++ name ++ spaces).length := by simp
    rw [hlen]
    exact trimBackward_text before hname hne hspaces _ _
  obtain ⟨old, gap, hgap⟩ : ∃ old gap, spaces ++ [byteClose] = old :: gap := by
    cases spaces with
    | nil => exact ⟨_, _, rfl⟩
    | cons b spaces => exact ⟨_, _, rfl⟩
  have hterm : terminate (front ++ byteOpen :: lead ++ name ++ spaces ++ byteClose :: 0 :: back)
      (front ++ byteOpen :: lead ++ name).length =
      .ok (front ++ byteOpen :: lead ++ (name ++ 0 :: (gap ++ 0 :: back))) := by
    have hsplit : front ++ byteOpen :: lead ++ name ++ spaces ++ byteClose :: 0 :: back =
        (front ++ byteOpen :: lead ++ name) ++ old :: (gap ++ 0 :: back) := by
      calc
        _ = (front ++ byteOpen :: lead ++ name) ++ ((spaces ++ [byteClose]) ++ 0 :: back) := by simp
        _ = _ := by rw [hgap, List.cons_append]
    rw [terminate, hsplit, set_append_cons, if_pos]
    · simp
    · simp only [List.length_append, List.length_cons]
      omega
  rw [parseDelimiter, hdrop, hforward, except_bind_ok, Nat.add_sub_cancel, hbytes, hbackward,
    except_bind_ok, hterm, except_bind_ok, List.drop_left, cString_append hnul]
  rfl

/-- The section of a delimiter is the one of the text inside of the brackets. -/
theorem parseDelimiter_eq (before : Option UInt8) (front : List UInt8) {inner : List UInt8}
    (hnul : (0 : UInt8) ∉ inner) (back : List UInt8) :
    ∃ key, parseDelimiter before (front ++ byteOpen :: (inner ++ byteClose :: 0 :: back))
        front.length ((front ++ byteOpen :: inner).length + 1) = .ok (.delimiter key) ∧
      findSection key = findSection (trim inner) := by
  obtain ⟨lead, spaces, hshape, hlead, hspaces, htrim, hnil⟩ := trim_shape inner
  by_cases hne : trim inner = []
  · have hblank : Blank inner := by
      rw [hshape, hne, hnil hne, List.append_nil, List.append_nil]
      exact hlead
    refine ⟨_, parseDelimiter_blank before front hblank back, ?_⟩
    rw [hne]
    split <;> decide
  · refine ⟨trim inner, ?_, rfl⟩
    have hname := parseDelimiter_name before front hlead hspaces htrim hne
      (fun h => hnul (by rw [hshape]; simp [h])) back
    rw [← hshape] at hname
    exact hname

end Cyberd
