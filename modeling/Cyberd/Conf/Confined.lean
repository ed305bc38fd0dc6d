import Cyberd.Conf.LineAccess

/-!
# The lines that are parsed inside of their bytes

The trimming loops of `daemon_conf_parse_line` have no bound: they stop at a byte that is
not white space. There is one in front of them when the line has content, when a key
begins with a byte of its own, and when there is a name between brackets.
-/

namespace Cyberd

open Library

/-- What is returned is terminated in the buffer, and a substring of the line. -/
def LineResult.Terminated (r : LineResult) (line : List UInt8) : Prop :=
  ∀ index ∈ r.key :: r.value.toList, index ≤ line.length ∧ 0 ∈ r.bytes.drop index ∧
    cString (r.bytes.drop index) <:+: line

/-- The parsing of a line stays inside of the line. -/
def StaysInside (line : List UInt8) : Prop :=
  ∃ r, Checked.daemonConfParseLine line = .ok r ∧ r.Terminated line

/-- What precedes the comment of a line, which begins in front of any null byte. -/
def uncommented (line : List UInt8) : List UInt8 :=
  if byteComment ∈ cString line then line.takeWhile (· != byteComment) else line

/-- The line has content that begins with no separator, and is not a pair of brackets
with nothing but white space in between. -/
structure Confined (line : List UInt8) : Prop where
  /-- There is more than white space before the comment. -/
  content : ¬ Blank (uncommented line)
  /-- The first byte of a key is not the separator. -/
  separator : (trim (uncommented line)).head? ≠ some byteSeparator
  /-- The brackets of a delimiter are next to each other, or there is a name in between. -/
  delimiter : ∀ inner, trim (uncommented line) = byteOpen :: (inner ++ [byteClose]) →
    inner ≠ [] → ¬ Blank inner

section Loops

variable {bytes front spaces text back : List UInt8} {byte : UInt8} {line length : Nat}

/-- The byte behind a text is read. -/
theorem byteAt_length (front : List UInt8) (byte : UInt8) (back : List UInt8) :
    Checked.byteAt (front ++ byte :: back) (front.length : Nat) = .ok byte := by
  have hget : (front ++ byte :: back)[front.length]? = some byte := by
    rw [List.getElem?_append_right (Nat.le_refl _), Nat.sub_self]
    rfl
  rw [Checked.byteAt, if_neg (by omega), Int.toNat_natCast, hget]

/-- White space at the beginning is passed over, and counted. -/
theorem trimBeginning_blank (h : Blank spaces) (hbyte : isSpace byte = false) (rest : List UInt8)
    (line length : Nat) :
    Checked.trimBeginning (spaces ++ byte :: rest) line (spaces.length + length) =
      .ok (line + spaces.length, length) := by
  induction spaces generalizing line with
  | nil => simp [Checked.trimBeginning, hbyte]
  | cons space spaces ih =>
    have hrest : Blank spaces := fun b hb => h b (List.mem_cons_of_mem _ hb)
    have hlen : (space :: spaces).length + length = spaces.length + length + 1 := by
      rw [List.length_cons]
      omega
    rw [List.cons_append, Checked.trimBeginning, if_pos (h space (List.mem_cons_self ..)), hlen,
      Checked.decrement, except_bind_ok, ih hrest, List.length_cons]
    congr 2
    omega

/-- White space at the end is taken off, up to the text. -/
theorem trimEnd_text (ht : Trimmed text) (hne : text ≠ []) (hs : Blank spaces)
    (front back : List UInt8) :
    Checked.trimEnd (front ++ text ++ spaces ++ back) front.length (text ++ spaces).length =
      .ok text.length := by
  induction spaces using List.reverseRecOn generalizing back with
  | nil =>
    obtain ⟨rest, last, rfl⟩ := (List.eq_nil_or_concat' text).resolve_left hne
    have hbytes : front ++ (rest ++ [last]) ++ [] ++ back = (front ++ rest) ++ last :: back := by
      simp
    have hread := byteAt_length (front ++ rest) last back
    rw [List.length_append] at hread
    rw [hbytes, List.append_nil, List.length_append, List.length_singleton, Checked.trimEnd, hread,
      except_bind_ok, ht.last rest last rfl]
    rfl
  | append_singleton spaces space ih =>
    have hspace : isSpace space = true := hs space (by simp)
    have hrest : Blank spaces := fun b hb => hs b (by simp [hb])
    have hbytes : front ++ text ++ (spaces ++ [space]) ++ back =
        front ++ text ++ spaces ++ space :: back := by simp
    have hlen : (text ++ (spaces ++ [space])).length = (text ++ spaces).length + 1 := by
      simp only [List.length_append, List.length_singleton]
      omega
    have hindex : (front ++ text ++ spaces).length = front.length + (text ++ spaces).length := by
      rw [List.append_assoc, List.length_append]
    have hread := byteAt_length (front ++ text ++ spaces) space back
    rw [hindex] at hread
    rw [hbytes, hlen, Checked.trimEnd, hread, except_bind_ok, hspace]
    exact ih hrest (space :: back)

/-- Without a text the count has nothing left to give for the white space in front of it. -/
theorem trimEnd_blank (h : Blank front) (back : List UInt8) {result : Nat} :
    Checked.trimEnd (front ++ back) front.length 0 ≠ .ok result := by
  intro heq
  rw [Checked.trimEnd] at heq
  cases front using List.reverseRecOn with
  | nil => cases heq
  | append_singleton front space =>
    have hread := byteAt_length front space back
    have hindex : (((front ++ [space]).length : Nat) : Int) - 1 = (front.length : Nat) := by
      rw [List.length_append, List.length_singleton]
      omega
    have hspace : isSpace space = true := h space (by simp)
    rw [hindex, List.append_assoc, List.singleton_append, hread, except_bind_ok, hspace] at heq
    cases heq

/-- A count that is used up stays so behind a byte that is not white space. -/
theorem trimEnd_stop (hbyte : isSpace byte = false) (front back : List UInt8) :
    Checked.trimEnd (front ++ byte :: back) (front.length + 1) 0 = .ok 0 := by
  have hread := byteAt_length front byte back
  have hindex : ((front.length + 1 : Nat) : Int) - 1 = (front.length : Nat) := by omega
  rw [Checked.trimEnd, hindex, hread, except_bind_ok, hbyte]
  rfl

/-- The pointer goes back to the end of a text. -/
theorem trimPreseparator_text (ht : Trimmed text) (hne : text ≠ []) (hs : Blank spaces)
    (front back : List UInt8) :
    Checked.trimPreseparator (front ++ text ++ spaces ++ back) (front ++ text ++ spaces).length =
      .ok (front ++ text).length := by
  induction spaces using List.reverseRecOn generalizing back with
  | nil =>
    obtain ⟨rest, last, rfl⟩ := (List.eq_nil_or_concat' text).resolve_left hne
    have hbytes : front ++ (rest ++ [last]) ++ [] ++ back = (front ++ rest) ++ last :: back := by
      simp
    have hlen : (front ++ (rest ++ [last])).length = (front ++ rest).length + 1 := by
      simp only [List.length_append, List.length_singleton]
      omega
    rw [hbytes, List.append_nil, hlen, Checked.trimPreseparator, byteAt_length, except_bind_ok,
      ht.last rest last rfl]
    rfl
  | append_singleton spaces space ih =>
    have hspace : isSpace space = true := hs space (by simp)
    have hrest : Blank spaces := fun b hb => hs b (by simp [hb])
    have hbytes : front ++ text ++ (spaces ++ [space]) ++ back =
        front ++ text ++ spaces ++ space :: back := by simp
    have hlen : (front ++ text ++ (spaces ++ [space])).length =
        (front ++ text ++ spaces).length + 1 := by
      simp only [List.length_append, List.length_singleton]
      omega
    rw [hbytes, hlen, Checked.trimPreseparator, byteAt_length, except_bind_ok, hspace]
    exact ih hrest (space :: back)

/-- The pointer leaves the line over white space. -/
theorem trimPreseparator_blank (h : Blank spaces) (back : List UInt8) {result : Nat} :
    Checked.trimPreseparator (spaces ++ back) spaces.length ≠ .ok result := by
  induction spaces using List.reverseRecOn generalizing back with
  | nil => exact fun heq => by cases heq
  | append_singleton spaces space ih =>
    have hspace : isSpace space = true := h space (by simp)
    have hrest : Blank spaces := fun b hb => h b (by simp [hb])
    rw [List.length_append, List.length_singleton, List.append_assoc, List.singleton_append,
      Checked.trimPreseparator, byteAt_length, except_bind_ok, hspace]
    exact ih hrest (space :: back)

/-- The pointer stops in front of the terminating byte at the latest. -/
theorem trimSeparator_stops (text back : List UInt8) (position : Nat) :
    Checked.trimSeparator (text ++ 0 :: back) position =
      .ok (position + (text.takeWhile isSpace).length) := by
  induction text generalizing position with
  | nil =>
    have hnul : isSpace 0 = false := by decide
    simp [Checked.trimSeparator, hnul]
  | cons byte text ih =>
    rw [List.cons_append, Checked.trimSeparator]
    by_cases hspace : isSpace byte = true
    · rw [if_pos hspace, ih, List.takeWhile_cons_of_pos hspace, List.length_cons]
      congr 1
      omega
    · rw [if_neg hspace, List.takeWhile_cons_of_neg hspace]
      rfl

/-- A string that ends inside of a text or behind it begins the text. -/
theorem cString_begins (text back : List UInt8) : cString (text ++ 0 :: back) <+: text := by
  induction text with
  | nil => exact List.nil_prefix
  | cons byte text ih =>
    rw [List.cons_append, cString]
    by_cases hbyte : byte = 0
    · rw [hbyte]
      exact List.nil_prefix
    · rw [List.takeWhile_cons_of_pos (by simpa using hbyte)]
      exact (List.prefix_cons_inj byte).mpr ih

/-- A byte of a buffer in front of another one is replaced. -/
theorem terminate_gap (front : List UInt8) {gap : List UInt8} (hgap : gap ≠ []) :
    Checked.terminate (front ++ gap) front.length = .ok (front ++ 0 :: gap.tail) := by
  cases gap with
  | nil => exact absurd rfl hgap
  | cons old gap =>
    rw [Checked.terminate, if_pos (by simp), set_append_cons]
    simp

end Loops

section Branches

variable {front inner content back line : List UInt8} {first : UInt8} {more : List UInt8}

/-- A string in the buffer of a line, which begins a part of the line. -/
theorem terminated_at {text : List UInt8} (hline : text <:+: line)
    (hle : front.length ≤ line.length) (back : List UInt8) :
    front.length ≤ line.length ∧ 0 ∈ (front ++ (text ++ 0 :: back)).drop front.length ∧
      cString ((front ++ (text ++ 0 :: back)).drop front.length) <:+: line := by
  rw [List.drop_left]
  exact ⟨hle, by simp, (cString_begins text back).isInfix.trans hline⟩

/-- What follows an opening bracket. -/
theorem drop_bracket (front text : List UInt8) :
    (front ++ byteOpen :: text).drop (front.length + 1) = text := by
  rw [← List.drop_drop, List.drop_left]
  rfl

/-- Brackets next to each other are an empty name in front of the second one. -/
theorem parseDelimiter_empty (front back : List UInt8) :
    Checked.parseDelimiter (front ++ byteOpen :: byteClose :: 0 :: back) front.length 2 =
      .ok ⟨front ++ [byteOpen] ++ 0 :: 0 :: back, (front ++ [byteOpen]).length, none, true⟩ := by
  have hclose : isSpace byteClose = false := by decide
  have hopen : isSpace byteOpen = false := by decide
  have hbegin : Checked.trimBeginning (byteClose :: 0 :: back) (front.length + 1) 1 =
      .ok (front.length + 1, 1) := by simp [Checked.trimBeginning, hclose]
  have hlen : (front ++ [byteOpen]).length = front.length + 1 := by simp
  have hterm := terminate_gap (front ++ [byteOpen]) (List.cons_ne_nil byteClose (0 :: back))
  rw [hlen, List.append_assoc, List.singleton_append, List.tail_cons] at hterm
  rw [Checked.parseDelimiter, Checked.decrement, except_bind_ok, drop_bracket, hbegin,
    except_bind_ok]
  simp only
  rw [Checked.decrement, except_bind_ok, trimEnd_stop hopen, except_bind_ok, Nat.add_zero, hterm,
    hlen]
  rfl

/-- A name in brackets is what remains between them without white space. -/
theorem parseDelimiter_named {lead name spaces : List UInt8} (hlead : Blank lead)
    (hname : Trimmed name) (hne : name ≠ []) (hspaces : Blank spaces) (front back : List UInt8) :
    Checked.parseDelimiter
        (front ++ byteOpen :: (lead ++ name ++ spaces ++ byteClose :: 0 :: back)) front.length
        ((lead ++ name ++ spaces).length + 2) =
      .ok ⟨front ++ byteOpen :: lead ++ (name ++ 0 :: (spaces ++ byteClose :: 0 :: back).tail),
        (front ++ byteOpen :: lead).length, none, true⟩ := by
  obtain ⟨byte, rest, hcons⟩ := List.exists_cons_of_ne_nil hne
  have hbegin := trimBeginning_blank hlead (hname.head byte rest hcons)
    (rest ++ (spaces ++ byteClose :: 0 :: back)) (front.length + 1) ((name ++ spaces).length + 1)
  have htext : lead ++ byte :: (rest ++ (spaces ++ byteClose :: 0 :: back)) =
      lead ++ name ++ spaces ++ byteClose :: 0 :: back := by
    rw [hcons]
    simp
  have hcount : lead.length + ((name ++ spaces).length + 1) =
      (lead ++ name ++ spaces).length + 1 := by
    simp only [List.length_append]
    omega
  rw [htext, hcount] at hbegin
  have hbytes : front ++ byteOpen :: (lead ++ name ++ spaces ++ byteClose :: 0 :: back) =
      (front ++ byteOpen :: lead) ++ name ++ spaces ++ byteClose :: 0 :: back := by simp
  have hlen : (front ++ byteOpen :: lead).length = front.length + 1 + lead.length := by
    simp only [List.length_append, List.length_cons]
    omega
  have hend := trimEnd_text hname hne hspaces (front ++ byteOpen :: lead) (byteClose :: 0 :: back)
  have hgap : spaces ++ byteClose :: 0 :: back ≠ [] := by simp
  have hterm := terminate_gap (front ++ byteOpen :: lead ++ name) hgap
  rw [List.length_append, hlen, ← List.append_assoc] at hterm
  rw [hlen] at hend
  rw [Checked.parseDelimiter, Checked.decrement, except_bind_ok, drop_bracket, hbegin,
    except_bind_ok]
  simp only
  rw [Checked.decrement, except_bind_ok, hbytes, hend, except_bind_ok, hterm, except_bind_ok,
    hlen, List.append_assoc (front ++ byteOpen :: lead)]
  rfl

/-- Brackets around a name, or next to each other, stay inside of the line. -/
theorem parseDelimiter_stays (hline : inner <:+: line)
    (hle : front.length + inner.length + 1 ≤ line.length) (hname : inner ≠ [] → ¬ Blank inner)
    (back : List UInt8) :
    ∃ r, Checked.parseDelimiter (front ++ byteOpen :: (inner ++ byteClose :: 0 :: back))
      front.length (inner.length + 2) = .ok r ∧ r.Terminated line := by
  by_cases hnil : inner = []
  · subst hnil
    refine ⟨_, parseDelimiter_empty front back, fun index hindex => ?_⟩
    obtain rfl : index = (front ++ [byteOpen]).length := by simpa using hindex
    exact terminated_at hline (by simpa using hle) (0 :: back)
  · obtain ⟨lead, spaces, hshape, hlead, hspaces, htrim, hempty⟩ := trim_shape inner
    have hne : trim inner ≠ [] := by
      intro h
      apply hname hnil
      rw [hshape, h, hempty h, List.append_nil, List.append_nil]
      exact hlead
    generalize trim inner = name at hshape htrim hne
    subst hshape
    refine ⟨_, parseDelimiter_named hlead htrim hne hspaces front back, fun index hindex => ?_⟩
    obtain rfl : index = (front ++ byteOpen :: lead).length := by simpa using hindex
    have hinfix : name <:+: line := List.IsInfix.trans ⟨lead, spaces, rfl⟩ hline
    refine terminated_at hinfix ?_ _
    simp only [List.length_append, List.length_cons] at hle ⊢
    omega

/-- Nothing but white space in brackets takes the count below zero. -/
theorem parseDelimiter_faults (hne : inner ≠ []) (h : Blank inner) (front back : List UInt8)
    {r : LineResult} :
    Checked.parseDelimiter (front ++ byteOpen :: (inner ++ byteClose :: 0 :: back))
      front.length (inner.length + 2) ≠ .ok r := by
  have hclose : isSpace byteClose = false := by decide
  have hbegin := trimBeginning_blank h hclose (0 :: back) (front.length + 1) 1
  rw [Checked.parseDelimiter, Checked.decrement, except_bind_ok, drop_bracket, hbegin,
    except_bind_ok]
  simp only
  rw [Checked.decrement, except_bind_ok]
  obtain ⟨rest, space, rfl⟩ := (List.eq_nil_or_concat' inner).resolve_left hne
  have hspace : isSpace space = true := h space (by simp)
  have hread := byteAt_length (front ++ byteOpen :: rest) space (byteClose :: 0 :: back)
  have hbytes : front ++ byteOpen :: rest ++ space :: byteClose :: 0 :: back =
      front ++ byteOpen :: (rest ++ [space] ++ byteClose :: 0 :: back) := by simp
  have hindex : ((front.length + 1 + (rest ++ [space]).length : Nat) : Int) - 1 =
      ((front ++ byteOpen :: rest).length : Nat) := by
    simp only [List.length_append, List.length_cons, List.length_nil]
    omega
  rw [hbytes] at hread
  rw [Checked.trimEnd, hindex, hread, except_bind_ok, hspace]
  exact fun heq => by cases heq

/-- `strchr` finds the first occurrence in a string that ends inside of a text or behind it. -/
theorem strchr_text (byte : UInt8) (front text back : List UInt8) :
    (byte ∉ cString text →
      Checked.strchr byte (front ++ (text ++ 0 :: back)) front.length = .ok none) ∧
    (byte ∈ cString text → ∃ key after, text = key ++ byte :: after ∧ byte ∉ key ∧
      Checked.strchr byte (front ++ (text ++ 0 :: back)) front.length =
        .ok (some (front.length + key.length))) := by
  have hstring : cString (text ++ 0 :: back) = cString text := by
    induction text with
    | nil => rfl
    | cons b text ih =>
      simp only [cString, List.cons_append, List.takeWhile_cons] at ih ⊢
      rw [ih]
  rw [Checked.strchr, strchr, List.drop_left, if_pos (by simp), hstring]
  refine ⟨fun h => by rw [List.idxOf?_eq_none_iff.mpr h]; rfl, fun h => ?_⟩
  obtain ⟨hcut, hno⟩ := cut_at h
  obtain ⟨rest, hrest⟩ : ∃ rest, cString text ++ rest = text := List.takeWhile_prefix _
  generalize (cString text).takeWhile (· != byte) = key at hcut hno
  generalize ((cString text).dropWhile (· != byte)).tail = after at hcut
  rw [hcut] at hrest ⊢
  refine ⟨key, after ++ rest, by rw [← hrest, List.append_assoc, List.cons_append], hno, ?_⟩
  rw [idxOf_append_cons hno]
  rfl

/-- The end of a key is found behind its text. -/
theorem Checked.trimKey_text {name spaces : List UInt8} (hname : Trimmed name) (hne : name ≠ [])
    (hspaces : Blank spaces) (front back : List UInt8) :
    Checked.trimKey (front ++ name ++ spaces ++ back) front.length
      (front ++ name ++ spaces).length = .ok (front ++ name).length := by
  have hpos := List.length_pos_iff.mpr hne
  rw [Checked.trimKey]
  split
  · rename_i hone
    simp only [List.length_append] at hone ⊢
    congr 1
    omega
  · exact trimPreseparator_text hname hne hspaces front back

/-- A text is cut behind its key, and its value begins behind white space. -/
theorem parseValue_cut {name spaces second : List UInt8} (hname : Trimmed name) (hne : name ≠ [])
    (hspaces : Blank spaces) (back : List UInt8)
    (hindex : Checked.strchr byteSeparator
      (front ++ (name ++ spaces ++ byteSeparator :: second ++ 0 :: back)) front.length =
        .ok (some (front.length + (name ++ spaces).length))) :
    ∃ gap : List UInt8, gap.length = spaces.length ∧
      Checked.parseValue (front ++ (name ++ spaces ++ byteSeparator :: second ++ 0 :: back))
        front.length = .ok ⟨front ++ name ++ 0 :: gap ++ (second ++ 0 :: back), front.length,
          some ((front ++ name ++ 0 :: gap).length + (second.takeWhile isSpace).length),
          false⟩ := by
  have hend : front.length + (name ++ spaces).length = (front ++ name ++ spaces).length := by
    simp
  have hbytes : front ++ (name ++ spaces ++ byteSeparator :: second ++ 0 :: back) =
      front ++ name ++ spaces ++ byteSeparator :: (second ++ 0 :: back) := by simp
  have hterm := terminate_gap (front ++ name) (List.append_ne_nil_of_right_ne_nil spaces
    (List.cons_ne_nil byteSeparator (second ++ 0 :: back)))
  rw [← List.append_assoc] at hterm
  obtain ⟨gap, hgap, hlen⟩ : ∃ gap, (spaces ++ byteSeparator :: (second ++ 0 :: back)).tail =
      gap ++ (second ++ 0 :: back) ∧ gap.length = spaces.length := by
    cases spaces with
    | nil => exact ⟨[], rfl, rfl⟩
    | cons space spaces => exact ⟨spaces ++ [byteSeparator], by simp, by simp⟩
  have hcount : (front ++ name ++ spaces).length + 1 = (front ++ name ++ 0 :: gap).length := by
    simp only [List.length_append, List.length_cons]
    omega
  have hafter : front ++ name ++ 0 :: (gap ++ (second ++ 0 :: back)) =
      (front ++ name ++ 0 :: gap) ++ (second ++ 0 :: back) := by simp
  refine ⟨gap, hlen, ?_⟩
  rw [Checked.parseValue, hindex, except_bind_ok]
  simp only
  rw [hend, hbytes, Checked.trimKey_text hname hne hspaces, except_bind_ok, hterm,
    except_bind_ok, hcount, hgap, hafter, List.drop_left, trimSeparator_stops]
  rfl

/-- A value whose key begins with a byte of its own stays inside of the line. -/
theorem parseValue_stays (hspace : isSpace first = false) (hsep : first ≠ byteSeparator)
    (hline : first :: more <:+: line) (hle : front.length + (first :: more).length ≤ line.length)
    (back : List UInt8) :
    ∃ r, Checked.parseValue (front ++ (first :: more ++ 0 :: back)) front.length = .ok r ∧
      r.Terminated line := by
  obtain ⟨hnone, hsome⟩ := strchr_text byteSeparator front (first :: more) back
  by_cases hmem : byteSeparator ∈ cString (first :: more)
  · obtain ⟨key, second, hcut, hno, hindex⟩ := hsome hmem
    obtain ⟨keyRest, rfl⟩ : ∃ rest, key = first :: rest := by
      cases key with
      | nil => exact absurd (List.cons.inj hcut).1 hsep
      | cons b rest => exact ⟨rest, by rw [(List.cons.inj hcut).1]⟩
    obtain ⟨spaces, hshape, hspaces, htrim, hne⟩ := @trim_shape_cons first keyRest hspace
    generalize trim (first :: keyRest) = name at hshape htrim hne
    rw [hcut, hshape] at hindex hline hle ⊢
    obtain ⟨gap, hlen, hparse⟩ := parseValue_cut htrim hne hspaces back hindex
    refine ⟨_, hparse, fun index hindex => ?_⟩
    have hsplit := List.takeWhile_append_dropWhile (p := isSpace) (l := second)
    generalize second.takeWhile isSpace = lead at hsplit hindex
    generalize second.dropWhile isSpace = value at hsplit
    subst hsplit
    simp only [List.mem_cons, Option.toList_some, List.not_mem_nil, or_false] at hindex
    simp only [List.length_append, List.length_cons] at hle
    rcases hindex with rfl | hvalue
    · have hname : name <:+: line :=
        List.IsInfix.trans ⟨[], spaces ++ byteSeparator :: (lead ++ value), by simp⟩ hline
      have hinside : front.length ≤ line.length := by omega
      have hat := terminated_at hname hinside (gap ++ (lead ++ value ++ 0 :: back))
      simpa only [List.append_assoc, List.cons_append] using hat
    · have hindex : index = (front ++ name ++ 0 :: gap ++ lead).length :=
        hvalue.trans List.length_append.symm
      have hsecond : value <:+: line :=
        List.IsInfix.trans ⟨name ++ spaces ++ byteSeparator :: lead, [], by simp⟩ hline
      have hinside : (front ++ name ++ 0 :: gap ++ lead).length ≤ line.length := by
        simp only [List.length_append, List.length_cons]
        omega
      have hat := terminated_at hsecond hinside back
      rw [hindex]
      simpa only [List.append_assoc, List.cons_append] using hat
  · rw [Checked.parseValue, hnone hmem, except_bind_ok]
    refine ⟨_, rfl, fun index hindex => ?_⟩
    obtain rfl : index = front.length := by simpa using hindex
    exact terminated_at hline (by omega) back

/-- A separator at the beginning sends the pointer in front of the line. -/
theorem parseValue_faults (hfront : Blank front) (more back : List UInt8) {r : LineResult} :
    Checked.parseValue (front ++ (byteSeparator :: more ++ 0 :: back)) front.length ≠ .ok r := by
  have hindex : Checked.strchr byteSeparator (front ++ (byteSeparator :: more ++ 0 :: back))
      front.length = .ok (some front.length) := by
    rw [Checked.strchr, strchr, List.drop_left, if_pos (by simp), List.cons_append, cString,
      List.takeWhile_cons_of_pos (by decide), List.idxOf?_cons, if_pos (by simp)]
    rfl
  rw [Checked.parseValue, hindex, except_bind_ok]
  simp only [Checked.trimKey]
  rw [if_neg (by omega)]
  intro heq
  cases htrim : Checked.trimPreseparator (front ++ (byteSeparator :: more ++ 0 :: back))
      front.length with
  | error fault =>
    rw [htrim] at heq
    cases heq
  | ok last => exact trimPreseparator_blank hfront _ htrim

/-- The line is shortened to what precedes its comment. -/
theorem uncommented_shape (line : List UInt8) :
    (∃ comment, line = uncommented line ++ comment ∧
      ∀ byte rest, comment = byte :: rest → byte = byteComment) ∧
    ∃ position, Checked.strchr byteComment (line ++ [0]) 0 = .ok position ∧
      position.getD line.length = (uncommented line).length := by
  obtain ⟨hnone, hsome⟩ := strchr_text byteComment [] line []
  rw [List.nil_append, List.length_nil] at hnone hsome
  rw [uncommented]
  split
  · rename_i hmem
    obtain ⟨text, after, hline, hno, hindex⟩ := hsome hmem
    have htext : line.takeWhile (· != byteComment) = text := by
      rw [hline, List.takeWhile_append_of_pos fun b hb => by
        simpa using fun h : b = byteComment => hno (h ▸ hb)]
      simp
    rw [htext, hindex]
    refine ⟨⟨byteComment :: after, hline, ?_⟩, _, rfl, by simp⟩
    rintro byte rest ⟨⟩
    rfl
  · rename_i hmem
    rw [hnone hmem]
    exact ⟨⟨[], (List.append_nil line).symm, fun _ _ h => by cases h⟩, _, rfl, rfl⟩

/-- The content of a line is what is in the buffer after its trimming. -/
theorem Checked.daemonConfParseLine_content {indent content trail comment : List UInt8}
    (hindent : Blank indent) (htrail : Blank trail) (hcontent : Trimmed content)
    (hne : content ≠ []) (huncommented : uncommented line = indent ++ content ++ trail)
    (hline : line = uncommented line ++ comment) :
    ∃ back, Checked.daemonConfParseLine line =
      (do
        let bytes := indent ++ (content ++ 0 :: back)
        if ← Checked.delimits bytes indent.length content.length then
          Checked.parseDelimiter bytes indent.length content.length
        else Checked.parseValue bytes indent.length) := by
  obtain ⟨first, rest, hcons⟩ := List.exists_cons_of_ne_nil hne
  have hfirst : isSpace first = false := hcontent.head first rest hcons
  have hbytes : line ++ [0] = indent ++ content ++ trail ++ (comment ++ [0]) := by
    rw [← huncommented, ← List.append_assoc, ← hline]
  have hlength : (uncommented line).length = indent.length + (content ++ trail).length := by
    rw [huncommented, List.append_assoc, List.length_append]
  have hbegin := trimBeginning_blank hindent hfirst (rest ++ trail ++ (comment ++ [0])) 0
    (content ++ trail).length
  have hshape : indent ++ first :: (rest ++ trail ++ (comment ++ [0])) =
      indent ++ content ++ trail ++ (comment ++ [0]) := by
    rw [hcons]
    simp
  rw [hshape, Nat.zero_add] at hbegin
  have hgap : trail ++ (comment ++ [0]) ≠ [] := by simp
  have hterm := terminate_gap (indent ++ content) hgap
  rw [← List.append_assoc, List.length_append] at hterm
  refine ⟨(trail ++ (comment ++ [0])).tail, ?_⟩
  obtain ⟨-, position, hposition, hshortened⟩ := uncommented_shape line
  rw [Checked.daemonConfParseLine, hposition, except_bind_ok, hshortened, hlength]
  simp only
  rw [hbytes, hbegin, except_bind_ok]
  simp only
  rw [trimEnd_text hcontent hne htrail, except_bind_ok, hterm, except_bind_ok,
    List.append_assoc indent content]

/-- Without content, the trimming loops take the count below zero or leave the line. -/
theorem Checked.daemonConfParseLine_blank (h : Blank (uncommented line)) {r : LineResult} :
    Checked.daemonConfParseLine line ≠ .ok r := by
  obtain ⟨⟨comment, hline, hcomment⟩, position, hposition, hlength⟩ := uncommented_shape line
  obtain ⟨byte, rest, hrest, hbyte⟩ : ∃ byte rest, comment ++ [0] = byte :: rest ∧
      isSpace byte = false := by
    cases comment with
    | nil => exact ⟨0, [], rfl, by decide⟩
    | cons byte rest =>
      rw [hcomment byte rest rfl]
      exact ⟨byteComment, rest ++ [0], rfl, by decide⟩
  have hbytes : line ++ [0] = uncommented line ++ byte :: rest := by
    rw [← hrest, ← List.append_assoc, ← hline]
  have hbegin := trimBeginning_blank h hbyte rest 0 0
  rw [Nat.zero_add, Nat.add_zero] at hbegin
  rw [Checked.daemonConfParseLine, hposition, except_bind_ok, hlength]
  simp only
  rw [hbytes, hbegin, except_bind_ok]
  simp only
  intro heq
  cases htrim : Checked.trimEnd (uncommented line ++ byte :: rest) (uncommented line).length 0 with
  | error fault =>
    rw [htrim] at heq
    cases heq
  | ok length => exact trimEnd_blank h _ htrim

/-- Brackets around a content are seen. -/
theorem delimits_brackets (front inner back : List UInt8) :
    Checked.delimits (front ++ (byteOpen :: (inner ++ [byteClose]) ++ 0 :: back)) front.length
      (byteOpen :: (inner ++ [byteClose])).length = .ok true := by
  have hopen := byteAt_length front byteOpen (inner ++ [byteClose] ++ 0 :: back)
  have hclose := byteAt_length (front ++ byteOpen :: inner) byteClose (0 :: back)
  have hbytes : front ++ byteOpen :: inner ++ byteClose :: 0 :: back =
      front ++ (byteOpen :: (inner ++ [byteClose]) ++ 0 :: back) := by simp
  have hindex : ((front.length : Nat) : Int) + ((byteOpen :: (inner ++ [byteClose])).length : Nat) -
      1 = ((front ++ byteOpen :: inner).length : Nat) := by
    simp only [List.length_append, List.length_cons, List.length_nil]
    omega
  rw [hbytes] at hclose
  rw [Checked.delimits, List.cons_append, hopen, except_bind_ok, if_pos rfl, hindex,
    ← List.cons_append, hclose]
  rfl

/-- A content is no section delimiter without its brackets. -/
theorem delimits_text (hne : content ≠ [])
    (h : ∀ inner, content ≠ byteOpen :: (inner ++ [byteClose])) (front back : List UInt8) :
    Checked.delimits (front ++ (content ++ 0 :: back)) front.length content.length =
      .ok false := by
  obtain ⟨first, more, rfl⟩ := List.exists_cons_of_ne_nil hne
  have hfirst := byteAt_length front first (more ++ 0 :: back)
  rw [Checked.delimits, List.cons_append, hfirst, except_bind_ok]
  by_cases hopen : first = byteOpen
  · obtain ⟨rest, last, hlast⟩ := (List.eq_nil_or_concat' (first :: more)).resolve_left hne
    have hread := byteAt_length (front ++ rest) last (0 :: back)
    have hbytes : front ++ rest ++ last :: 0 :: back = front ++ first :: (more ++ 0 :: back) := by
      rw [← List.cons_append, hlast]
      simp
    have hindex : ((front.length : Nat) : Int) + ((first :: more).length : Nat) - 1 =
        ((front ++ rest).length : Nat) := by
      rw [hlast]
      simp only [List.length_append, List.length_cons, List.length_nil]
      omega
    have hclose : last ≠ byteClose := by
      rintro rfl
      cases rest with
      | nil =>
        rw [hopen] at hlast
        exact absurd (List.cons.inj hlast).1 (by decide)
      | cons b rest => exact h rest (by rw [hlast, ← hopen, (List.cons.inj hlast).1]; rfl)
    rw [hbytes] at hread
    rw [if_pos hopen, hindex, hread]
    simp [hclose]
  · rw [if_neg hopen]
    rfl

/-- A line with content is trimmed to it, and what is left is parsed. -/
theorem Checked.daemonConfParseLine_trim (hcontent : trim (uncommented line) = content)
    (hne : content ≠ []) :
    ¬ Blank (uncommented line) ∧ content <:+: line ∧ ∃ indent back, Blank indent ∧
      indent.length + content.length ≤ line.length ∧
      Checked.daemonConfParseLine line =
        (do
          let bytes := indent ++ (content ++ 0 :: back)
          if ← Checked.delimits bytes indent.length content.length then
            Checked.parseDelimiter bytes indent.length content.length
          else Checked.parseValue bytes indent.length) := by
  obtain ⟨⟨comment, hline, -⟩, -⟩ := uncommented_shape line
  obtain ⟨indent, trail, hshape, hindent, htrail, htrim, -⟩ := trim_shape (uncommented line)
  rw [hcontent] at hshape htrim
  obtain ⟨back, hparse⟩ := Checked.daemonConfParseLine_content hindent htrail htrim hne hshape hline
  have hwhole : line = indent ++ content ++ (trail ++ comment) := by
    rw [← List.append_assoc, ← hshape]
    exact hline
  refine ⟨fun hblank => ?_, ⟨indent, trail ++ comment, hwhole.symm⟩, indent, back, hindent, ?_,
    hparse⟩
  · obtain ⟨first, more, rfl⟩ := List.exists_cons_of_ne_nil hne
    have hspace := hblank first (by rw [hshape]; simp)
    rw [htrim.head first more rfl] at hspace
    cases hspace
  · have hlength := congrArg List.length hwhole
    simp only [List.length_append] at hlength
    omega

/-- A section delimiter stays inside of the line with a name, or without any byte. -/
theorem staysInside_delimiter
    (hcontent : trim (uncommented line) = byteOpen :: (inner ++ [byteClose])) :
    StaysInside line ↔ (inner ≠ [] → ¬ Blank inner) := by
  obtain ⟨-, hinfix, indent, back, -, hsize, hparse⟩ :=
    Checked.daemonConfParseLine_trim hcontent (List.cons_ne_nil _ _)
  have hbytes : indent ++ (byteOpen :: (inner ++ [byteClose]) ++ 0 :: back) =
      indent ++ byteOpen :: (inner ++ byteClose :: 0 :: back) := by simp
  have hlength : (byteOpen :: (inner ++ [byteClose])).length = inner.length + 2 := by simp
  simp only at hparse
  rw [delimits_brackets, except_bind_ok, if_pos rfl, hbytes, hlength] at hparse
  constructor
  · rintro ⟨r, hr, -⟩ hne hblank
    rw [hparse] at hr
    exact absurd hr (parseDelimiter_faults hne hblank indent back)
  · intro hname
    rw [hlength] at hsize
    have hinner : inner <:+: line := List.IsInfix.trans ⟨[byteOpen], [byteClose], rfl⟩ hinfix
    have hbound : indent.length + inner.length + 1 ≤ line.length := by omega
    obtain ⟨r, hr, hterminated⟩ := parseDelimiter_stays hinner hbound hname back
    exact ⟨r, hparse.trans hr, hterminated⟩

/-- Another content stays inside of the line when it does not begin with a separator. -/
theorem staysInside_text (hcontent : trim (uncommented line) = first :: more)
    (hno : ∀ inner, first :: more ≠ byteOpen :: (inner ++ [byteClose])) :
    StaysInside line ↔ first ≠ byteSeparator := by
  have hne : first :: more ≠ [] := List.cons_ne_nil first more
  obtain ⟨-, hinfix, indent, back, hindent, hsize, hparse⟩ :=
    Checked.daemonConfParseLine_trim hcontent hne
  simp only at hparse
  rw [delimits_text hne hno, except_bind_ok, if_neg Bool.false_ne_true] at hparse
  constructor
  · rintro ⟨r, hr, -⟩ rfl
    rw [hparse] at hr
    exact absurd hr (parseValue_faults hindent more back)
  · intro hsep
    obtain ⟨-, -, -, -, -, htrim, -⟩ := trim_shape (uncommented line)
    rw [hcontent] at htrim
    obtain ⟨r, hr, hterminated⟩ :=
      parseValue_stays (htrim.head first more rfl) hsep hinfix hsize back
    exact ⟨r, hparse.trans hr, hterminated⟩

end Branches

/-- The parsing of a line stays inside of it exactly when the line has content, which does
not begin with a separator and is not a pair of brackets around mere white space. -/
theorem staysInside_iff (line : List UInt8) : StaysInside line ↔ Confined line := by
  cases hcontent : trim (uncommented line) with
  | nil =>
    obtain ⟨indent, trail, hshape, hindent, -, -, hnil⟩ := trim_shape (uncommented line)
    have hblank : Blank (uncommented line) := by
      rw [hshape, hcontent, hnil hcontent, List.append_nil, List.append_nil]
      exact hindent
    exact ⟨fun ⟨r, hr, _⟩ => absurd hr (Checked.daemonConfParseLine_blank hblank),
      fun h => absurd hblank h.content⟩
  | cons first more =>
    obtain ⟨hfilled, -⟩ := Checked.daemonConfParseLine_trim hcontent (List.cons_ne_nil first more)
    by_cases hdelimits : ∃ inner, first :: more = byteOpen :: (inner ++ [byteClose])
    · -- a section delimiter, which begins with no separator
      obtain ⟨inner, hinner⟩ := hdelimits
      rw [hinner] at hcontent
      rw [staysInside_delimiter hcontent]
      refine ⟨fun hname => ⟨hfilled, ?_, fun other h => ?_⟩, fun h => h.delimiter inner hcontent⟩
      · rw [hcontent]
        simp [byteOpen, byteSeparator]
      · rw [hcontent] at h
        obtain rfl : inner = other := (List.append_left_inj _).mp (List.cons.inj h).2
        exact hname
    · -- a key, or a whole value
      have hno : ∀ inner, first :: more ≠ byteOpen :: (inner ++ [byteClose]) :=
        fun inner h => hdelimits ⟨inner, h⟩
      rw [staysInside_text hcontent hno]
      refine ⟨fun hsep => ⟨hfilled, ?_, fun inner h => ?_⟩, fun h hsep => ?_⟩
      · rw [hcontent]
        simpa using hsep
      · exact absurd (hcontent.symm.trans h) (hno inner)
      · exact h.separator (by rw [hcontent, hsep]; rfl)

/-- A line whose parsing faults. -/
theorem not_staysInside_of_fault {line : List UInt8}
    (h : (Checked.daemonConfParseLine line).toOption = none) : ¬ StaysInside line := by
  rintro ⟨r, hr, -⟩
  rw [hr] at h
  cases h

/-- The parsing leaves a line of white space, an indented comment, a comment, a leading
separator or brackets around white space, each of them a line of `getline(3)`. -/
theorem staysInside_fails :
    getlines (ascii " \n  # indented\n# comment\n=value\n[ ]\n") =
      [ascii " \n", ascii "  # indented\n", ascii "# comment\n", ascii "=value\n",
        ascii "[ ]\n"] ∧
    ¬ StaysInside (ascii " \n") ∧ ¬ StaysInside (ascii "  # indented\n") ∧
    ¬ StaysInside (ascii "# comment\n") ∧ ¬ StaysInside (ascii "=value\n") ∧
    ¬ StaysInside (ascii "[ ]\n") :=
  ⟨by decide, not_staysInside_of_fault (by decide), not_staysInside_of_fault (by decide),
    not_staysInside_of_fault (by decide), not_staysInside_of_fault (by decide),
    not_staysInside_of_fault (by decide)⟩

/-- A line that its parsing stays inside of is read alike whatever precedes its buffer. -/
theorem StaysInside.read {line : List UInt8} (h : StaysInside line) :
    ∃ parsed, ∀ before, daemonConfParseLine before line = .ok parsed := by
  obtain ⟨r, hr, -⟩ := h
  exact ⟨r.parsed, fun before => Checked.daemonConfParseLine_refines before hr⟩

end Cyberd
