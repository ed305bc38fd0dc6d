import Cyberd.Conf.Reading

/-!
# The indices of a line

`daemon_conf_parse_line` once more, with the pointer `line` and the count `length` that
it has, and with each of its accesses and decrements checked: none of the bytes in front
of the line or behind its terminating byte is touched, and the count stays above zero.
-/

namespace Cyberd

open Library

/-- How the parsing of a line goes wrong. -/
inductive LineFault
  /-- An access outside of the line and its terminating byte. -/
  | index
  /-- The count `length` is decremented below zero. -/
  | length
  deriving DecidableEq, Repr

/-- What `daemon_conf_parse_line` leaves and returns. -/
structure LineResult where
  /-- The buffer of the line. -/
  bytes : List UInt8
  /-- The index of `*keyp`. -/
  key : Nat
  /-- The index of `*valuep`. -/
  value : Option Nat
  /-- A section delimiter, for which it returns zero. -/
  delimiter : Bool
  deriving DecidableEq, Repr

/-- The strings that are returned. -/
def LineResult.parsed (r : LineResult) : ParsedLine :=
  if r.delimiter then .delimiter (cString (r.bytes.drop r.key))
  else .value (cString (r.bytes.drop r.key)) (r.value.map fun v => cString (r.bytes.drop v))

namespace Checked

/-- A read of the byte at an index. -/
def byteAt (bytes : List UInt8) (index : Int) : Except LineFault UInt8 :=
  if index < 0 then .error .index
  else
    match bytes[index.toNat]? with
    | none => .error .index
    | some byte => .ok byte

/-- A write of the terminating byte. -/
def terminate (bytes : List UInt8) (position : Nat) : Except LineFault (List UInt8) :=
  if position < bytes.length then .ok (bytes.set position 0) else .error .index

/-- `strchr(3)`, which reads up to a terminating byte. -/
def strchr (byte : UInt8) (bytes : List UInt8) (start : Nat) : Except LineFault (Option Nat) :=
  if 0 ∈ bytes.drop start then .ok (Cyberd.strchr byte bytes start) else .error .index

/-- `length--` -/
def decrement : Nat → Except LineFault Nat
  | 0 => .error .length
  | length + 1 => .ok length

/-- `while (isspace(*line)) { length--; line++; }`, on the bytes from `line` on. -/
def trimBeginning : List UInt8 → Nat → Nat → Except LineFault (Nat × Nat)
  | [], _, _ => .error .index
  | byte :: rest, line, length =>
    if isSpace byte then do trimBeginning rest (line + 1) (← decrement length)
    else .ok (line, length)

/-- `while (isspace(line[length - 1])) length--;` -/
def trimEnd (bytes : List UInt8) (line : Nat) : Nat → Except LineFault Nat
  | 0 => do if isSpace (← byteAt bytes ((line : Int) - 1)) then decrement 0 else .ok 0
  | length + 1 => do
    if isSpace (← byteAt bytes (line + length : Nat)) then trimEnd bytes line length
    else .ok (length + 1)

/-- `while (isspace(*preseparator)) preseparator--;`, from and to `preseparator + 1`. -/
def trimPreseparator (bytes : List UInt8) : Nat → Except LineFault Nat
  | 0 => .error .index
  | position + 1 => do
    if isSpace (← byteAt bytes (position : Nat)) then trimPreseparator bytes position
    else .ok (position + 1)

/-- `while (isspace(*separator)) separator++;`, on the bytes from `separator` on. -/
def trimSeparator : List UInt8 → Nat → Except LineFault Nat
  | [], _ => .error .index
  | byte :: rest, position =>
    if isSpace byte then trimSeparator rest (position + 1) else .ok position

/-- The section delimiter branch. -/
def parseDelimiter (bytes : List UInt8) (line length : Nat) : Except LineFault LineResult := do
  let length ← decrement length
  let (line, length) ← trimBeginning (bytes.drop (line + 1)) (line + 1) length
  let length ← decrement length
  let length ← trimEnd bytes line length
  let bytes ← terminate bytes (line + length)
  return ⟨bytes, line, none, true⟩

/-- The trimming of the end of a key, to `preseparator + 1`. -/
def trimKey (bytes : List UInt8) (line separator : Nat) : Except LineFault Nat :=
  if separator = line + 1 then .ok separator else trimPreseparator bytes separator

/-- The scalar or associative value branch. -/
def parseValue (bytes : List UInt8) (line : Nat) : Except LineFault LineResult := do
  match ← strchr byteSeparator bytes line with
  | none => return ⟨bytes, line, none, false⟩
  | some separator =>
    let last ← trimKey bytes line separator
    let bytes ← terminate bytes last
    let value ← trimSeparator (bytes.drop (separator + 1)) (separator + 1)
    return ⟨bytes, line, some value, false⟩

/-- `*line == '[' && line[length - 1] == ']'` -/
def delimits (bytes : List UInt8) (line length : Nat) : Except LineFault Bool := do
  if (← byteAt bytes (line : Nat)) = byteOpen then
    return (← byteAt bytes ((line : Int) + length - 1)) = byteClose
  else return false

/-- `daemon_conf_parse_line` on a line of `getline`. -/
def daemonConfParseLine (line : List UInt8) : Except LineFault LineResult := do
  let bytes := line ++ [0]
  let comment ← strchr byteComment bytes 0
  let (first, length) ← trimBeginning bytes 0 (comment.getD line.length)
  let length ← trimEnd bytes first length
  let bytes ← terminate bytes (first + length)
  if ← delimits bytes first length then parseDelimiter bytes first length
  else parseValue bytes first

end Checked

section Refinement

variable {bytes : List UInt8} {line length position : Nat}

/-- A checked access reads the byte at its index. -/
theorem byteAt_eq_ok {index : Nat} {byte : UInt8}
    (h : Checked.byteAt bytes (index : Nat) = .ok byte) : bytes[index]? = some byte := by
  rw [Checked.byteAt, if_neg (by omega), Int.toNat_natCast] at h
  cases hget : bytes[index]? with
  | none =>
    rw [hget] at h
    cases h
  | some b =>
    rw [hget] at h
    exact congrArg some (Except.ok.inj h)

/-- The index in front of a position is not negative. -/
theorem byteAt_pred_eq_ok {byte : UInt8} (h : Checked.byteAt bytes ((position : Int) - 1) =
    .ok byte) : ∃ index, position = index + 1 ∧ bytes[index]? = some byte := by
  cases position with
  | zero => cases h
  | succ index =>
    have hindex : ((index + 1 : Nat) : Int) - 1 = (index : Nat) := by omega
    rw [hindex] at h
    exact ⟨index, rfl, byteAt_eq_ok h⟩

theorem decrement_eq_ok {n : Nat} (h : Checked.decrement length = .ok n) : length = n + 1 := by
  cases length with
  | zero => cases h
  | succ m => rw [Except.ok.inj h]

/-- The pointer that is moved forward keeps the end of the line. -/
theorem trimBeginning_refines {text : List UInt8} {line' length' : Nat}
    (h : Checked.trimBeginning text line length = .ok (line', length')) :
    trimForward text line = .ok line' ∧ line' + length' = line + length := by
  induction text generalizing line length with
  | nil => cases h
  | cons byte text ih =>
    rw [Checked.trimBeginning] at h
    rw [trimForward]
    split
    · rename_i hspace
      rw [if_pos hspace] at h
      obtain ⟨n, hn, hrest⟩ := except_bind_eq_ok.mp h
      obtain ⟨hforward, hsum⟩ := ih hrest
      have hlength := decrement_eq_ok hn
      exact ⟨hforward, by omega⟩
    · rename_i hspace
      rw [if_neg hspace] at h
      cases h
      exact ⟨rfl, rfl⟩

/-- The end of the line is moved back to a byte that is not white space. -/
theorem trimEnd_refines (before : Option UInt8) {length' : Nat}
    (h : Checked.trimEnd bytes line length = .ok length') :
    trimBackward before bytes (line + length) = .ok (line + length') := by
  induction length with
  | zero =>
    rw [Checked.trimEnd] at h
    obtain ⟨byte, hbyte, hrest⟩ := except_bind_eq_ok.mp h
    obtain ⟨index, rfl, hget⟩ := byteAt_pred_eq_ok hbyte
    cases hspace : isSpace byte with
    | true =>
      rw [hspace, if_pos rfl] at hrest
      cases hrest
    | false =>
      rw [hspace, if_neg Bool.false_ne_true] at hrest
      cases hrest
      rw [Nat.add_zero, trimBackward, hget]
      simp [hspace]
  | succ n ih =>
    rw [Checked.trimEnd] at h
    obtain ⟨byte, hbyte, hrest⟩ := except_bind_eq_ok.mp h
    have hget := byteAt_eq_ok hbyte
    rw [← Nat.add_assoc, trimBackward, hget]
    cases hspace : isSpace byte with
    | true =>
      rw [hspace, if_pos rfl] at hrest
      simp only [if_pos hspace]
      exact ih hrest
    | false =>
      rw [hspace, if_neg Bool.false_ne_true] at hrest
      cases hrest
      simp [hspace, Nat.add_assoc]

/-- The end of a key is the same. -/
theorem trimPreseparator_refines (before : Option UInt8) {last : Nat}
    (h : Checked.trimPreseparator bytes position = .ok last) :
    trimBackward before bytes position = .ok last := by
  induction position with
  | zero => cases h
  | succ n ih =>
    rw [Checked.trimPreseparator] at h
    obtain ⟨byte, hbyte, hrest⟩ := except_bind_eq_ok.mp h
    rw [trimBackward, byteAt_eq_ok hbyte]
    cases hspace : isSpace byte with
    | true =>
      rw [hspace, if_pos rfl] at hrest
      simp only [if_pos hspace]
      exact ih hrest
    | false =>
      rw [hspace, if_neg Bool.false_ne_true] at hrest
      cases hrest
      simp [hspace]

/-- The beginning of a value is the same. -/
theorem trimSeparator_refines {text : List UInt8} {value : Nat}
    (h : Checked.trimSeparator text position = .ok value) :
    trimForward text position = .ok value := by
  induction text generalizing position with
  | nil => cases h
  | cons byte text ih =>
    rw [Checked.trimSeparator] at h
    rw [trimForward]
    split
    · rename_i hspace
      rw [if_pos hspace] at h
      exact ih h
    · rename_i hspace
      rw [if_neg hspace] at h
      cases h
      rfl

theorem strchr_refines {byte : UInt8} {found : Option Nat}
    (h : Checked.strchr byte bytes position = .ok found) : strchr byte bytes position = found := by
  rw [Checked.strchr] at h
  split at h
  · exact Except.ok.inj h
  · cases h

theorem terminate_refines {bytes' : List UInt8}
    (h : Checked.terminate bytes position = .ok bytes') :
    terminate bytes position = .ok bytes' := by
  rw [Checked.terminate] at h
  rw [terminate]
  split
  · rename_i hlt
    rw [if_pos hlt] at h
    rw [Except.ok.inj h]
  · rename_i hge
    rw [if_neg hge] at h
    cases h

/-- A key or a value that is cut inside of the line is the one that is read. -/
theorem parseValue_refines (before : Option UInt8) {r : LineResult}
    (h : Checked.parseValue bytes line = .ok r) : parseValue before bytes line = .ok r.parsed := by
  rw [Checked.parseValue] at h
  obtain ⟨found, hfound, hrest⟩ := except_bind_eq_ok.mp h
  rw [parseValue, strchr_refines hfound]
  cases found with
  | none =>
    cases hrest
    rfl
  | some separator =>
    simp only at hrest ⊢
    obtain ⟨last, hlast, hrest⟩ := except_bind_eq_ok.mp hrest
    obtain ⟨bytes', hbytes, hrest⟩ := except_bind_eq_ok.mp hrest
    obtain ⟨value, hvalue, hrest⟩ := except_bind_eq_ok.mp hrest
    have hkey : trimKey before bytes line separator = .ok last := by
      rw [Checked.trimKey] at hlast
      rw [trimKey]
      split
      · rename_i hone
        rw [if_pos hone] at hlast
        rw [Except.ok.inj hlast]
      · rename_i hone
        rw [if_neg hone] at hlast
        exact trimPreseparator_refines before hlast
    cases hrest
    rw [hkey, except_bind_ok, terminate_refines hbytes, except_bind_ok,
      trimSeparator_refines hvalue]
    rfl

/-- A section name that is cut inside of the line is the one that is read. -/
theorem parseDelimiter_refines (before : Option UInt8) {r : LineResult}
    (h : Checked.parseDelimiter bytes line length = .ok r) :
    parseDelimiter before bytes line (line + length) = .ok r.parsed := by
  rw [Checked.parseDelimiter] at h
  obtain ⟨shortened, hshortened, hrest⟩ := except_bind_eq_ok.mp h
  obtain ⟨⟨first, left⟩, hfirst, hrest⟩ := except_bind_eq_ok.mp hrest
  obtain ⟨hforward, hsum⟩ := trimBeginning_refines hfirst
  simp only at hrest
  obtain ⟨inside, hinside, hrest⟩ := except_bind_eq_ok.mp hrest
  obtain ⟨last, hlast, hrest⟩ := except_bind_eq_ok.mp hrest
  obtain ⟨bytes', hbytes, hrest⟩ := except_bind_eq_ok.mp hrest
  cases hrest
  have hend : line + length - 1 = first + inside := by
    have hlength := decrement_eq_ok hshortened
    have hleft := decrement_eq_ok hinside
    omega
  rw [parseDelimiter, hforward, except_bind_ok, hend, trimEnd_refines before hlast,
    except_bind_ok, terminate_refines hbytes]
  rfl

/-- What `daemon_conf_parse_line` makes of a line that it stays inside of is what is read. -/
theorem Checked.daemonConfParseLine_refines (before : Option UInt8) {text : List UInt8}
    {r : LineResult} (h : Checked.daemonConfParseLine text = .ok r) :
    Cyberd.daemonConfParseLine before text = .ok r.parsed := by
  rw [Checked.daemonConfParseLine] at h
  obtain ⟨comment, hcomment, h⟩ := except_bind_eq_ok.mp h
  obtain ⟨⟨first, left⟩, hfirst, h⟩ := except_bind_eq_ok.mp h
  obtain ⟨hforward, hsum⟩ := trimBeginning_refines hfirst
  simp only at h
  obtain ⟨length, hlength, h⟩ := except_bind_eq_ok.mp h
  obtain ⟨bytes, hbytes, h⟩ := except_bind_eq_ok.mp h
  obtain ⟨delimits, hdelimits, h⟩ := except_bind_eq_ok.mp h
  have hend := trimEnd_refines before hlength
  rw [hsum, Nat.zero_add] at hend
  have hbrackets : (bytes[first]? = some byteOpen ∧ bytes[first + length - 1]? = some byteClose) ↔
      delimits = true := by
    rw [Checked.delimits] at hdelimits
    obtain ⟨byte, hbyte, hdelimits⟩ := except_bind_eq_ok.mp hdelimits
    rw [byteAt_eq_ok hbyte]
    split at hdelimits
    · rename_i hopen
      obtain ⟨last, hlast, hdelimits⟩ := except_bind_eq_ok.mp hdelimits
      have hindex : (first : Int) + length - 1 = ((first + length : Nat) : Int) - 1 := by omega
      rw [hindex] at hlast
      obtain ⟨index, heq, hget⟩ := byteAt_pred_eq_ok hlast
      cases hdelimits
      rw [heq, Nat.add_sub_cancel, hget]
      simp [hopen]
    · rename_i hopen
      cases hdelimits
      simp [hopen]
  rw [Cyberd.daemonConfParseLine, strchr_refines hcomment, hforward, except_bind_ok, hend,
    except_bind_ok, terminate_refines hbytes, except_bind_ok]
  split
  · rename_i hopen
    rw [if_pos (hbrackets.mp hopen)] at h
    exact parseDelimiter_refines before h
  · rename_i hopen
    rw [if_neg (fun htrue => hopen (hbrackets.mpr htrue))] at h
    exact parseValue_refines before h

end Refinement

end Cyberd
