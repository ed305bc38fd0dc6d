import Cyberd.Conf.Reading
import Cyberd.Library.Outcome

/-!
# Accesses of the line buffer

Every index of `daemon_conf_parse_line` stays between the beginning of the line and its
terminating byte, except for the trimming loops that go down to the byte before the
buffer. When this byte stops them, a file of any contents is read to its end.
-/

namespace Cyberd

open Library

/-- An access in front of a line buffer, that its byte before does not stop. -/
def LeavesBuffer (before : Option UInt8) (trap : Trap) : Prop :=
  trap = .outOfBounds ∧ ¬ StopsBefore before

/-- The buffer of a line of this length, up to its terminating byte. -/
structure LineBuffer (bytes : List UInt8) (length : Nat) : Prop where
  /-- The terminating byte is the last one. -/
  length_eq : bytes.length = length + 1
  /-- It is null. -/
  last : bytes[length]? = some 0

variable {bytes : List UInt8} {length : Nat} {before : Option UInt8}

/-- A line with its terminating byte. -/
theorem lineBuffer_append (line : List UInt8) : LineBuffer (line ++ [0]) line.length :=
  ⟨by simp, by simp⟩

/-- A trimming loop with an increasing pointer stops at the terminating byte. -/
theorem trimForward_stops {text : List UInt8} (h : (0 : UInt8) ∈ text) (position : Nat) :
    ∃ p, trimForward text position = .ok p ∧ p < position + text.length := by
  induction text generalizing position with
  | nil => cases h
  | cons byte text ih =>
    rw [trimForward]
    split
    · rename_i hspace
      have hne : byte ≠ 0 := by
        rintro rfl
        exact absurd hspace (by decide)
      obtain ⟨p, hp, hlt⟩ := ih ((List.mem_cons.mp h).resolve_left hne.symm) (position + 1)
      refine ⟨p, hp, ?_⟩
      rw [List.length_cons]
      omega
    · exact ⟨position, rfl, by simp⟩

/-- The increasing loops of a line stop inside of its buffer. -/
theorem LineBuffer.trimForward (hb : LineBuffer bytes length) {position : Nat}
    (h : position ≤ length) :
    ∃ p, trimForward (bytes.drop position) position = .ok p ∧ p ≤ length := by
  have hmem : (0 : UInt8) ∈ bytes.drop position := by
    refine List.mem_of_getElem? (i := length - position) ?_
    rw [List.getElem?_drop, Nat.add_sub_cancel' h, hb.last]
  obtain ⟨p, hp, hlt⟩ := trimForward_stops hmem position
  rw [List.length_drop, hb.length_eq] at hlt
  exact ⟨p, hp, by omega⟩

/-- The decreasing loops of a line stop inside of its buffer, or leave it at its front. -/
theorem LineBuffer.trimBackward (hb : LineBuffer bytes length) {position : Nat}
    (h : position ≤ length) :
    Outcome (LeavesBuffer before) (· ≤ length) (trimBackward before bytes position) := by
  induction position with
  | zero =>
    cases before with
    | none => exact ⟨rfl, by simp [StopsBefore]⟩
    | some byte =>
      rw [Cyberd.trimBackward]
      cases hspace : isSpace byte <;> simp [LeavesBuffer, StopsBefore, hspace]
  | succ position ih =>
    rw [Cyberd.trimBackward, List.getElem?_eq_getElem (by rw [hb.length_eq]; omega)]
    simp only
    split
    · exact ih (by omega)
    · exact h

/-- A store inside of the buffer keeps its terminating byte. -/
theorem LineBuffer.terminate (hb : LineBuffer bytes length) {position : Nat}
    (h : position ≤ length) :
    ∃ bytes', terminate bytes position = .ok bytes' ∧ LineBuffer bytes' length := by
  have hlt : position < bytes.length := by rw [hb.length_eq]; omega
  refine ⟨bytes.set position 0, if_pos hlt, ⟨by rw [List.length_set, hb.length_eq], ?_⟩⟩
  by_cases hp : position = length
  · rw [hp, List.getElem?_set_self (by omega)]
  · rw [List.getElem?_set_ne hp, hb.last]

/-- A byte found in a line is in front of its terminating byte. -/
theorem LineBuffer.strchr (hb : LineBuffer bytes length) {byte : UInt8} (hne : byte ≠ 0)
    {start position : Nat} (h : strchr byte bytes start = some position) : position < length := by
  obtain ⟨i, hi, rfl⟩ := Option.map_eq_some_iff.mp h
  have hmem : (cString (bytes.drop start))[i]? = some byte := by
    obtain ⟨hlt, hget, -⟩ := List.idxOf?_eq_some_iff.mp hi
    rw [List.getElem?_eq_getElem hlt]
    simpa using hget
  have hget : bytes[start + i]? = some byte := by
    rw [← List.getElem?_drop]
    obtain ⟨rest, hrest⟩ := List.takeWhile_prefix (· != 0) (l := bytes.drop start)
    rw [← hrest]
    exact (List.getElem?_append_left (List.getElem?_eq_some_iff.mp hmem).1).trans hmem
  have hlt : start + i < bytes.length := (List.getElem?_eq_some_iff.mp hget).1
  have hnot : start + i ≠ length := by
    intro heq
    rw [heq, hb.last] at hget
    exact hne (Option.some.inj hget).symm
  rw [hb.length_eq] at hlt
  omega

/-- The outcome of a section delimiter. -/
theorem LineBuffer.parseDelimiter (hb : LineBuffer bytes length) {first last : Nat}
    (hfirst : first < length) (hlast : last ≤ length) :
    Outcome (LeavesBuffer before) (fun _ => True) (parseDelimiter before bytes first last) := by
  obtain ⟨p, hp, -⟩ := hb.trimForward (Nat.succ_le_of_lt hfirst)
  rw [Cyberd.parseDelimiter, hp, except_bind_ok]
  refine (hb.trimBackward (by omega)).bind fun last hle => ?_
  obtain ⟨bytes', hterm, -⟩ := hb.terminate hle
  rw [hterm, except_bind_ok]
  trivial

/-- The outcome of a scalar or associative value. -/
theorem LineBuffer.parseValue (hb : LineBuffer bytes length) (first : Nat) :
    Outcome (LeavesBuffer before) (fun _ => True) (parseValue before bytes first) := by
  rw [Cyberd.parseValue]
  cases hsep : Cyberd.strchr byteSeparator bytes first with
  | none => trivial
  | some separator =>
    have hlt := hb.strchr (by decide) hsep
    have hkey : Outcome (LeavesBuffer before) (· ≤ length)
        (trimKey before bytes first separator) := by
      rw [trimKey]
      split
      · exact hlt.le
      · exact hb.trimBackward hlt.le
    refine hkey.bind fun last hle => ?_
    obtain ⟨bytes', hterm, hb'⟩ := hb.terminate hle
    obtain ⟨p, hp, -⟩ := hb'.trimForward (Nat.succ_le_of_lt hlt)
    rw [hterm, except_bind_ok, hp, except_bind_ok]
    trivial

/-- A line is parsed, unless its trimming leaves the buffer at its front. -/
theorem daemonConfParseLine_outcome (before : Option UInt8) (line : List UInt8) :
    Outcome (LeavesBuffer before) (fun _ => True) (daemonConfParseLine before line) := by
  have hb := lineBuffer_append line
  obtain ⟨first, hfirst, hle⟩ := hb.trimForward (Nat.zero_le _)
  rw [List.drop_zero] at hfirst
  have hend : (strchr byteComment (line ++ [0]) 0).getD line.length ≤ line.length := by
    cases hcomment : strchr byteComment (line ++ [0]) 0 with
    | none => exact le_rfl
    | some position => exact (hb.strchr (by decide) hcomment).le
  simp only [daemonConfParseLine]
  rw [hfirst, except_bind_ok]
  refine (hb.trimBackward hend).bind fun last hlast => ?_
  obtain ⟨bytes, hterm, hb'⟩ := hb.terminate hlast
  rw [hterm, except_bind_ok]
  split
  · rename_i hopen
    refine hb'.parseDelimiter (lt_of_le_of_ne hle ?_) hlast
    rintro rfl
    rw [hb'.last] at hopen
    exact absurd hopen.1 (by decide)
  · exact hb'.parseValue first

/-- A file is read to its end, unless a trimming leaves a line buffer at its front. -/
theorem daemonConfParse_outcome (host : Host) (before : Nat → Option UInt8) (conf : DaemonConf)
    (file : List UInt8) :
    Outcome (fun trap => ∃ number, LeavesBuffer (before number) trap) (fun _ => True)
      (daemonConfParse host before conf file) := by
  have hlines : ∀ (lines : List (List UInt8)) (number : Nat) (sec : Option ConfSection)
      (conf : DaemonConf), Outcome (fun trap => ∃ number, LeavesBuffer (before number) trap)
        (fun _ => True) (parseLines host before parseHanded number lines sec conf) := by
    intro lines
    induction lines with
    | nil => intros; trivial
    | cons line lines ih =>
      intro number sec conf
      rw [parseLines]
      refine ((daemonConfParseLine_outcome (before number) line).mono (fun _ h => h)
        fun _ h => ⟨number, h⟩).bind fun parsed _ => ?_
      cases parsed with
      | delimiter key => exact ih _ _ _
      | value key value =>
        cases sec with
        | none => exact ih _ _ _
        | some current =>
          simp only
          split
          · exact ih _ _ _
          · split <;> exact ih _ _ _
  exact (hlines _ _ _ _).bind fun _ _ => trivial

end Cyberd
