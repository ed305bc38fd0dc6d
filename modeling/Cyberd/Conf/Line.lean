import Cyberd.Conf.Values

/-!
# The lines of a daemon configuration

`daemon_conf_parse_line` trims and cuts a line inside of the buffer of `getline`.
Positions are indices of this buffer: `first` for the moving `line`, and `last` for
`line + length`. The trimming loops also look at the byte in front of the buffer,
which is a parameter: it may be out of bounds, and nothing is known before it.
-/

namespace Cyberd

open Library

/-- The byte `'#'`. -/
def byteComment : UInt8 := 35

/-- The byte `'='`. -/
def byteSeparator : UInt8 := 61

/-- The byte `'['`. -/
def byteOpen : UInt8 := 91

/-- The byte `']'`. -/
def byteClose : UInt8 := 93

/-- The byte `'\n'`. -/
def byteNewline : UInt8 := 10

/-- `strchr(3)` from an index on, giving an index. -/
def strchr (byte : UInt8) (bytes : List UInt8) (start : Nat) : Option Nat :=
  ((cString (bytes.drop start)).idxOf? byte).map (start + ·)

/-- The loops over white space with an increasing pointer, on the bytes from it on. -/
def trimForward : List UInt8 → Nat → Except Trap Nat
  | [], _ => .error .outOfBounds
  | byte :: rest, position => if isSpace byte then trimForward rest (position + 1) else .ok position

/-- The loops over white space with a decreasing length, on the bytes before it. -/
def trimBackward (before : Option UInt8) (bytes : List UInt8) : Nat → Except Trap Nat
  | 0 =>
    match before with
    | none => .error .outOfBounds
    | some byte => if isSpace byte then .error .outOfBounds else .ok 0
  | position + 1 =>
    match bytes[position]? with
    | none => .error .outOfBounds
    | some byte => if isSpace byte then trimBackward before bytes position else .ok (position + 1)

/-- The store of a terminating byte. -/
def terminate (bytes : List UInt8) (position : Nat) : Except Trap (List UInt8) :=
  if position < bytes.length then .ok (bytes.set position 0) else .error .outOfBounds

/-- What `daemon_conf_parse_line` returns, with its outputs. -/
inductive ParsedLine
  /-- Zero, a section delimiter. -/
  | delimiter (key : Name)
  /-- Non-zero, a scalar or associative value. -/
  | value (key : Name) (value : Option Name)
  deriving DecidableEq, Repr

/-- The section delimiter branch. -/
def parseDelimiter (before : Option UInt8) (bytes : List UInt8) (first last : Nat) :
    Except Trap ParsedLine := do
  let first ← trimForward (bytes.drop (first + 1)) (first + 1)
  let last ← trimBackward before bytes (last - 1)
  let bytes ← terminate bytes last
  return .delimiter (cString (bytes.drop first))

/-- The trimming of the end of a key, up to `preseparator + 1`. -/
def trimKey (before : Option UInt8) (bytes : List UInt8) (first separator : Nat) :
    Except Trap Nat :=
  if separator = first + 1 then .ok separator else trimBackward before bytes separator

/-- The scalar or associative value branch. -/
def parseValue (before : Option UInt8) (bytes : List UInt8) (first : Nat) :
    Except Trap ParsedLine :=
  match strchr byteSeparator bytes first with
  | none => .ok (.value (cString (bytes.drop first)) none)
  | some separator => do
    let last ← trimKey before bytes first separator
    let bytes ← terminate bytes last
    let second ← trimForward (bytes.drop (separator + 1)) (separator + 1)
    return .value (cString (bytes.drop first)) (some (cString (bytes.drop second)))

/-- `daemon_conf_parse_line` on a line of `getline`, with its newline if there is one. -/
def daemonConfParseLine (before : Option UInt8) (line : List UInt8) : Except Trap ParsedLine := do
  let bytes := line ++ [0]
  let first ← trimForward bytes 0
  let last ← trimBackward before bytes ((strchr byteComment bytes 0).getD line.length)
  let bytes ← terminate bytes last
  if bytes[first]? = some byteOpen ∧ bytes[last - 1]? = some byteClose then
    parseDelimiter before bytes first last
  else parseValue before bytes first

/-- The lines `getline(3)` reads from a file. -/
def getlines : List UInt8 → List (List UInt8)
  | [] => []
  | byte :: rest =>
    if byte = byteNewline then [byte] :: getlines rest
    else
      match getlines rest with
      | [] => [[byte]]
      | line :: lines => (byte :: line) :: lines

/-- The loop of `daemon_conf_parse`, from the line with this number on. The values are
handed to their parsers by `hand`, the section is none when it is not valid. -/
def parseLines {σ : Type} (host : Host) (before : Nat → Option UInt8)
    (hand : σ → ConfSection → Name → Option Name → ValueParser → σ) :
    Nat → List (List UInt8) → Option ConfSection → σ → Except Trap σ
  | _, [], _, state => .ok state
  | number, line :: lines, sec, state => do
    match ← daemonConfParseLine (before number) line with
    | .delimiter key => parseLines host before hand (number + 1) lines (findSection key) state
    | .value key value =>
      match sec with
      | none => parseLines host before hand (number + 1) lines sec state
      | some current =>
        if key = [] then parseLines host before hand (number + 1) lines sec state
        else
          match findParser host current key with
          | none => parseLines host before hand (number + 1) lines sec state
          | some parse =>
            parseLines host before hand (number + 1) lines sec (hand state current key value parse)

/-- `section->values[i].parse(conf, key, value)`, the error being logged only. -/
def parseHanded (conf : DaemonConf) (_ : ConfSection) (key : Name) (value : Option Name)
    (parse : ValueParser) : DaemonConf :=
  (parse conf key value).2

/-- `daemon_conf_parse`, the status and the record. -/
def daemonConfParse (host : Host) (before : Nat → Option UInt8) (conf : DaemonConf)
    (file : List UInt8) : Except Trap (Int × DaemonConf) := do
  let conf ← parseLines host before parseHanded 0 (getlines file) (some .general) conf
  return if conf.path = none then (-1, conf) else (0, conf)

/-- A section, a key and a value given to a value parser. -/
structure HandedValue where
  /-- The section of the line. -/
  sec : ConfSection
  /-- The key, or the scalar value. -/
  key : Name
  /-- The associated value. -/
  value : Option Name
  deriving DecidableEq, Repr

/-- The list of handed values instead of their effect. -/
def listHanded (handed : List HandedValue) (sec : ConfSection) (key : Name) (value : Option Name)
    (_ : ValueParser) : List HandedValue :=
  handed ++ [⟨sec, key, value⟩]

/-- The values that `daemon_conf_parse` hands to the value parsers, in order. -/
def handedValues (host : Host) (before : Nat → Option UInt8) (file : List UInt8) :
    Except Trap (List HandedValue) :=
  parseLines host before listHanded 0 (getlines file) (some .general) []

/-- The effect of a handed value on the record. -/
def HandedValue.parse (host : Host) (conf : DaemonConf) (handed : HandedValue) : DaemonConf :=
  match findParser host handed.sec handed.key with
  | none => conf
  | some parse => (parse conf handed.key handed.value).2

/-- A line of a file is read first. -/
theorem getlines_body {body : List UInt8} (h : byteNewline ∉ body) (rest : List UInt8) :
    getlines (body ++ byteNewline :: rest) = (body ++ [byteNewline]) :: getlines rest := by
  induction body with
  | nil => rw [List.nil_append, getlines, if_pos rfl]; rfl
  | cons byte body ih =>
    rw [List.mem_cons, not_or] at h
    rw [List.cons_append, getlines, if_neg (Ne.symm h.1), ih h.2]
    rfl

/-- Handing the values to their parsers at once, or listing them first, is the same. -/
theorem parseLines_parse (host : Host) (before : Nat → Option UInt8) (number : Nat)
    (lines : List (List UInt8)) (sec : Option ConfSection) (handed : List HandedValue)
    (conf : DaemonConf) :
    parseLines host before parseHanded number lines sec
        (handed.foldl (HandedValue.parse host) conf) =
      (parseLines host before listHanded number lines sec handed).map fun handed =>
        handed.foldl (HandedValue.parse host) conf := by
  induction lines generalizing number sec handed with
  | nil => rfl
  | cons line lines ih =>
    rw [parseLines, parseLines]
    cases daemonConfParseLine (before number) line with
    | error trap => rfl
    | ok parsed =>
      simp only [except_bind_ok]
      cases parsed with
      | delimiter key => exact ih _ _ _
      | value key value =>
        cases sec with
        | none => exact ih _ _ _
        | some current =>
          simp only
          split
          · exact ih _ _ _
          · cases hparse : findParser host current key with
            | none => exact ih _ _ _
            | some parse =>
              have hnext : parseHanded (handed.foldl (HandedValue.parse host) conf) current key
                  value parse = (listHanded handed current key value parse).foldl
                    (HandedValue.parse host) conf := by
                simp [listHanded, parseHanded, HandedValue.parse, hparse]
              simp only
              rw [hnext]
              exact ih _ _ _

/-- The record is made by the values that are handed to the value parsers. -/
theorem daemonConfParse_eq (host : Host) (before : Nat → Option UInt8) (conf : DaemonConf)
    (file : List UInt8) :
    daemonConfParse host before conf file = (handedValues host before file).map fun handed =>
      let conf := handed.foldl (HandedValue.parse host) conf
      if conf.path = none then (-1, conf) else (0, conf) := by
  have h := parseLines_parse host before 0 (getlines file) (some .general) [] conf
  rw [List.foldl_nil] at h
  rw [daemonConfParse, h]
  change _ = (parseLines host before listHanded 0 (getlines file) (some .general) []).map _
  cases parseLines host before listHanded 0 (getlines file) (some .general) [] with
  | error trap => rfl
  | ok handed => rfl

/-- Values that are handed to their parsers make a record. -/
theorem daemonConfParse_handed {host : Host} {before : Nat → Option UInt8} {file : List UInt8}
    {values : List HandedValue} (h : handedValues host before file = .ok values)
    (conf : DaemonConf) :
    ∃ status, daemonConfParse host before conf file =
      .ok (status, values.foldl (HandedValue.parse host) conf) := by
  rw [daemonConfParse_eq, h]
  simp only [Except.map]
  split
  · exact ⟨_, rfl⟩
  · exact ⟨_, rfl⟩

/-- The record that is read from a file. -/
theorem daemonConfParse_ok {host : Host} {before : Nat → Option UInt8} {conf final : DaemonConf}
    {file : List UInt8} {values : List HandedValue} {status : Int}
    (hvalues : handedValues host before file = .ok values)
    (h : daemonConfParse host before conf file = .ok (status, final)) :
    final = values.foldl (HandedValue.parse host) conf := by
  obtain ⟨status', hfinal⟩ := daemonConfParse_handed hvalues conf
  rw [hfinal] at h
  exact (Prod.mk.inj (Except.ok.inj h)).2.symm

end Cyberd
