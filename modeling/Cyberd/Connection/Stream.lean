import Cyberd.Connection.CapabilityWord
import Cyberd.Connection.Chunking

/-!
# The requests of a stream

A stream is a sequence of requests, up to the byte at which the parser gives up or the one
at which the stream ends. What the reader makes of a request, and where a run goes on
behind it, is said by its shape.
-/

namespace Cyberd

open Library

/-- The commands that are followed by the name of a daemon. -/
def daemonCommands : List Capset :=
  [capabilityDaemonStart, capabilityDaemonStop, capabilityDaemonReload, capabilityDaemonEnd]

section

variable (platform : Platform) (capabilities : Capset)

/-- The connection may send this command, and `parser_feed_command` has a case for it. -/
def TakesCommand (byte : UInt8) : Prop :=
  capsetHas capabilities (platform.byteCapability byte) = true ∧
    (platform.byteCapability byte = capabilityEndpointCreate ∨
      platform.byteCapability byte ∈ daemonCommands ∨
      isSystemByte platform capabilities byte = true)

/-- The bytes before a name. -/
inductive NameHeader : List UInt8 → Prop
  /-- A command to a daemon. -/
  | daemon {byte : UInt8} (has : capsetHas capabilities (platform.byteCapability byte) = true)
      (command : platform.byteCapability byte ∈ daemonCommands) : NameHeader [byte]
  /-- The command to create an endpoint, and the word of its capabilities. -/
  | endpoint {byte : UInt8} {word : List UInt8}
      (has : capsetHas capabilities (platform.byteCapability byte) = true)
      (command : platform.byteCapability byte = capabilityEndpointCreate)
      (size : word.length = 4) : NameHeader (byte :: word)

/-- A request with all of its bytes. -/
inductive CompleteRequest : List UInt8 → Prop
  /-- A system command. -/
  | system {byte : UInt8} (command : isSystemByte platform capabilities byte = true) :
      CompleteRequest [byte]
  /-- A command with its name, up to its null byte. -/
  | named {header name : List UInt8} (before : NameHeader platform capabilities header)
      (first : (0 : UInt8) ∉ name) (taken : ¬ NameRejected [] (name ++ [0])) :
      CompleteRequest (header ++ (name ++ [0]))

/-- At the start of these bytes is something for which the parser gives up. -/
inductive GivesUp : List UInt8 → Prop
  /-- A command that it does not take. -/
  | command {byte : UInt8} {rest : List UInt8}
      (denied : ¬ TakesCommand platform capabilities byte) : GivesUp (byte :: rest)
  /-- A name that is rejected once its null byte is found. -/
  | rejected {header name : List UInt8} (before : NameHeader platform capabilities header)
      (ended : (0 : UInt8) ∈ name) (rejected : NameRejected [] name) : GivesUp (header ++ name)

/-- The request of an endpoint of this name is complete and nothing is created. -/
def CreatesNothing (header name : List UInt8) : Prop :=
  ∃ byte word, header = byte :: word ∧
    platform.byteCapability byte = capabilityEndpointCreate ∧
    (capabilities &&& platform.ntohl (wordOf word) = 0 ∨ name = [] ∨ name.head? = some byteDot)

/-- These bytes ask for nothing, and the parser does not give up in them. -/
inductive AsksNothing : List UInt8 → Prop
  /-- There are none. -/
  | nil : AsksNothing []
  /-- The word of the capabilities is not complete. -/
  | begun {byte : UInt8} {word : List UInt8}
      (has : capsetHas capabilities (platform.byteCapability byte) = true)
      (command : platform.byteCapability byte = capabilityEndpointCreate)
      (short : word.length < 4) : AsksNothing (byte :: word)
  /-- The null byte of the name is missing. -/
  | pending {header name : List UInt8} (before : NameHeader platform capabilities header)
      (missing : (0 : UInt8) ∉ name) : AsksNothing (header ++ name)
  /-- An endpoint that is not created. -/
  | refused {header name rest : List UInt8} (before : NameHeader platform capabilities header)
      (first : (0 : UInt8) ∉ name) (taken : ¬ NameRejected [] (name ++ [0]))
      (nothing : CreatesNothing platform capabilities header name) (silent : AsksNothing rest) :
      AsksNothing (header ++ (name ++ 0 :: rest))

end

variable {platform : Platform} {capabilities : Capset} {parser : Parser}

/-- A parser that expects a command of its connection. -/
structure Parser.Expects (capabilities : Capset) (parser : Parser) : Prop where
  state : parser.state = .command
  set : parser.capabilities = capabilities

/-- A parser that expects the name behind a header. -/
structure Parser.ExpectsName (platform : Platform) (capabilities : Capset) (header : List UInt8)
    (parser : Parser) : Prop where
  state : parser.state.isName = true
  name : parser.name = []
  set : parser.capabilities = capabilities
  /-- Which names ask for nothing. -/
  completed : ∀ name, (0 : UInt8) ∉ name →
    ((parser.longer (name ++ [0])).completed = [] ↔
      CreatesNothing platform capabilities header name)

/-- The commands of daemons are neither the one of endpoints nor system commands. -/
theorem daemonCommands_ne {capability : Capset} (h : capability ∈ daemonCommands) :
    capability ≠ capabilityEndpointCreate ∧
      [capabilitySystemPoweroff, capabilitySystemHalt, capabilitySystemReboot,
        capabilitySystemSuspend].contains capability = false := by
  revert h
  simp only [daemonCommands, List.mem_cons, List.not_mem_nil, or_false]
  rintro (rfl | rfl | rfl | rfl) <;> decide

/-- A header begins with a byte that is no system command. -/
theorem NameHeader.head {header : List UInt8} (h : NameHeader platform capabilities header) :
    ∃ byte rest, header = byte :: rest ∧ TakesCommand platform capabilities byte ∧
      isSystemByte platform capabilities byte = false := by
  cases h with
  | @daemon byte has command =>
    refine ⟨byte, [], rfl, ⟨has, Or.inr (Or.inl command)⟩, ?_⟩
    rw [isSystemByte, (daemonCommands_ne command).2, Bool.and_false]
  | @endpoint byte word has command size =>
    refine ⟨byte, word, rfl, ⟨has, Or.inl command⟩, ?_⟩
    rw [isSystemByte, command]
    exact Bool.and_false _

/-- What comes with a command that is taken. -/
theorem TakesCommand.cases {byte : UInt8} (h : TakesCommand platform capabilities byte)
    (rest : List UInt8) :
    isSystemByte platform capabilities byte = true ∨
    (∃ header name, header ++ name = byte :: rest ∧ NameHeader platform capabilities header) ∨
    (capsetHas capabilities (platform.byteCapability byte) = true ∧
      platform.byteCapability byte = capabilityEndpointCreate ∧ rest.length < 4) := by
  obtain ⟨has, hcreate | hdaemon | hsystem⟩ := h
  · by_cases hshort : rest.length < 4
    · exact Or.inr (Or.inr ⟨has, hcreate, hshort⟩)
    · refine Or.inr (Or.inl ⟨byte :: rest.take 4, rest.drop 4, ?_, .endpoint has hcreate ?_⟩)
      · rw [List.cons_append, List.take_append_drop]
      · rw [List.length_take]
        omega
  · exact Or.inr (Or.inl ⟨[byte], rest, rfl, .daemon has hdaemon⟩)
  · exact Or.inl hsystem

/-- A command to a daemon has its name come next. -/
theorem parserFeedCommand_daemon {capability : Capset}
    (has : capsetHas parser.capabilities capability = true)
    (command : capability ∈ daemonCommands) :
    ∃ state : ParserState, state.isName = true ∧ state ≠ .endpointCreateName ∧
      parserFeedCommand parser capability =
        .ok ({ parser with state := state, name := [] }, []) := by
  unfold parserFeedCommand
  rw [if_pos has]
  clear has
  simp only [daemonCommands, List.mem_cons, List.not_mem_nil, or_false] at command
  rcases command with rfl | rfl | rfl | rfl
  · exact ⟨.daemonStartName, rfl, by decide, rfl⟩
  · exact ⟨.daemonStopName, rfl, by decide, rfl⟩
  · exact ⟨.daemonReloadName, rfl, by decide, rfl⟩
  · exact ⟨.daemonEndName, rfl, by decide, rfl⟩

/-- A command that is not taken has the parser give up. -/
theorem parserFeedCommand_denied {byte : UInt8} (hp : parser.Expects capabilities)
    (h : ¬ TakesCommand platform capabilities byte) :
    parserFeedCommand parser (platform.byteCapability byte) =
        .ok ({ parser with state := .invalid }, []) ∨
      parserFeedCommand parser (platform.byteCapability byte) = .error .abort := by
  rw [← hp.set] at h
  unfold parserFeedCommand
  by_cases has : capsetHas parser.capabilities (platform.byteCapability byte) = true
  · right
    rw [TakesCommand, isSystemByte, has, Bool.true_and, daemonCommands] at h
    simp only [true_and, List.mem_cons, List.not_mem_nil, or_false, List.contains_eq_mem,
      decide_eq_true_eq, not_or] at h
    obtain ⟨h0, ⟨h1, h2, h3, h4⟩, h5, h6, h7, h8⟩ := h
    rw [if_pos has, if_neg h0, if_neg h1, if_neg h2, if_neg h3, if_neg h4, if_neg h5, if_neg h6,
      if_neg h7, if_neg h8]
  · exact Or.inl (if_neg has)

/-- A name of a daemon always asks for something. -/
theorem Parser.completed_ne_nil (hname : parser.state.isName = true)
    (hne : parser.state ≠ .endpointCreateName) : parser.completed ≠ [] := by
  unfold Parser.completed
  cases hs : parser.state
  case endpointCreateName => exact absurd hs hne
  case daemonStartName => exact List.cons_ne_nil _ _
  case daemonStopName => exact List.cons_ne_nil _ _
  case daemonReloadName => exact List.cons_ne_nil _ _
  case daemonEndName => exact List.cons_ne_nil _ _
  all_goals
    rw [hs] at hname
    cases hname

/-- When the name of an endpoint asks for nothing. -/
theorem Parser.completed_endpoint (hs : parser.state = .endpointCreateName) :
    parser.completed = [] ↔ parser.capabilities &&& parser.requested = 0 ∨
      cString parser.name = [] ∨ (cString parser.name).head? = some byteDot := by
  rw [Parser.completed, hs]
  simp only [ite_eq_right_iff, List.cons_ne_nil, imp_false, ne_eq]
  tauto

/-- The reader goes on behind these bytes, and a run on more bytes does so too. -/
structure Passes (platform : Platform) (loose : Bool) (parser : Parser) (bytes : List UInt8)
    (loose' : Bool) (parser' : Parser) (asked : List Action) : Prop where
  reading : ∀ actions, (⟨parser, actions, none⟩ : Reading).bytes platform bytes =
    ⟨parser', actions ++ asked, none⟩
  inside : ∀ back, staysInside platform 0 loose parser (bytes ++ back) =
    staysInside platform 0 loose' parser' back

/-- No bytes are passed. -/
theorem Passes.refl (platform : Platform) (loose : Bool) (parser : Parser) :
    Passes platform loose parser [] loose parser [] :=
  ⟨fun actions => by rw [List.append_nil]; rfl, fun _ => rfl⟩

/-- Bytes that are passed one after the other. -/
theorem Passes.append {loose loose' loose'' : Bool} {p p' p'' : Parser} {front back : List UInt8}
    {asked asked' : List Action} (h : Passes platform loose p front loose' p' asked)
    (h' : Passes platform loose' p' back loose'' p'' asked') :
    Passes platform loose p (front ++ back) loose'' p'' (asked ++ asked') := by
  constructor
  · intro actions
    rw [Reading.bytes_append, h.reading, h'.reading, List.append_assoc]
  · intro bytes
    rw [List.append_assoc, h.inside, h'.inside]

/-- A system command is passed. -/
theorem passes_system {byte : UInt8} (hp : parser.Expects capabilities)
    (h : isSystemByte platform capabilities byte = true) (loose : Bool) :
    ∃ howto, Passes platform loose parser [byte] loose parser [.queueReboot howto] := by
  rw [← hp.set] at h
  obtain ⟨howto, -, hcmd⟩ := parserFeedCommand_system platform h
  refine ⟨howto, ?_, ?_⟩
  · intro actions
    simp [Reading.bytes, Reading.byte, hp.state, hcmd]
  · intro back
    rw [List.singleton_append, staysInside, hp.state]
    simp only [hcmd]

/-- System commands are passed. -/
theorem passes_systems {system : List UInt8} (hp : parser.Expects capabilities)
    (h : ∀ byte ∈ system, isSystemByte platform capabilities byte = true) (loose : Bool) :
    ∃ asked, Passes platform loose parser system loose parser asked := by
  induction system with
  | nil => exact ⟨[], .refl platform loose parser⟩
  | cons byte system ih =>
    rw [List.forall_mem_cons] at h
    obtain ⟨howto, hfirst⟩ := passes_system hp h.1 loose
    obtain ⟨asked, hrest⟩ := ih h.2
    exact ⟨.queueReboot howto :: asked, hfirst.append hrest⟩

/-- The bytes before a name are passed. -/
theorem NameHeader.passes {header : List UInt8} (h : NameHeader platform capabilities header)
    (hp : parser.Expects capabilities) (loose : Bool) :
    ∃ parser', parser'.ExpectsName platform capabilities header ∧
      Passes platform loose parser header loose parser' [] := by
  cases h with
  | @daemon byte has command =>
    rw [← hp.set] at has
    obtain ⟨state, hname, hne, hcmd⟩ := parserFeedCommand_daemon has command
    refine ⟨{ parser with state := state, name := [] }, ⟨hname, rfl, hp.set, ?_⟩, ⟨?_, ?_⟩⟩
    · intro name hnul
      refine iff_of_false (Parser.completed_ne_nil hname hne) ?_
      · rintro ⟨byte', word, heq, hcommand, -⟩
        cases heq
        exact (daemonCommands_ne command).1 hcommand
    · intro actions
      simp [Reading.bytes, Reading.byte, hp.state, hcmd]
    · intro bytes
      rw [List.singleton_append, staysInside, hp.state]
      simp only [hcmd]
  | @endpoint byte word has command size =>
    have hcmd : parserFeedCommand parser (platform.byteCapability byte) =
        .ok ({ parser with state := .endpointCreateCapabilities, word := 0, size := 0 }, []) := by
      rw [parserFeedCommand, hp.set, if_pos has, if_pos command]
    obtain ⟨a, b, c, d, rfl⟩ := List.length_eq_four.mp size
    refine ⟨{ parser with
      state := .endpointCreateName, word := wordOf [a, b, c, d], size := 4,
      requested := platform.ntohl (wordOf [a, b, c, d]), name := [] },
      ⟨rfl, rfl, hp.set, ?_⟩, ⟨?_, ?_⟩⟩
    · intro name hnul
      have hstring : cString (name ++ [0]) = name := cString_append hnul []
      rw [Parser.completed_endpoint rfl]
      simp only [Parser.longer, List.nil_append, hstring, hp.set]
      constructor
      · exact fun hnothing => ⟨byte, [a, b, c, d], rfl, command, hnothing⟩
      · rintro ⟨byte', word', heq, -, hnothing⟩
        cases heq
        exact hnothing
    · intro actions
      simp [Reading.bytes, Reading.byte, hp.state, hcmd, parserFeedCapability, wordOf]
    · intro bytes
      simp only [List.cons_append, staysInside, hp.state, hcmd, parserFeedCapability, wordOf]
      rfl

/-- Whether a name is rejected is seen up to its null byte. -/
theorem nameRejected_first {pending name : List UInt8} (hnul : (0 : UInt8) ∉ name)
    (rest : List UInt8) :
    NameRejected pending (name ++ 0 :: rest) ↔ NameRejected pending (name ++ [0]) := by
  have htake : ∀ rest : List UInt8, (name ++ 0 :: rest).take (name.length + 1) = name ++ [0] := by
    intro rest
    rw [List.take_append, List.take_of_length_le (Nat.le_succ _), Nat.add_sub_cancel_left,
      List.take_succ_cons, List.take_zero]
  rw [NameRejected, NameRejected, fragmentLength_of_first hnul, fragmentLength_of_first hnul,
    htake, htake]

/-- A name that is taken is passed with its null byte, and the run no longer ends with its
bytes. -/
theorem Parser.ExpectsName.passes {header name : List UInt8}
    (hp : parser.ExpectsName platform capabilities header) (hnul : (0 : UInt8) ∉ name)
    (taken : ¬ NameRejected [] (name ++ [0])) (loose : Bool) :
    ∃ parser', parser'.Expects capabilities ∧
      Passes platform loose parser (name ++ [0]) true parser'
        (parser.longer (name ++ [0])).completed := by
  have hmem : (0 : UInt8) ∈ name ++ [0] := List.mem_append_right _ List.mem_cons_self
  have hlen := fragmentLength_of_first hnul []
  have htake : (name ++ [0]).take (fragmentLength (name ++ [0])) = name ++ [0] := by
    rw [hlen, List.take_of_length_le (by simp)]
  refine ⟨{ parser.longer (name ++ [0]) with state := .command }, ⟨rfl, hp.set⟩, ⟨?_, ?_⟩⟩
  · intro actions
    have hread := (@Reading.bytes_named platform ⟨parser, actions, none⟩ (name ++ [0]) hp.state
      rfl hmem (by rw [hp.name]; exact taken)).1
    rw [htake] at hread
    exact hread
  · intro back
    rw [List.append_assoc, List.singleton_append,
      staysInside_name hp.state (List.append_ne_nil_of_right_ne_nil _ (List.cons_ne_nil _ _)),
      if_pos (by simp), hp.name, fragmentLength_of_first hnul,
      decide_eq_false ((nameRejected_first hnul back).not.mpr taken), Bool.false_or]
    have hsplit : name ++ 0 :: back = (name ++ [0]) ++ back := by simp
    have hlen' : name.length + 1 = (name ++ [0]).length := by simp
    rw [hsplit, hlen', List.take_left, List.drop_left]

/-- A complete request is passed where the end of the bytes no longer ends the run. -/
theorem CompleteRequest.passes {request : List UInt8}
    (h : CompleteRequest platform capabilities request) (hp : parser.Expects capabilities) :
    ∃ parser' asked, parser'.Expects capabilities ∧
      Passes platform true parser request true parser' asked := by
  cases h with
  | system command =>
    obtain ⟨howto, hpasses⟩ := passes_system hp command true
    exact ⟨parser, [.queueReboot howto], hp, hpasses⟩
  | named before first taken =>
    obtain ⟨parser', hp', hheader⟩ := before.passes hp true
    obtain ⟨parser'', hp'', hname⟩ := hp'.passes first taken true
    exact ⟨parser'', _, hp'', hheader.append hname⟩

/-- Complete requests are passed one after the other. -/
theorem passes_requests {requests : List (List UInt8)}
    (h : ∀ request ∈ requests, CompleteRequest platform capabilities request)
    (hp : parser.Expects capabilities) :
    ∃ parser' asked, parser'.Expects capabilities ∧
      Passes platform true parser requests.flatten true parser' asked := by
  induction requests generalizing parser with
  | nil => exact ⟨parser, [], hp, .refl platform true parser⟩
  | cons request requests ih =>
    rw [List.forall_mem_cons] at h
    obtain ⟨parser', asked, hp', hfirst⟩ := h.1.passes hp
    obtain ⟨parser'', asked', hp'', hrest⟩ := ih h.2 hp'
    rw [List.flatten_cons]
    exact ⟨parser'', asked ++ asked', hp'', hfirst.append hrest⟩

/-- A run stays inside of bytes in which the parser gives up. -/
theorem GivesUp.inside {bytes : List UInt8} (h : GivesUp platform capabilities bytes)
    (hp : parser.Expects capabilities) (loose : Bool) :
    staysInside platform 0 loose parser bytes = true := by
  cases h with
  | @command byte rest denied =>
    rw [staysInside, hp.state]
    rcases parserFeedCommand_denied hp denied with hcmd | hcmd
    · simp only [hcmd]
      exact staysInside_invalid rfl rest
    · simp only [hcmd]
  | @rejected header name before ended rejected =>
    obtain ⟨parser', hp', hpasses⟩ := before.passes hp loose
    rw [hpasses.inside, staysInside_name hp'.state (List.ne_nil_of_mem ended), if_pos ended,
      hp'.name, decide_eq_true rejected, Bool.true_or]

/-- Bytes of a capability word that they do not complete are passed. -/
theorem passes_word {word : List UInt8} (hs : parser.state = .endpointCreateCapabilities)
    (hsize : parser.size + word.length < 4) (loose : Bool) :
    ∃ parser', parser'.state = .endpointCreateCapabilities ∧
      Passes platform loose parser word loose parser' [] := by
  induction word generalizing parser with
  | nil => exact ⟨parser, hs, .refl platform loose parser⟩
  | cons byte word ih =>
    rw [List.length_cons] at hsize
    have hne : parser.size + 1 ≠ 4 := by omega
    have hstep : parserFeedCapability platform parser byte =
        { parser with
          word := (parser.word <<< (8 : UInt32)) ||| byte.toUInt32, size := parser.size + 1 } :=
      if_neg hne
    have hbyte : Passes platform loose parser [byte] loose
        (parserFeedCapability platform parser byte) [] := by
      constructor
      · intro actions
        simp [Reading.bytes, Reading.byte, hs]
      · intro back
        rw [List.singleton_append, staysInside, hs]
    obtain ⟨parser', hs', hrest⟩ := @ih (parserFeedCapability platform parser byte)
      (by rw [hstep]; exact hs) (by rw [hstep]; simp only; omega)
    exact ⟨parser', hs', hbyte.append hrest⟩

/-- The bytes of a request to create an endpoint are passed up to the capability word. -/
theorem passes_begun {byte : UInt8} {word : List UInt8} (hp : parser.Expects capabilities)
    (has : capsetHas capabilities (platform.byteCapability byte) = true)
    (command : platform.byteCapability byte = capabilityEndpointCreate)
    (short : word.length < 4) (loose : Bool) :
    ∃ parser', parser'.state = .endpointCreateCapabilities ∧
      Passes platform loose parser (byte :: word) loose parser' [] := by
  have hcmd : parserFeedCommand parser (platform.byteCapability byte) =
      .ok ({ parser with state := .endpointCreateCapabilities, word := 0, size := 0 }, []) := by
    rw [parserFeedCommand, hp.set, if_pos has, if_pos command]
  have hbyte : Passes platform loose parser [byte] loose
      { parser with state := .endpointCreateCapabilities, word := 0, size := 0 } [] := by
    constructor
    · intro actions
      simp [Reading.bytes, Reading.byte, hp.state, hcmd]
    · intro back
      rw [List.singleton_append, staysInside, hp.state]
      simp only [hcmd]
  obtain ⟨parser', hs', hrest⟩ := @passes_word platform
    { parser with state := .endpointCreateCapabilities, word := 0, size := 0 } word rfl
    (by simpa using short) loose
  exact ⟨parser', hs', hbyte.append hrest⟩

/-- What was asked for before is a prefix of what is asked for. -/
theorem Reading.bytes_actions (r : Reading) (bytes : List UInt8) :
    ∃ later, (r.bytes platform bytes).actions = r.actions ++ later := by
  have hsplit : r = (⟨r.parser, [], r.stop⟩ : Reading).after r.actions := by
    rw [Reading.after, List.append_nil]
  have hbytes : r.bytes platform bytes =
      ((⟨r.parser, [], r.stop⟩ : Reading).bytes platform bytes).after r.actions := by
    conv_lhs => rw [hsplit]
    exact Reading.bytes_after _ _ _
  exact ⟨_, congrArg Reading.actions hbytes⟩

/-- What is asked for in bytes of which the first ones are passed. -/
theorem Passes.actions {loose loose' : Bool} {p p' : Parser} {front : List UInt8}
    {asked : List Action} (h : Passes platform loose p front loose' p' asked) (back : List UInt8) :
    ((⟨p, [], none⟩ : Reading).bytes platform (front ++ back)).actions =
      asked ++ ((⟨p', [], none⟩ : Reading).bytes platform back).actions := by
  have hafter := @Reading.bytes_after platform ⟨p', [], none⟩ asked back
  rw [Reading.after, List.append_nil] at hafter
  rw [Reading.bytes_append, h.reading, List.nil_append, hafter, Reading.after]

/-- A parser that expects a name is not invalid. -/
theorem Parser.ExpectsName.ne_invalid {header : List UInt8}
    (hp : parser.ExpectsName platform capabilities header) : parser.state ≠ .invalid := by
  intro heq
  have hname := hp.state
  rw [heq] at hname
  cases hname

/-- A run leaves bytes that ask for nothing and have the parser not give up. -/
theorem AsksNothing.outside {bytes : List UInt8} (h : AsksNothing platform capabilities bytes)
    (hp : parser.Expects capabilities) :
    staysInside platform 0 true parser bytes = false ∧
      ((⟨parser, [], none⟩ : Reading).bytes platform bytes).actions = [] := by
  induction h generalizing parser with
  | nil =>
    refine ⟨?_, rfl⟩
    rw [staysInside, hp.state]
    rfl
  | begun has command short =>
    obtain ⟨parser', hs', hpasses⟩ := passes_begun hp has command short true
    have hinside := hpasses.inside []
    rw [List.append_nil] at hinside
    refine ⟨?_, ?_⟩
    · rw [hinside, staysInside, hs']
      rfl
    · rw [hpasses.reading]
      rfl
  | @pending header name before missing =>
    obtain ⟨parser', hp', hpasses⟩ := before.passes hp true
    rw [hpasses.inside, Reading.bytes_append, hpasses.reading]
    refine ⟨?_, ?_⟩
    · cases name with
      | nil =>
        rw [staysInside, decide_eq_false hp'.ne_invalid]
        rfl
      | cons byte rest =>
        rw [staysInside_name hp'.state (List.cons_ne_nil _ _), if_neg missing]
        rfl
    · exact @Reading.bytes_notMem platform ⟨parser', [], none⟩ name hp'.state rfl
        (by rw [hp'.name]; exact Nat.zero_le _) missing
  | @refused header name rest before first taken nothing silent ih =>
    obtain ⟨parser', hp', hheader⟩ := before.passes hp true
    obtain ⟨parser'', hp'', hname⟩ := hp'.passes first taken true
    rw [(hp'.completed name first).mpr nothing] at hname
    have hpasses := hheader.append hname
    have hsplit : header ++ (name ++ 0 :: rest) = (header ++ (name ++ [0])) ++ rest := by simp
    rw [hsplit, hpasses.inside, Reading.bytes_append, hpasses.reading]
    exact ih hp''

/-- How the bytes begin where a command is expected. -/
inductive Opening (platform : Platform) (capabilities : Capset) (bytes : List UInt8) : Prop
  | givesUp (h : GivesUp platform capabilities bytes)
  | asksNothing (h : AsksNothing platform capabilities bytes)
  | system {byte : UInt8} {rest : List UInt8} (heq : bytes = byte :: rest)
      (command : isSystemByte platform capabilities byte = true)
  | named {header name rest : List UInt8} (heq : bytes = header ++ (name ++ 0 :: rest))
      (before : NameHeader platform capabilities header) (first : (0 : UInt8) ∉ name)
      (taken : ¬ NameRejected [] (name ++ [0]))

/-- Behind a header there is an unfinished name, a rejected one or one that is taken. -/
theorem opening_header {header name : List UInt8} (h : NameHeader platform capabilities header) :
    Opening platform capabilities (header ++ name) := by
  by_cases hnul : (0 : UInt8) ∈ name
  · by_cases hrej : NameRejected [] name
    · exact .givesUp (.rejected h hnul hrej)
    · obtain ⟨first, rest, rfl, hfirst⟩ := List.eq_append_cons_of_mem hnul
      exact .named rfl h hfirst ((nameRejected_first hfirst rest).not.mp hrej)
  · exact .asksNothing (.pending h hnul)

/-- The bytes begin in one of these ways. -/
theorem opening (platform : Platform) (capabilities : Capset) (bytes : List UInt8) :
    Opening platform capabilities bytes := by
  cases bytes with
  | nil => exact .asksNothing .nil
  | cons byte rest =>
    by_cases htakes : TakesCommand platform capabilities byte
    · rcases htakes.cases rest with hsystem | ⟨header, name, heq, hh⟩ | ⟨has, command, short⟩
      · exact .system rfl hsystem
      · exact heq ▸ opening_header hh
      · exact .asksNothing (.begun has command short)
    · exact .givesUp (.command htakes)

/-- Complete requests, and what is left when they are all read. -/
theorem requests_cases (bytes : List UInt8) :
    ∃ (requests : List (List UInt8)) (next : List UInt8), bytes = requests.flatten ++ next ∧
      (∀ request ∈ requests, CompleteRequest platform capabilities request) ∧
      (GivesUp platform capabilities next ∨ AsksNothing platform capabilities next) := by
  induction hn : bytes.length using Nat.strong_induction_on generalizing bytes with
  | _ n ih =>
    have hmore : ∀ (request rest : List UInt8), CompleteRequest platform capabilities request →
        request ≠ [] → bytes = request ++ rest →
        ∃ (requests : List (List UInt8)) (next : List UInt8), bytes = requests.flatten ++ next ∧
          (∀ request ∈ requests, CompleteRequest platform capabilities request) ∧
          (GivesUp platform capabilities next ∨ AsksNothing platform capabilities next) := by
      intro request rest hrequest hne heq
      have hpos := List.length_pos_iff.mpr hne
      have hlt : rest.length < n := by
        rw [← hn, heq, List.length_append]
        omega
      obtain ⟨requests, next, hrest, hall, hnext⟩ := ih _ hlt rest rfl
      refine ⟨request :: requests, next, ?_, List.forall_mem_cons.mpr ⟨hrequest, hall⟩, hnext⟩
      rw [heq, hrest, List.flatten_cons, List.append_assoc]
    cases opening platform capabilities bytes with
    | givesUp h => exact ⟨[], bytes, rfl, by simp, Or.inl h⟩
    | asksNothing h => exact ⟨[], bytes, rfl, by simp, Or.inr h⟩
    | @system byte rest heq command =>
      exact hmore [byte] rest (.system command) (List.cons_ne_nil _ _) heq
    | @named header name rest heq before first taken =>
      refine hmore (header ++ (name ++ [0])) rest (.named before first taken) (by simp) ?_
      rw [heq]
      simp

/-- Bytes that a run leaves without an action ask for nothing. -/
theorem asksNothing_of_outside (bytes : List UInt8) (hp : parser.Expects capabilities)
    (hinside : staysInside platform 0 true parser bytes = false)
    (hactions : ((⟨parser, [], none⟩ : Reading).bytes platform bytes).actions = []) :
    AsksNothing platform capabilities bytes := by
  induction hn : bytes.length using Nat.strong_induction_on generalizing bytes parser with
  | _ n ih =>
    cases opening platform capabilities bytes with
    | givesUp h =>
      rw [h.inside hp] at hinside
      cases hinside
    | asksNothing h => exact h
    | @system byte rest heq command =>
      obtain ⟨howto, hpasses⟩ := passes_system hp command true
      rw [heq, ← List.singleton_append, Reading.bytes_append, hpasses.reading] at hactions
      obtain ⟨later, hlater⟩ := @Reading.bytes_actions platform
        ⟨parser, [] ++ [.queueReboot howto], none⟩ rest
      rw [hlater] at hactions
      cases hactions
    | @named header name rest heq before first taken =>
      obtain ⟨parser', hp', hheader⟩ := before.passes hp true
      obtain ⟨parser'', hp'', hname⟩ := hp'.passes first taken true
      have hpasses := hheader.append hname
      have hsplit : header ++ (name ++ 0 :: rest) = (header ++ (name ++ [0])) ++ rest := by simp
      have hlt : rest.length < n := by
        rw [← hn, heq]
        simp only [List.length_append, List.length_cons]
        omega
      rw [heq, hsplit, hpasses.inside] at hinside
      rw [heq, hsplit, Reading.bytes_append, hpasses.reading] at hactions
      obtain ⟨later, hlater⟩ := @Reading.bytes_actions platform
        ⟨parser'', [] ++ ([] ++ (parser'.longer (name ++ [0])).completed), none⟩ rest
      have hcompleted : (parser'.longer (name ++ [0])).completed = [] := by
        rw [hlater, List.nil_append, List.nil_append] at hactions
        exact (List.append_eq_nil_iff.mp hactions).1
      rw [hcompleted] at hactions
      rw [heq]
      exact .refused before first taken ((hp'.completed name first).mp hcompleted)
        (ih _ hlt rest hp'' hinside hactions rfl)

/-- The reader gave up. -/
def Reading.GaveUp (r : Reading) : Prop := r.stop.isSome = true ∨ r.parser.state = .invalid

/-- The reader gives up in such bytes. -/
theorem GivesUp.gaveUp {bytes : List UInt8} (h : GivesUp platform capabilities bytes)
    (hp : parser.Expects capabilities) (actions : List Action) :
    ((⟨parser, actions, none⟩ : Reading).bytes platform bytes).GaveUp := by
  cases h with
  | @command byte rest denied =>
    rw [Reading.bytes, List.foldl_cons, ← Reading.bytes]
    rcases parserFeedCommand_denied hp denied with hcmd | hcmd
    · have hbyte : (⟨parser, actions, none⟩ : Reading).byte platform byte =
          ⟨{ parser with state := .invalid }, actions, none⟩ := by
        simp [Reading.byte, hp.state, hcmd]
      rw [hbyte, Reading.bytes_invalid rfl]
      exact Or.inr rfl
    · have hbyte : (⟨parser, actions, none⟩ : Reading).byte platform byte =
          ⟨parser, actions, some .abort⟩ := by
        simp [Reading.byte, hp.state, hcmd]
      rw [hbyte, Reading.bytes_stop rfl]
      exact Or.inl rfl
  | @rejected header name before ended rejected =>
    obtain ⟨parser', hp', hpasses⟩ := before.passes hp false
    rw [Reading.bytes_append, hpasses.reading]
    exact Or.inr (Reading.bytes_nameRejected hp'.state rfl
      (by rw [hp'.name]; exact Nat.zero_le _) (by rw [hp'.name]; exact rejected)).state

/-- The fresh parser of a connection expects a command. -/
theorem connectionParser_expects (capabilities : Capset) :
    (connectionParser capabilities).Expects capabilities :=
  ⟨rfl, rfl⟩

/-- The first null byte of the bytes is where it is. -/
theorem first_unique {first first' rest rest' : List UInt8} (h : (0 : UInt8) ∉ first)
    (h' : (0 : UInt8) ∉ first') (heq : first ++ 0 :: rest = first' ++ 0 :: rest') :
    first = first' ∧ rest = rest' := by
  have hlen := congrArg fragmentLength heq
  rw [fragmentLength_of_first h, fragmentLength_of_first h'] at hlen
  obtain ⟨hfirst, hrest⟩ := List.append_inj heq (Nat.succ.inj hlen)
  exact ⟨hfirst, (List.cons.inj hrest).2⟩

/-- The first byte that is no system command is where it is. -/
theorem system_unique {system system' rest rest' : List UInt8} {byte byte' : UInt8}
    (h : ∀ byte ∈ system, isSystemByte platform capabilities byte = true)
    (h' : ∀ byte ∈ system', isSystemByte platform capabilities byte = true)
    (hbyte : isSystemByte platform capabilities byte = false)
    (hbyte' : isSystemByte platform capabilities byte' = false)
    (heq : system ++ byte :: rest = system' ++ byte' :: rest') :
    system = system' ∧ byte = byte' ∧ rest = rest' := by
  have hdrop := congrArg (List.dropWhile (isSystemByte platform capabilities)) heq
  rw [List.dropWhile_append_of_pos h, List.dropWhile_append_of_pos h',
    List.dropWhile_cons_of_neg (by simp [hbyte]),
    List.dropWhile_cons_of_neg (by simp [hbyte'])] at hdrop
  rw [hdrop] at heq
  exact ⟨List.append_cancel_right heq, List.cons.inj hdrop⟩

/-- The bytes before a name are the same ones, whatever the name. -/
theorem header_unique {header header' name name' : List UInt8}
    (h : NameHeader platform capabilities header) (h' : NameHeader platform capabilities header')
    (heq : header ++ name = header' ++ name') : header = header' ∧ name = name' := by
  apply List.append_inj heq
  cases h with
  | daemon has command =>
    cases h' with
    | daemon has' command' => rfl
    | endpoint has' command' size' =>
      rw [(List.cons.inj heq).1] at command
      exact absurd command' (daemonCommands_ne command).1
  | endpoint has command size =>
    cases h' with
    | daemon has' command' =>
      rw [← (List.cons.inj heq).1] at command'
      exact absurd command (daemonCommands_ne command').1
    | endpoint has' command' size' => rw [List.length_cons, List.length_cons, size, size']

/-- The first name of a stream is where it is. -/
theorem firstName_unique {system system' header header' name name' : List UInt8}
    (h : ∀ byte ∈ system, isSystemByte platform capabilities byte = true)
    (h' : ∀ byte ∈ system', isSystemByte platform capabilities byte = true)
    (hh : NameHeader platform capabilities header) (hh' : NameHeader platform capabilities header')
    (heq : system ++ (header ++ name) = system' ++ (header' ++ name')) :
    system = system' ∧ header = header' ∧ name = name' := by
  obtain ⟨byte, word, hcons, -, hbyte⟩ := hh.head
  obtain ⟨byte', word', hcons', -, hbyte'⟩ := hh'.head
  have heq' := heq
  rw [hcons, hcons', List.cons_append, List.cons_append] at heq'
  obtain ⟨rfl, -, -⟩ := system_unique h h' hbyte hbyte' heq'
  exact ⟨rfl, header_unique hh hh' (List.append_cancel_left heq)⟩

/-- No name begins behind a command that is not taken. -/
theorem denied_before_name {system system' header name rest : List UInt8} {byte : UInt8}
    (commands : ∀ byte ∈ system, isSystemByte platform capabilities byte = true)
    (denied : ¬ TakesCommand platform capabilities byte)
    (commands' : ∀ byte ∈ system', isSystemByte platform capabilities byte = true)
    (before : NameHeader platform capabilities header) :
    system ++ byte :: rest ≠ system' ++ (header ++ name) := by
  intro heq
  obtain ⟨byte', word, rfl, htakes, hbyte'⟩ := before.head
  have hbyte : isSystemByte platform capabilities byte = false := by
    by_contra hsystem
    rw [Bool.not_eq_false] at hsystem
    have hhas := hsystem
    rw [isSystemByte, Bool.and_eq_true] at hhas
    exact denied ⟨hhas.1, Or.inr (Or.inr hsystem)⟩
  obtain ⟨-, rfl, -⟩ := system_unique commands commands' hbyte hbyte' heq
  exact denied htakes

end Cyberd
