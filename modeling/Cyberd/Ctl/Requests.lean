import Cyberd.Connection.CapabilityWord
import Cyberd.Ctl.Program

/-!
# The first read of a request

A connection that was just accepted reads a request of cyberctl. Either it turns invalid
without any effect, or it performs what was asked for and goes on with the bytes that are
behind the request in the buffer, twice as many as the name and its end are.
-/

namespace Cyberd

open Library

/-- `CONFIG_SOCKET_CONNECTIONS_BUFFER_SIZE` -/
def connectionsBufferSize : Nat := 512

/-- What the first read gives of a message. -/
def firstRead (message : List UInt8) : List UInt8 := message.take connectionsBufferSize

/-- The name of a request. -/
def Request.name : Request → Name
  | .endpointCreate _ name | .daemon _ name => name
  | .system _ => []

/-- The capability of the command of a request. -/
def Request.capability : Request → Capset
  | .endpointCreate _ _ => capabilityEndpointCreate
  | .daemon action _ => action.capability
  | .system howto => howto.capability

/-- The name fits the buffer of the parser, and has no `'/'`. -/
def NameTaken (name : Name) : Prop := name.length ≤ nameMax ∧ byteSlash ∉ name

instance (name : Name) : Decidable (NameTaken name) := inferInstanceAs (Decidable (_ ∧ _))

/-- The connection has the capability of the command, and takes the name. -/
def Request.Accepted (capabilities : Capset) (request : Request) : Prop :=
  capsetHas capabilities request.capability = true ∧ NameTaken request.name

/-- What an accepted request has performed. An endpoint gets what the connection has of the
capabilities, which the host converts once more, and is not created without any. -/
def Request.actions (platform : Platform) (capabilities : Capset) : Request → List Action
  | .endpointCreate asked name =>
    let granted := capabilities &&& platform.ntohl asked
    if granted ≠ 0 ∧ name ≠ [] ∧ name.head? ≠ some byteDot then [.endpointCreate name granted]
    else []
  | .daemon action name => [.daemon action name]
  | .system howto => [.queueReboot howto]

/-- How many bytes behind the request are read as if they were a part of it. -/
def Request.overread : Request → Nat
  | .endpointCreate _ name | .daemon _ name => 2 * (name.length + 1)
  | .system _ => 0

variable {platform : Platform} {f : Feed} {name : Name} {capabilities : Capset}

/-- Whatever is behind the count, `name_fill` rejects or takes the next fragment. -/
theorem nameFill_take (h : f.count ≤ f.buffer.length) :
    nameFill f = .ok (if NameRejected f.parser.name (f.buffer.take f.count) then none
      else some (f.filled (fragmentLength (f.buffer.take f.count)))) := by
  have hlength : (f.buffer.take f.count).length = f.count := List.length_take_of_le h
  have hle : fragmentLength (f.buffer.take f.count) ≤ f.count :=
    (fragmentLength_le _).trans hlength.le
  have htake : (f.buffer.take f.count).take (fragmentLength (f.buffer.take f.count)) =
      f.buffer.take (fragmentLength (f.buffer.take f.count)) := by
    rw [List.take_take, Nat.min_eq_left hle]
  have hupTo : fragmentUpTo ((f.buffer.take f.count).idxOf? 0) f.count =
      fragmentLength (f.buffer.take f.count) := by
    rw [fragmentLength, hlength]
  rw [nameFill, memchr_of_le h, except_bind_ok, hupTo, nameFillFragment,
    memchr_of_le (hle.trans h), except_bind_ok, except_pure]
  by_cases hlong : nameMax + 1 < f.parser.name.length + fragmentLength (f.buffer.take f.count)
  · have hrej : NameRejected f.parser.name (f.buffer.take f.count) := Or.inl hlong
    rw [if_pos hlong, if_pos hrej]
  · rw [if_neg hlong]
    by_cases hslash : byteSlash ∈ f.buffer.take (fragmentLength (f.buffer.take f.count))
    · have hrej : NameRejected f.parser.name (f.buffer.take f.count) :=
        Or.inr (htake.symm ▸ hslash)
      rw [if_pos hrej, if_pos (by simpa using hslash)]
    · have hrej : ¬ NameRejected f.parser.name (f.buffer.take f.count) := by
        rintro (h | h)
        exacts [hlong h, hslash (htake ▸ h)]
      rw [if_neg hrej, if_neg (by simpa using hslash)]

/-- A name that is cut by the end of the buffer is too long anyway. -/
theorem nameRejected_take (hnul : (0 : UInt8) ∉ name) {size : Nat} (hsize : nameMax + 1 < size) :
    NameRejected [] ((name ++ [0]).take size) ↔ ¬ NameTaken name := by
  by_cases hle : name.length + 1 ≤ size
  · have htake : (name ++ [0]).take size = name ++ [0] := List.take_of_length_le (by simpa)
    have hfragment := fragmentLength_of_first hnul []
    have hslash : byteSlash ∈ name ++ [0] ↔ byteSlash ∈ name := by
      rw [List.mem_append, List.mem_singleton]
      exact or_iff_left (by decide)
    rw [htake, NameRejected, hfragment, List.take_of_length_le (by simp), hslash, NameTaken,
      not_and_or, not_not, List.length_nil]
    refine or_congr_left ?_
    omega
  · have htake : (name ++ [0]).take size = name.take size :=
      List.take_append_of_le_length (by omega)
    have hfragment : fragmentLength (name.take size) = size := by
      rw [fragmentLength_of_notMem fun hmem => hnul (List.mem_of_mem_take hmem),
        List.length_take_of_le (by omega)]
    refine iff_of_true (Or.inl ?_) fun h => absurd h.1 (by omega)
    rw [htake, hfragment, List.length_nil]
    omega

/-- A name with its end, at the beginning of which the read is. -/
theorem parserFeedRun_name {size : Nat} {stale : List UInt8} (hsize : nameMax + 1 < size)
    (hs : f.parser.state.isName = true) (hname : f.parser.name = []) (hnul : (0 : UInt8) ∉ name)
    (hb : f.buffer = (name ++ [0]).take size ++ stale)
    (hc : f.count = ((name ++ [0]).take size).length) :
    (NameTaken name → parserFeedRun platform f = parserFeedRun platform
      ⟨{ f.parser with name := name ++ [0], state := .command }, stale, 2 * (name.length + 1),
        f.offset + (name.length + 1),
        f.actions ++ { f.parser with name := name ++ [0] }.completed⟩) ∧
    (¬ NameTaken name → (parserFeedRun platform f).2 = .returned ∧
      (parserFeedRun platform f).1.parser = { f.parser with state := .invalid } ∧
      (parserFeedRun platform f).1.actions = f.actions) := by
  have hcount : f.count ≠ 0 := by
    rw [hc, List.length_take, List.length_append, List.length_singleton]
    omega
  have hle : f.count ≤ f.buffer.length := by
    rw [hb, hc, List.length_append]
    exact Nat.le_add_right _ _
  have htake : f.buffer.take f.count = (name ++ [0]).take size := by
    rw [hb, hc, List.take_left]
  have hfill := nameFill_take hle
  have hrejected := nameRejected_take hnul hsize
  rw [htake, hname] at hfill
  constructor
  · intro htaken
    have hwhole : (name ++ [0]).take size = name ++ [0] := by
      refine List.take_of_length_le ?_
      rw [List.length_append, List.length_singleton]
      have := htaken.1
      omega
    have hlength := fragmentLength_of_first hnul []
    rw [if_neg fun hrej => hrejected.mp hrej htaken, hwhole, hlength] at hfill
    rw [hwhole] at hb hc
    rw [parserFeedRun_step hcount (parserFeedStep_accepted hs hcount hfill)]
    have hbytes : f.buffer.take (name.length + 1) = name ++ [0] := by
      rw [hb]
      exact List.take_left' (by simp)
    have hrest : f.buffer.drop (name.length + 1) = stale := by
      rw [hb]
      exact List.drop_left' (by simp)
    have hlast : (f.filled (name.length + 1)).parser = { f.parser with name := name ++ [0] } := by
      rw [Feed.filled, hbytes, hname]
      rfl
    have htwice : f.count + (name.length + 1) = 2 * (name.length + 1) := by
      rw [hc, List.length_append, List.length_singleton]
      omega
    rw [Feed.named, hlast, if_pos List.getLast?_concat, Feed.filled, Feed.perform, Feed.advance]
    simp only [hrest, htwice]
  · intro htaken
    rw [if_pos (hrejected.mpr htaken)] at hfill
    rw [parserFeedRun_step hcount (parserFeedStep_rejected hs hfill)]
    obtain ⟨hr, hparser, hactions⟩ :=
      @parserFeedRun_inert platform (f.perform { f.parser with state := .invalid } []) rfl
    rw [hr, hparser, hactions, Feed.perform, List.append_nil]
    exact ⟨rfl, rfl, rfl⟩

/-- Bytes before a name, with other bytes behind them. -/
theorem parserFeedRun_front (hcap : capsetHas capabilities capabilityEndpointCreate = true)
    {front : List UInt8} (bytes : List UInt8) {rest : List UInt8} {count : Nat}
    (hid : (front ++ bytes).head? = some (commandOf capabilityEndpointCreate) ∨
      front ++ bytes = [])
    (hlen : (front ++ bytes).length ≤ 5)
    (hs : f.parser = headerParser platform capabilities front) (hb : f.buffer = bytes ++ rest)
    (hc : f.count = bytes.length + count) :
    parserFeedRun platform f = parserFeedRun platform
      ⟨headerParser platform capabilities (front ++ bytes), rest, count,
        f.offset + bytes.length, f.actions⟩ := by
  induction bytes generalizing front f with
  | nil =>
    rw [List.nil_append] at hb
    rw [List.length_nil, Nat.zero_add] at hc
    rw [List.append_nil, ← hs, ← hb, ← hc]
    rfl
  | cons byte bytes ih =>
    rw [List.length_append, List.length_cons] at hlen
    rw [List.length_cons] at hc
    have hfirst : front = [] → byte = commandOf capabilityEndpointCreate := by
      rintro rfl
      simpa using hid
    have hstep := parserFeedStep_header hcap hfirst (by omega) hs hb
    rw [parserFeedRun_step (by omega) hstep]
    have hsplit : front ++ byte :: bytes = (front ++ [byte]) ++ bytes := by simp
    rw [hsplit] at hid ⊢
    rw [ih hid (by simp only [List.length_append, List.length_singleton]; omega) rfl
      (by rw [Feed.perform, Feed.advance, hb]; rfl)
      (by simp only [Feed.perform, Feed.advance, hc]; omega)]
    simp only [Feed.perform, Feed.advance, List.append_nil, List.length_cons]
    rw [Nat.add_assoc, Nat.add_comm 1]

/-- The identifier of a command is the place of its bit. -/
theorem Request.byteCapability (platform : Platform) (request : Request) :
    platform.byteCapability (commandOf request.capability) = request.capability := by
  cases request with
  | endpointCreate asked name => exact byteCapability_endpointCreate platform
  | daemon action name =>
    obtain ⟨order, signed⟩ := platform
    simp only [Request.capability]
    cases action <;> cases signed <;> cases order <;> decide
  | system howto => exact byteCapability_system platform howto

/-- A name of a request is read where its identifier and its capability word leave off. -/
def Request.front : Request → List UInt8
  | .endpointCreate asked _ => commandOf capabilityEndpointCreate :: bigEndian asked
  | .daemon action _ => [commandOf action.capability]
  | .system howto => [commandOf howto.capability]

/-- The bytes of the name that are in the first read. -/
def Request.back : Request → List UInt8
  | .endpointCreate _ name => (name ++ [0]).take (connectionsBufferSize - 5)
  | .daemon _ name => (name ++ [0]).take (connectionsBufferSize - 1)
  | .system _ => []

/-- The first read of a message, by its parts. -/
theorem Request.firstRead_message (request : Request) :
    firstRead request.message = request.front ++ request.back := by
  have hid : commandOf capabilityEndpointCreate = 0 := by decide
  cases request with
  | endpointCreate asked name =>
    rw [Request.front, hid]
    rfl
  | daemon action name => rfl
  | system howto => rfl

/-- A request is a system command, or its name is read as long as one that fits at least. -/
theorem Request.back_cases (request : Request) :
    (∃ howto, request = .system howto) ∨
    ∃ size, nameMax + 1 < size ∧ request.back = (request.name ++ [0]).take size ∧
      request.overread = 2 * (request.name.length + 1) := by
  cases request with
  | endpointCreate asked name =>
    exact Or.inr ⟨connectionsBufferSize - 5, by decide, rfl, rfl⟩
  | daemon action name => exact Or.inr ⟨connectionsBufferSize - 1, by decide, rfl, rfl⟩
  | system howto => exact Or.inl ⟨howto, rfl⟩

/-- The first byte is the identifier of the command. -/
theorem Request.front_eq (request : Request) :
    ∃ rest, request.front = commandOf request.capability :: rest := by
  cases request <;> exact ⟨_, rfl⟩

variable {stale : List UInt8} {request : Request}

/-- Without the capability, nothing is performed. -/
theorem parserFeed_denied (hcap : ¬ capsetHas capabilities request.capability = true) :
    ∃ f, parserFeed platform (connectionParser capabilities)
        (firstRead request.message ++ stale) (firstRead request.message).length =
          (f, .returned) ∧ f.actions = [] ∧
        f.parser = { connectionParser capabilities with state := .invalid } := by
  obtain ⟨rest, hrest⟩ := request.front_eq
  have hcmd : parserFeedCommand (connectionParser capabilities)
      (platform.byteCapability (commandOf request.capability)) =
        .ok ({ connectionParser capabilities with state := .invalid }, []) := by
    rw [request.byteCapability, parserFeedCommand]
    exact if_neg hcap
  rw [parserFeed, request.firstRead_message, hrest, List.cons_append, List.cons_append]
  rw [parserFeedRun_step (Nat.succ_ne_zero _) (parserFeedStep_command rfl rfl hcmd)]
  obtain ⟨hr, hparser, hactions⟩ := @parserFeedRun_inert platform
    ((Feed.advance ⟨connectionParser capabilities, commandOf request.capability ::
      (rest ++ request.back ++ stale), (commandOf request.capability ::
        (rest ++ request.back)).length, 0, []⟩ 1 (rest ++ request.back).length).perform
      { connectionParser capabilities with state := .invalid } []) rfl
  exact ⟨_, Prod.ext rfl hr, hactions, hparser⟩

/-- The state in which the name of a daemon is read. -/
def DaemonAction.state : DaemonAction → ParserState
  | .daemonStart => .daemonStartName
  | .daemonStop => .daemonStopName
  | .daemonReload => .daemonReloadName
  | .daemonEnd => .daemonEndName

/-- With its capability, the command of an action begins a name. -/
theorem parserFeedCommand_action {parser : Parser} {action : DaemonAction}
    (h : capsetHas parser.capabilities action.capability = true) :
    parserFeedCommand parser action.capability =
      .ok ({ parser with state := action.state, name := [] }, []) := by
  unfold parserFeedCommand
  rw [if_pos h]
  cases action <;> rfl

/-- The name is complete when its null byte is. -/
theorem Parser.completed_action {parser : Parser} {action : DaemonAction}
    (hs : parser.state = action.state) (hnul : (0 : UInt8) ∉ name) :
    { parser with name := name ++ [0] }.completed = [.daemon action name] := by
  have hstring : cString (name ++ [0]) = name := cString_append hnul []
  cases action <;> simp only [Parser.completed, hs, DaemonAction.state, hstring]

/-- With the capability, everything before the name is read. -/
theorem parserFeed_front (hnamed : ∀ howto, request ≠ .system howto)
    (hcap : capsetHas capabilities request.capability = true)
    (hnul : (0 : UInt8) ∉ request.name) :
    ∃ parser : Parser, parser.capabilities = capabilities ∧ parser.state.isName = true ∧
      parser.name = [] ∧
      { parser with name := request.name ++ [0] }.completed =
        request.actions platform capabilities ∧
      parserFeed platform (connectionParser capabilities)
          (firstRead request.message ++ stale) (firstRead request.message).length =
        parserFeedRun platform ⟨parser, request.back ++ stale, request.back.length,
          request.front.length, []⟩ := by
  rw [parserFeed, request.firstRead_message, List.append_assoc, List.length_append]
  cases request with
  | endpointCreate asked name =>
    refine ⟨headerParser platform capabilities
      (commandOf capabilityEndpointCreate :: bigEndian asked), ?_, ?_, ?_, ?_, ?_⟩
    · rfl
    · rfl
    · rfl
    · have hstring : cString (name ++ [0]) = name := cString_append hnul []
      have hfour : (bigEndian asked).length = 4 := rfl
      rw [headerParser, if_pos hfour, wordOf_bigEndian]
      simp only [Parser.completed, Request.actions, Request.name, hstring]
    · exact @parserFeedRun_front platform ⟨connectionParser capabilities, _, _, 0, []⟩
        capabilities hcap [] (Request.endpointCreate asked name).front _ _ (Or.inl rfl) le_rfl
        rfl rfl rfl
  | daemon action name =>
    have hcmd := @parserFeedCommand_action (connectionParser capabilities) action hcap
    have hbyte := (Request.daemon action name).byteCapability platform
    rw [Request.capability] at hbyte
    rw [← hbyte] at hcmd
    refine ⟨{ connectionParser capabilities with state := action.state, name := [] },
      rfl, ?_, rfl, Parser.completed_action rfl hnul, ?_⟩
    · cases action <;> rfl
    · rw [parserFeedRun_step (by simp [Request.front]) (parserFeedStep_command rfl rfl hcmd)]
      simp [Request.front, Feed.perform, Feed.advance]
  | system howto => exact absurd rfl (hnamed howto)

/-- A system command is read as a whole, and queues its reboot. -/
theorem parserFeed_system {howto : Howto}
    (hcap : capsetHas capabilities howto.capability = true) :
    parserFeed platform (connectionParser capabilities)
        (firstRead (Request.system howto).message ++ stale)
        (firstRead (Request.system howto).message).length =
      parserFeedRun platform ⟨connectionParser capabilities, stale, 0, 1,
        [.queueReboot howto]⟩ := by
  have hcmd := @parserFeedCommand_howto (connectionParser capabilities) howto hcap
  rw [← byteCapability_system platform howto] at hcmd
  rw [parserFeed, (Request.system howto).firstRead_message]
  rw [parserFeedRun_step (by simp [Request.front]) (parserFeedStep_command rfl rfl hcmd)]
  rfl

/-- An accepted request has performed what it asks for when the bytes behind it are read, as
if they were as many as the name and its end once more. Any other one is without effect, and
so is whatever follows it. -/
theorem parserFeed_request (platform : Platform) (capabilities : Capset) (request : Request)
    (hnul : (0 : UInt8) ∉ request.name) (stale : List UInt8) :
    (request.Accepted capabilities → ∃ next : Parser, next.state = .command ∧
      next.capabilities = capabilities ∧
      parserFeed platform (connectionParser capabilities)
          (firstRead request.message ++ stale) (firstRead request.message).length =
        parserFeedRun platform ⟨next, stale, request.overread,
          (firstRead request.message).length, request.actions platform capabilities⟩) ∧
    (¬ request.Accepted capabilities → ∃ f,
      parserFeed platform (connectionParser capabilities)
          (firstRead request.message ++ stale) (firstRead request.message).length =
        (f, .returned) ∧ f.actions = [] ∧ f.parser.state = .invalid ∧
      f.parser.capabilities = capabilities) := by
  by_cases hcap : capsetHas capabilities request.capability = true
  · rcases request.back_cases with ⟨howto, rfl⟩ | ⟨size, hsize, hback, hoverread⟩
    · have haccepted : (Request.system howto).Accepted capabilities :=
        ⟨hcap, Nat.zero_le _, List.not_mem_nil⟩
      exact ⟨fun _ => ⟨connectionParser capabilities, rfl, rfl, parserFeed_system hcap⟩,
        fun h => absurd haccepted h⟩
    · have hnamed : ∀ howto, request ≠ .system howto := by
        rintro howto rfl
        cases hoverread
      obtain ⟨parser, hcaps, hs, hname, hcompleted, hfeed⟩ :=
        @parserFeed_front platform capabilities stale request hnamed hcap hnul
      obtain ⟨htaken, hrejected⟩ := @parserFeedRun_name platform ⟨parser, request.back ++ stale,
        request.back.length, request.front.length, []⟩ request.name size stale hsize hs hname
        hnul (by rw [hback]) (by rw [hback])
      rw [hfeed]
      constructor
      · rintro ⟨-, htaken'⟩
        have hlength : (firstRead request.message).length =
            request.front.length + (request.name.length + 1) := by
          have hfits := htaken'.1
          rw [request.firstRead_message, List.length_append, hback, List.length_take,
            List.length_append, List.length_singleton]
          omega
        refine ⟨{ parser with name := request.name ++ [0], state := .command }, rfl, hcaps, ?_⟩
        rw [htaken htaken', hlength, hoverread, ← hcompleted]
        rfl
      · intro hnot
        obtain ⟨hr, hparser, hactions⟩ := hrejected fun h => hnot ⟨hcap, h⟩
        exact ⟨_, Prod.ext rfl hr, hactions, by rw [hparser], by rw [hparser]; exact hcaps⟩
  · have hnot : ¬ request.Accepted capabilities := fun h => hcap h.1
    obtain ⟨f, hfeed, hactions, hparser⟩ :=
      @parserFeed_denied platform capabilities stale request hcap
    refine ⟨fun h => absurd h hnot, fun _ => ⟨f, hfeed, hactions, ?_, ?_⟩⟩
    · rw [hparser]
    · rw [hparser]
      rfl

/-- The swapped bytes of a set of capabilities are no capabilities. -/
theorem and_byteSwap {a c : Capset} (ha : Capset.Included a capsetAll)
    (hc : Capset.Included c capsetAll) : c &&& byteSwap a = 0 := by
  have hall : capsetAll = 0x1ff := by decide
  unfold Capset.Included at ha hc
  rw [hall] at ha hc
  rw [← ha, ← hc]
  apply UInt32.toBitVec_inj.mp
  ext i hi
  simp only [byteSwap, UInt32.toBitVec_and, UInt32.toBitVec_or, UInt32.toBitVec_shiftLeft,
    UInt32.toBitVec_shiftRight]
  interval_cases i <;> simp

/-- Commands only ask for capabilities that there are. -/
theorem capsetUnion_all {commands : List Name}
    (h : ∀ command ∈ commands, command ∈ initctlCommands) :
    Capset.Included (capsetUnion commands) capsetAll := by
  refine capsetUnion_included.mpr fun command hmem => ?_
  have htable : ∀ command ∈ initctlCommands,
      Capset.Included (initctlCapability command) capsetAll := by decide
  exact htable command (h command hmem)

/-- On a little-endian host, none of the capabilities that are asked for in words are left for
an endpoint, which is never created. -/
theorem Request.Words.actions_little {words : List Name} (hlittle : platform.byteOrder = .little)
    (h : request.Words words) (hall : Capset.Included capabilities capsetAll) (name : Name)
    (granted : Capset) :
    Action.endpointCreate name granted ∉ request.actions platform capabilities := by
  cases h with
  | endpointCreate name command commands known =>
    have hnone := and_byteSwap (capsetUnion_all known) hall
    simp [Request.actions, Platform.ntohl, hlittle, hnone]
  | daemon action name => simp [Request.actions]
  | system howto => simp [Request.actions]

end Cyberd
