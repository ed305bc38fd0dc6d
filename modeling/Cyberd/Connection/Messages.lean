import Cyberd.Connection.Chunk

/-!
# The messages of cyberctl

The encodings of `cyberctl.c` and what a parser makes of a stream of them. Every
daemon message ends in a name fragment, and after a fragment the count of its
chunk has grown: only the streams without daemon messages are decoded.
-/

namespace Cyberd

open Library

/-- `__builtin_ctz`, the index of the lowest bit of a word. -/
def builtinCtz (word : UInt32) : Nat := ((List.range 32).find? word.toNat.testBit).getD 32

/-- `COMMAND`, the identifier of a command. -/
def commandOf (capability : Capset) : UInt8 := UInt8.ofNat (builtinCtz capability)

/-- The message of `initctl_daemon`. -/
def initctlDaemon (id : UInt8) (name : Name) : List UInt8 := id :: (name ++ [0])

/-- The message of `initctl_system`. -/
def initctlSystem (id : UInt8) : List UInt8 := [id]

/-- A daemon name of a message. -/
structure DaemonName where
  /-- Its bytes. -/
  name : Name
  /-- It is a C string. -/
  nul_free : (0 : UInt8) ∉ name
  /-- It has no `'/'`. -/
  slash_free : byteSlash ∉ name
  /-- It has at most `NAME_MAX` bytes. -/
  length_le : name.length ≤ nameMax

/-- A message about a daemon, or a system command. -/
inductive Message
  | daemon (action : DaemonAction) (name : DaemonName)
  | system (howto : Howto)

/-- The capability of the command of a message. -/
def Message.capability : Message → Capset
  | .daemon action _ => action.capability
  | .system howto => howto.capability

/-- The bytes cyberctl writes for a message. -/
def Message.encode : Message → List UInt8
  | .daemon action name => initctlDaemon (commandOf action.capability) name.name
  | .system howto => initctlSystem (commandOf howto.capability)

/-- What a message asks for. -/
def Message.action : Message → Action
  | .daemon action name => .daemon action name.name
  | .system howto => .queueReboot howto

/-- The message is one of the four system commands. -/
def Message.IsSystem (message : Message) : Prop := ∃ howto, message = .system howto

/-- The reads of a connection, one after the other while they return. -/
def feedChunks (platform : Platform) : Parser → List (List UInt8) → Option (Parser × List Action)
  | parser, [] => some (parser, [])
  | parser, chunk :: chunks =>
    match parserFeed platform parser chunk chunk.length with
    | (f, .returned) =>
      (feedChunks platform f.parser chunks).map fun (parser, actions) =>
        (parser, f.actions ++ actions)
    | _ => none

/-- A fresh parser performs exactly what the messages ask for, in their order, and
expects a command afterwards. -/
def Decodes (platform : Platform) (capabilities : Capset) (messages : List Message)
    (chunks : List (List UInt8)) : Prop :=
  ∃ parser, feedChunks platform (connectionParser capabilities) chunks =
    some (parser, messages.map Message.action) ∧ parser.state = .command

variable {platform : Platform}

/-- An invalid parser stays invalid, and performs nothing. -/
theorem parserFeedRun_invalid {f : Feed} (h : f.parser.state = .invalid) :
    parserFeedRun platform f = (f.advance f.count 0, .returned) ∨
      parserFeedRun platform f = (f, .returned) := by
  by_cases hc : f.count = 0
  · exact Or.inr (parserFeedRun_done platform hc)
  · have hstep : parserFeedStep platform f = .ok (f.advance f.count 0) := by
      rw [parserFeedStep, h]
    rw [parserFeedRun_step hc hstep]
    exact Or.inl (parserFeedRun_done platform rfl)

/-- No read makes an invalid parser valid again. -/
theorem feedChunks_invalid {parser : Parser} (h : parser.state = .invalid)
    (chunks : List (List UInt8)) {parser' : Parser} {actions : List Action}
    (hfeed : feedChunks platform parser chunks = some (parser', actions)) :
    parser'.state = .invalid := by
  induction chunks generalizing parser actions with
  | nil =>
    cases hfeed
    exact h
  | cons chunk chunks ih =>
    rw [feedChunks] at hfeed
    have hrun := @parserFeedRun_invalid platform ⟨parser, chunk, chunk.length, 0, []⟩ h
    rw [parserFeed] at hfeed
    rcases hrun with hrun | hrun <;>
    · simp only [hrun, Option.map_eq_some_iff] at hfeed
      obtain ⟨⟨next, rest⟩, hnext, heq⟩ := hfeed
      cases heq
      exact ih h hnext

/-- A command byte performs nothing but the queueing of a reboot. -/
theorem parserFeedCommand_actions {parser parser' : Parser} {capability : Capset}
    {actions : List Action} (h : parserFeedCommand parser capability = .ok (parser', actions)) :
    ∀ action ∈ actions, ∃ howto, action = .queueReboot howto := by
  have heffect := parserFeedCommand_effect parser capability
  rw [h] at heffect
  cases heffect with
  | denied => simp
  | endpoint => simp
  | daemon state hname => simp
  | reboot howto => exact fun action hmem => ⟨howto, List.mem_singleton.mp hmem⟩

/-- An iteration that takes no fragment performs nothing but the queueing of a reboot. -/
theorem parserFeedStep_actions {f f' : Feed} (hc : f.count ≠ 0)
    (h : parserFeedStep platform f = .ok f') (hle : f'.count ≤ f.count) :
    ∀ action ∈ f'.actions, action ∈ f.actions ∨ ∃ howto, action = .queueReboot howto := by
  intro action hmem
  cases parserFeedStep_cases hc h with
  | command hs hb hcmd =>
    rcases List.mem_append.mp hmem with hmem | hmem
    · exact Or.inl hmem
    · exact Or.inr (parserFeedCommand_actions hcmd action hmem)
  | capability hs hb => exact Or.inl (by simpa [Feed.perform, Feed.advance] using hmem)
  | rejected hs hread hfill => exact Or.inl (by simpa [Feed.perform] using hmem)
  | accepted hs hpos hread hfill =>
    simp only [Feed.named_count, Feed.filled, Feed.advance] at hle
    omega
  | discarded hs => exact Or.inl hmem

/-- A run that returns without turning the parser invalid has taken no fragment, so
that it performed nothing but the queueing of reboots. -/
theorem parserFeedRun_actions {f : Feed} (hlen : f.count = f.buffer.length)
    (hr : (parserFeedRun platform f).2 = .returned)
    (hv : (parserFeedRun platform f).1.parser.state ≠ .invalid) :
    ∀ action ∈ (parserFeedRun platform f).1.actions,
      action ∈ f.actions ∨ ∃ howto, action = .queueReboot howto := by
  induction f using parserFeedRun_induction platform with
  | done f hc =>
    rw [parserFeedRun_done platform hc]
    exact fun action hmem => Or.inl hmem
  | trap f t hc h => simp [parserFeedRun_trap hc h] at hr
  | step f f' hc h ih =>
    have hinvalid : f'.parser.state = .invalid → False := by
      intro hi
      apply hv
      rw [parserFeedRun_step hc h]
      rcases @parserFeedRun_invalid platform f' hi with hrun | hrun <;>
      · rw [hrun]
        exact hi
    rw [parserFeedRun_step hc h] at hr hv ⊢
    cases parserFeedStep_move hc h with
    | byte hne hb hcount ho hs =>
      have hpos := List.length_pos_iff.mpr hne
      have hlen' : f'.count = f'.buffer.length := by rw [hb, List.length_drop]; omega
      intro action hmem
      rcases ih hlen' hr hv action hmem with hmem | hboot
      · exact parserFeedStep_actions hc h (by omega) action hmem
      · exact Or.inr hboot
    | fill len hpos hread hb hcount ho hs =>
      have hlt : f'.buffer.length < f'.count := by rw [hb, List.length_drop]; omega
      exact (hv (parserFeedRun_inflated platform f' hlt hr)).elim
    | reject hne hb hcount ho hi hs => exact (hinvalid hi).elim
    | discard hi hn =>
      subst hn
      exact (hinvalid hi).elim

/-- Reads that leave the parser valid performed nothing but the queueing of reboots. -/
theorem feedChunks_actions {parser parser' : Parser} {actions : List Action}
    (chunks : List (List UInt8))
    (hfeed : feedChunks platform parser chunks = some (parser', actions))
    (hv : parser'.state ≠ .invalid) :
    ∀ action ∈ actions, ∃ howto, action = .queueReboot howto := by
  induction chunks generalizing parser actions with
  | nil =>
    cases hfeed
    simp
  | cons chunk chunks ih =>
    rw [feedChunks] at hfeed
    split at hfeed
    · rename_i f hrun
      simp only [Option.map_eq_some_iff] at hfeed
      obtain ⟨⟨next, rest⟩, hnext, heq⟩ := hfeed
      cases heq
      have hf : f.parser.state ≠ .invalid := fun hi => hv (feedChunks_invalid hi chunks hnext)
      rw [parserFeed] at hrun
      have hacts := @parserFeedRun_actions platform ⟨parser, chunk, chunk.length, 0, []⟩ rfl
        (by rw [hrun]) (by rw [hrun]; exact hf)
      rw [hrun] at hacts
      intro action hmem
      rcases List.mem_append.mp hmem with hmem | hmem
      · exact (hacts action hmem).resolve_left (by simp)
      · exact ih hnext action hmem
    · cases hfeed

/-- The identifier of a system command has the capability of the command. -/
theorem byteCapability_system (platform : Platform) (howto : Howto) :
    platform.byteCapability (commandOf howto.capability) = howto.capability := by
  obtain ⟨order, signed⟩ := platform
  cases howto <;> cases signed <;> cases order <;> decide

/-- A system command is queued by its identifier. -/
theorem parserFeedCommand_howto {parser : Parser} {howto : Howto}
    (h : capsetHas parser.capabilities howto.capability = true) :
    parserFeedCommand parser howto.capability = .ok (parser, [.queueReboot howto]) := by
  unfold parserFeedCommand
  rw [if_pos h]
  cases howto <;> rfl

/-- A chunk of system commands queues them in their order. -/
theorem parserFeedRun_system (howtos : List Howto) {f : Feed} (hs : f.parser.state = .command)
    (hcaps : ∀ howto ∈ howtos, capsetHas f.parser.capabilities howto.capability = true)
    (hb : f.buffer = howtos.map fun howto => commandOf howto.capability)
    (hlen : f.count = f.buffer.length) :
    ∃ offset, parserFeedRun platform f =
      (⟨f.parser, [], 0, offset, f.actions ++ howtos.map Action.queueReboot⟩, .returned) := by
  induction howtos generalizing f with
  | nil =>
    have hc : f.count = 0 := by rw [hlen, hb]; rfl
    refine ⟨f.offset, ?_⟩
    rw [parserFeedRun_done platform hc]
    cases f
    simp_all
  | cons howto howtos ih =>
    have hc : f.count ≠ 0 := by rw [hlen, hb]; simp
    have hcmd := parserFeedCommand_howto (hcaps howto (List.mem_cons_self ..))
    rw [← byteCapability_system platform howto] at hcmd
    rw [parserFeedRun_step hc (parserFeedStep_command hs (by rw [hb]; rfl) hcmd)]
    obtain ⟨offset, hrun⟩ := @ih
      ((f.advance 1 (f.count - 1)).perform f.parser [.queueReboot howto]) hs
      (fun howto hmem => hcaps howto (List.mem_cons_of_mem _ hmem))
      (by simp [Feed.perform, Feed.advance, hb])
      (by simp [Feed.perform, Feed.advance, hb, hlen])
    refine ⟨offset, ?_⟩
    rw [hrun]
    simp [Feed.perform, Feed.advance]

/-- System commands are queued in their order, wherever the reads cut the stream. -/
theorem feedChunks_system (chunks : List (List UInt8)) (howtos : List Howto) {parser : Parser}
    (hs : parser.state = .command)
    (hcaps : ∀ howto ∈ howtos, capsetHas parser.capabilities howto.capability = true)
    (hsplit : chunks.flatten = howtos.map fun howto => commandOf howto.capability) :
    feedChunks platform parser chunks = some (parser, howtos.map Action.queueReboot) := by
  induction chunks generalizing howtos with
  | nil =>
    have hnil : howtos = [] := by simpa using hsplit.symm
    subst hnil
    rfl
  | cons chunk chunks ih =>
    rw [List.flatten_cons] at hsplit
    obtain ⟨now, later, rfl, hnow, hlater⟩ := List.map_eq_append_iff.mp hsplit.symm
    obtain ⟨offset, hrun⟩ := @parserFeedRun_system platform now
      ⟨parser, chunk, chunk.length, 0, []⟩ hs
      (fun howto hmem => hcaps howto (List.mem_append_left _ hmem)) hnow.symm rfl
    have hrest := ih later (fun howto hmem => hcaps howto (List.mem_append_right _ hmem))
      hlater.symm
    rw [feedChunks, parserFeed, hrun]
    simp [hrest]

/-- For every list of messages, every capability set that has their commands and
every way to cut their encodings into reads, the messages are decoded exactly when
none of them is about a daemon. -/
theorem decodes_iff (platform : Platform) {capabilities : Capset} {messages : List Message}
    (hcaps : ∀ message ∈ messages, capsetHas capabilities message.capability = true)
    {chunks : List (List UInt8)} (hsplit : chunks.flatten = messages.flatMap Message.encode) :
    Decodes platform capabilities messages chunks ↔ ∀ message ∈ messages, message.IsSystem := by
  constructor
  · rintro ⟨parser, hfeed, hstate⟩ message hmem
    have hacts := feedChunks_actions chunks hfeed (by simp [hstate]) message.action
      (List.mem_map_of_mem hmem)
    obtain ⟨howto, hact⟩ := hacts
    cases message with
    | daemon action name => cases hact
    | system howto => exact ⟨howto, rfl⟩
  · intro hsys
    obtain ⟨howtos, rfl⟩ : ∃ howtos : List Howto, messages = howtos.map Message.system := by
      clear hcaps hsplit
      induction messages with
      | nil => exact ⟨[], rfl⟩
      | cons message messages ih =>
        obtain ⟨howto, rfl⟩ := hsys message (List.mem_cons_self ..)
        obtain ⟨howtos, rfl⟩ := ih fun m hm => hsys m (List.mem_cons_of_mem _ hm)
        exact ⟨howto :: howtos, rfl⟩
    have hbytes : chunks.flatten = howtos.map fun howto => commandOf howto.capability := by
      rw [hsplit, List.flatMap_map]
      simp only [Message.encode, initctlSystem, ← List.map_eq_flatMap]
    have hfeed := @feedChunks_system platform chunks howtos (connectionParser capabilities) rfl
      (fun howto hmem => hcaps _ (List.mem_map_of_mem hmem)) hbytes
    exact ⟨_, by rw [hfeed, List.map_map]; rfl, rfl⟩

/-- A halt and a suspend, read in two chunks, are decoded. -/
theorem decodes_iff_halt_suspend :
    Decodes ⟨.little, true⟩ capsetAll [.system .haltSystem, .system .swSuspend] [[6], [8]] :=
  (decodes_iff ⟨.little, true⟩ (by decide) (by decide)).mpr
    (by simp [Message.IsSystem])

/-- The start of the daemon `a` is not decoded: it is performed, then the parser
reads past the message. -/
theorem decodes_start_fails :
    ¬ Decodes ⟨.little, true⟩ capsetAll
      [.daemon .daemonStart ⟨[97], by decide, by decide, by decide⟩] [[1, 97, 0]] := by
  rintro ⟨parser, hfeed, -⟩
  have hnone : feedChunks ⟨.little, true⟩ (connectionParser capsetAll) [[1, 97, 0]] = none := by
    decide
  rw [hnone] at hfeed
  cases hfeed

end Cyberd
