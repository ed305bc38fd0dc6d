import Cyberd.Connection.Cursor

/-!
# What a parser may perform

A command is checked at its first byte and performed at its last one. The state
of the parser remembers which capability was checked, so that every action of a
run is one the connection has the capability of, whatever bytes are read.
-/

namespace Cyberd

open Library

/-- The capability checked when the state was entered. -/
def ParserState.capability : ParserState → Capset
  | .command | .invalid => 0
  | .endpointCreateCapabilities | .endpointCreateName => capabilityEndpointCreate
  | .daemonStartName => capabilityDaemonStart
  | .daemonStopName => capabilityDaemonStop
  | .daemonReloadName => capabilityDaemonReload
  | .daemonEndName => capabilityDaemonEnd

/-- The capability that stands for an action on a daemon. -/
def DaemonAction.capability : DaemonAction → Capset
  | .daemonStart => capabilityDaemonStart
  | .daemonStop => capabilityDaemonStop
  | .daemonReload => capabilityDaemonReload
  | .daemonEnd => capabilityDaemonEnd

/-- The capability that stands for a queued reboot. -/
def Howto.capability : Howto → Capset
  | .powerOff => capabilitySystemPoweroff
  | .haltSystem => capabilitySystemHalt
  | .autoboot => capabilitySystemReboot
  | .swSuspend => capabilitySystemSuspend

/-- The capability that stands for an action. -/
def Action.capability : Action → Capset
  | .endpointCreate _ _ => capabilityEndpointCreate
  | .daemon action _ => action.capability
  | .queueReboot howto => howto.capability

/-- The capability sets an action hands on. -/
def Action.granted : Action → List Capset
  | .endpointCreate _ capabilities => [capabilities]
  | .daemon _ _ | .queueReboot _ => []

/-- The action is covered by a capability set, and hands on a part of it. -/
structure Action.Authorized (capabilities : Capset) (action : Action) : Prop where
  /-- The capability of the action is in the set. -/
  has : capsetHas capabilities action.capability = true
  /-- What it hands on is a non-empty part of the set. -/
  granted : ∀ c ∈ action.granted, c ≠ 0 ∧ Capset.Included c capabilities

/-- The invariant of a parser between two bytes. -/
structure Parser.Authorized (parser : Parser) : Prop where
  /-- The connection has capabilities only. -/
  included : Capset.Included parser.capabilities capsetAll
  /-- The capability of a pending command has been checked. -/
  pending : parser.state = .command ∨ parser.state = .invalid ∨
    capsetHas parser.capabilities parser.state.capability = true
  /-- A pending capability word is incomplete. -/
  size : parser.state = .endpointCreateCapabilities → parser.size < 4

/-- A parser starts with nothing pending. -/
theorem connectionParser_authorized {capabilities : Capset}
    (h : Capset.Included capabilities capsetAll) : (connectionParser capabilities).Authorized :=
  ⟨h, Or.inl rfl, fun hs => by cases hs⟩

/-- The effect of one iteration on the authority of a parser. -/
structure AuthorizedMove (f f' : Feed) : Prop where
  /-- The invariant is kept. -/
  parser : f'.parser.Authorized
  /-- The capabilities of a connection never change. -/
  capabilities : f'.parser.capabilities = f.parser.capabilities
  /-- Every new action is authorized. -/
  actions : ∃ new, f'.actions = f.actions ++ new ∧
    ∀ a ∈ new, a.Authorized f.parser.capabilities

/-- A command byte enters a state or performs an action it has the capability of. -/
theorem parserFeedCommand_authorized (platform : Platform) {parser : Parser} (byte : UInt8)
    (h : parser.Authorized) :
    ∃ parser' actions, parserFeedCommand parser (platform.byteCapability byte) =
        .ok (parser', actions) ∧
      parser'.Authorized ∧ parser'.capabilities = parser.capabilities ∧
      ∀ a ∈ actions, a.Authorized parser.capabilities := by
  unfold parserFeedCommand
  by_cases hhas : capsetHas parser.capabilities (platform.byteCapability byte) = true
  · rw [if_pos hhas]
    have hcases := platform.byteCapability_cases byte h.included hhas
    generalize platform.byteCapability byte = capability at hhas hcases
    rcases hcases with rfl | rfl | rfl | rfl | rfl | rfl | rfl | rfl | rfl
    · exact ⟨_, _, rfl, ⟨h.included, Or.inr (Or.inr hhas), fun _ => Nat.zero_lt_succ 3⟩, rfl,
        by simp⟩
    · exact ⟨_, _, rfl, ⟨h.included, Or.inr (Or.inr hhas), fun hs => by cases hs⟩, rfl, by simp⟩
    · exact ⟨_, _, rfl, ⟨h.included, Or.inr (Or.inr hhas), fun hs => by cases hs⟩, rfl, by simp⟩
    · exact ⟨_, _, rfl, ⟨h.included, Or.inr (Or.inr hhas), fun hs => by cases hs⟩, rfl, by simp⟩
    · exact ⟨_, _, rfl, ⟨h.included, Or.inr (Or.inr hhas), fun hs => by cases hs⟩, rfl, by simp⟩
    all_goals
      refine ⟨_, _, rfl, h, rfl, fun a ha => ?_⟩
      rw [List.mem_singleton.mp ha]
      exact ⟨hhas, by simp [Action.granted]⟩
  · rw [if_neg hhas]
    exact ⟨_, _, rfl, ⟨h.included, Or.inr (Or.inl rfl), fun hs => by cases hs⟩, rfl, by simp⟩

/-- A capability byte is counted, and the fourth one starts the name. -/
theorem parserFeedCapability_authorized (platform : Platform) {parser : Parser} (byte : UInt8)
    (hs : parser.state = .endpointCreateCapabilities) (h : parser.Authorized) :
    (parserFeedCapability platform parser byte).Authorized ∧
      (parserFeedCapability platform parser byte).capabilities = parser.capabilities := by
  have hhas : capsetHas parser.capabilities capabilityEndpointCreate = true := by
    simpa [hs, ParserState.capability] using h.pending
  unfold parserFeedCapability
  simp only
  split
  · exact ⟨⟨h.included, Or.inr (Or.inr hhas), fun hs => by cases hs⟩, rfl⟩
  · have := h.size hs
    refine ⟨⟨h.included, Or.inr (Or.inr ?_), fun _ => ?_⟩, rfl⟩
    · simpa [hs, ParserState.capability] using hhas
    · simp only
      omega

/-- A state in which a name is pending has had its capability checked. -/
theorem Parser.Authorized.has {parser : Parser} (h : parser.Authorized)
    (hc : parser.state ≠ .command) (hi : parser.state ≠ .invalid) :
    capsetHas parser.capabilities parser.state.capability = true :=
  (h.pending.resolve_left hc).resolve_left hi

/-- Turning invalid keeps the invariant. -/
theorem Parser.Authorized.invalid {parser : Parser} (h : parser.Authorized) :
    { parser with state := ParserState.invalid }.Authorized :=
  ⟨h.included, Or.inr (Or.inl rfl), fun hs => by cases hs⟩

/-- Waiting for the next command keeps the invariant. -/
theorem Parser.Authorized.command {parser : Parser} (h : parser.Authorized) (name : List UInt8) :
    { parser with state := ParserState.command, name := name }.Authorized :=
  ⟨h.included, Or.inl rfl, fun hs => by cases hs⟩

/-- A longer pending name keeps the invariant. -/
theorem Parser.Authorized.name {parser : Parser} (h : parser.Authorized) (name : List UInt8) :
    { parser with name := name }.Authorized :=
  ⟨h.included, h.pending, h.size⟩

/-- What is performed once a name is complete had its capability checked, and a created
endpoint gets a non-empty part of the capabilities. -/
theorem Parser.Authorized.completed {parser : Parser} (h : parser.Authorized) :
    ∀ action ∈ parser.completed, action.Authorized parser.capabilities := by
  have hdaemon : ∀ (daemonAction : DaemonAction) {name : Name} {action : Action},
      capsetHas parser.capabilities daemonAction.capability = true →
      action ∈ [Action.daemon daemonAction name] → action.Authorized parser.capabilities := by
    intro daemonAction name action hhas hmem
    rw [List.mem_singleton.mp hmem]
    exact ⟨hhas, by simp [Action.granted]⟩
  intro action hmem
  have hhas := h.has
  unfold Parser.completed at hmem
  cases hs : parser.state <;> simp only [hs, ParserState.capability] at hmem hhas
  case endpointCreateName =>
    split at hmem
    · rename_i hname
      rw [List.mem_singleton.mp hmem]
      refine ⟨hhas (by simp) (by simp), fun c hc => ?_⟩
      rw [List.mem_singleton.mp hc]
      exact ⟨hname.1, Capset.included_and_left _ _⟩
    · cases hmem
  case daemonStartName => exact hdaemon .daemonStart (hhas (by simp) (by simp)) hmem
  case daemonStopName => exact hdaemon .daemonStop (hhas (by simp) (by simp)) hmem
  case daemonReloadName => exact hdaemon .daemonReload (hhas (by simp) (by simp)) hmem
  case daemonEndName => exact hdaemon .daemonEnd (hhas (by simp) (by simp)) hmem
  all_goals cases hmem

/-- What follows once a fragment is taken keeps the authority of the parser. -/
theorem Feed.named_authorized {f : Feed} (h : f.parser.Authorized) (len : Nat) :
    AuthorizedMove f (f.filled len).named := by
  have hfilled : (f.filled len).parser.Authorized := h.name _
  unfold Feed.named
  split
  · exact ⟨hfilled.command _, rfl, _, rfl, hfilled.completed⟩
  · exact ⟨hfilled, rfl, [], (List.append_nil _).symm, by simp⟩

/-- One iteration keeps the authority of the parser. -/
theorem parserFeedStep_authorized {platform : Platform} {f f' : Feed} (hc : f.count ≠ 0)
    (h : f.parser.Authorized) (hf : parserFeedStep platform f = .ok f') :
    AuthorizedMove f f' := by
  cases parserFeedStep_cases hc hf with
  | @command byte rest parser actions hs hb hcmd =>
    obtain ⟨parser', actions', hcmd', hauth, hcap, hact⟩ :=
      parserFeedCommand_authorized platform byte h
    rw [hcmd] at hcmd'
    cases hcmd'
    exact ⟨hauth, hcap, actions, rfl, hact⟩
  | @capability byte rest hs hb =>
    obtain ⟨hauth, hcap⟩ := parserFeedCapability_authorized platform byte hs h
    exact ⟨hauth, hcap, [], rfl, by simp⟩
  | rejected hs hread hfill => exact ⟨h.invalid, rfl, [], rfl, by simp⟩
  | @accepted len hs hpos hread hfill => exact Feed.named_authorized h len
  | discarded hs => exact ⟨h, rfl, [], by simp [Feed.advance], by simp⟩

/-- No iteration of an authorized parser reaches the `abort` of the default case. -/
theorem parserFeedStep_error {platform : Platform} {f : Feed} {t : Trap} (hc : f.count ≠ 0)
    (h : f.parser.Authorized) (hf : parserFeedStep platform f = .error t) :
    t = .outOfBounds := by
  by_cases hs : f.parser.state.isName = true
  · cases hfill : nameFill f with
    | error t' =>
      rw [parserFeedStep_fillError hs hfill] at hf
      cases hf
      exact nameFill_error hfill
    | ok r =>
      cases r with
      | none =>
        rw [parserFeedStep_rejected hs hfill] at hf
        cases hf
      | some g =>
        rw [parserFeedStep_accepted hs hc hfill] at hf
        cases hf
  · unfold parserFeedStep at hf
    cases hstate : f.parser.state <;> simp only [hstate, ParserState.isName, not_true] at hf hs
    case command =>
      cases hb : f.buffer with
      | nil => simpa [hb, eq_comm] using hf
      | cons byte rest =>
        obtain ⟨parser, actions, hcmd, -⟩ := parserFeedCommand_authorized platform byte h
        simp [hb, hcmd] at hf
    case endpointCreateCapabilities =>
      cases hb : f.buffer with
      | nil => simpa [hb, eq_comm] using hf
      | cons byte rest => simp [hb] at hf
    case invalid => cases hf

/-- A whole run keeps the authority of the parser, and never aborts. -/
theorem parserFeedRun_authorized (platform : Platform) (f : Feed) (h : f.parser.Authorized) :
    AuthorizedMove f (parserFeedRun platform f).1 ∧
      (parserFeedRun platform f).2 ≠ .trapped .abort := by
  have hself : AuthorizedMove f f := ⟨h, rfl, [], by simp, by simp⟩
  induction f using parserFeedRun_induction platform with
  | done f hc =>
    rw [parserFeedRun_done platform hc]
    exact ⟨hself, by simp⟩
  | trap f t hc hf =>
    rw [parserFeedRun_trap hc hf]
    refine ⟨hself, fun ht => ?_⟩
    cases ht
    cases parserFeedStep_error hc h hf
  | step f f' hc hf ih =>
    rw [parserFeedRun_step hc hf]
    obtain ⟨hp, hcap, new, hnew, hall⟩ := parserFeedStep_authorized hc h hf
    obtain ⟨⟨hp', hcap', new', hnew', hall'⟩, hna⟩ := ih hp ⟨hp, rfl, [], by simp, by simp⟩
    refine ⟨⟨hp', hcap'.trans hcap, new ++ new', ?_, fun a ha => ?_⟩, hna⟩
    · rw [hnew', hnew, List.append_assoc]
    · rcases List.mem_append.mp ha with ha | ha
      · exact hall a ha
      · exact hcap ▸ hall' a ha

/-- The states of the parser of a connection, after any reads. -/
inductive ParserReachable (platform : Platform) (capabilities : Capset) : Parser → Prop
  | accepted : ParserReachable platform capabilities (connectionParser capabilities)
  | read {parser : Parser} (memory : List UInt8) (count : Nat)
      (h : ParserReachable platform capabilities parser) :
      ParserReachable platform capabilities (parserFeed platform parser memory count).1.parser

/-- Every reachable parser is authorized, with the capabilities it was given. -/
theorem ParserReachable.authorized {platform : Platform} {capabilities : Capset}
    {parser : Parser} (hall : Capset.Included capabilities capsetAll)
    (h : ParserReachable platform capabilities parser) :
    parser.Authorized ∧ parser.capabilities = capabilities := by
  induction h with
  | accepted => exact ⟨connectionParser_authorized hall, rfl⟩
  | read memory count h ih =>
    obtain ⟨hmove, -⟩ := parserFeedRun_authorized platform ⟨_, memory, count, 0, []⟩ ih.1
    exact ⟨hmove.parser, hmove.capabilities.trans ih.2⟩

end Cyberd
