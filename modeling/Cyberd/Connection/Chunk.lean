import Cyberd.Connection.Authority

/-!
# Feeding a chunk

A chunk is consumed as it should be when the run returns with its cursor on the
end of the chunk, and when the bytes of the read buffer after the chunk do not
matter. This is decided by the shape of the chunk alone: it must take no name
fragment, whose length is added to the remaining count.
-/

namespace Cyberd

open Library

/-- The run on a chunk reads its bytes only, each one once, and the memory after
the chunk has no influence. -/
structure FeedsChunk (platform : Platform) (parser : Parser) (chunk : List UInt8) : Prop where
  /-- The run returns, without any access outside of the chunk. -/
  returned : (parserFeed platform parser chunk chunk.length).2 = .returned
  /-- The cursor has moved over the chunk, and not further. -/
  consumed : (parserFeed platform parser chunk chunk.length).1.offset = chunk.length
  /-- What follows the chunk in memory changes neither the parser nor the actions. -/
  stale : ∀ tail, (parserFeed platform parser (chunk ++ tail) chunk.length).2 = .returned ∧
    (parserFeed platform parser (chunk ++ tail) chunk.length).1.parser =
      (parserFeed platform parser chunk chunk.length).1.parser ∧
    (parserFeed platform parser (chunk ++ tail) chunk.length).1.actions =
      (parserFeed platform parser chunk chunk.length).1.actions

/-- A command byte of the connection that queues a reboot. -/
def isSystemByte (platform : Platform) (capabilities : Capset) (byte : UInt8) : Bool :=
  capsetHas capabilities (platform.byteCapability byte) &&
    [capabilitySystemPoweroff, capabilitySystemHalt, capabilitySystemReboot,
      capabilitySystemSuspend].contains (platform.byteCapability byte)

/-- No fragment is taken from the bytes where a name goes on: there are none, or
the next fragment is rejected. -/
def TakesNoName (name rest : List UInt8) : Prop := rest = [] ∨ NameRejected name rest

/-- No fragment is taken from the bytes where a command is expected: after the
system commands come the end, a rejected command, or a command whose name does
not begin in the chunk or is rejected. -/
def CommandsTakeNoName (platform : Platform) (capabilities : Capset) (chunk : List UInt8) :
    Prop :=
  match chunk.dropWhile (isSystemByte platform capabilities) with
  | [] => True
  | byte :: rest =>
    if capsetHas capabilities (platform.byteCapability byte) = true then
      if platform.byteCapability byte = capabilityEndpointCreate then
        TakesNoName [] (rest.drop 4)
      else TakesNoName [] rest
    else True

/-- No fragment is taken from the chunk. -/
def ChunkTakesNoName (platform : Platform) (parser : Parser) (chunk : List UInt8) : Prop :=
  match parser.state with
  | .invalid => True
  | .command => CommandsTakeNoName platform parser.capabilities chunk
  | .endpointCreateCapabilities => TakesNoName [] (chunk.drop (4 - parser.size))
  | _ => TakesNoName parser.name chunk

/-- The run returns with the cursor on the end of its count. -/
def Feed.Exact (platform : Platform) (f : Feed) : Prop :=
  (parserFeedRun platform f).2 = .returned ∧
    (parserFeedRun platform f).1.offset = f.offset + f.count

variable {platform : Platform}

/-- Nothing to read is read exactly. -/
theorem Feed.exact_done {f : Feed} (h : f.count = 0) : f.Exact platform := by
  rw [Feed.Exact, parserFeedRun_done platform h]
  exact ⟨rfl, by simp [h]⟩

/-- A move that keeps the end of the count keeps exactness. -/
theorem Feed.exact_step {f f' : Feed} (hc : f.count ≠ 0)
    (h : parserFeedStep platform f = .ok f')
    (he : f'.offset + f'.count = f.offset + f.count) :
    f.Exact platform ↔ f'.Exact platform := by
  rw [Feed.Exact, Feed.Exact, parserFeedRun_step hc h, he]

/-- A move that puts the end of the count further is never made up for. -/
theorem Feed.not_exact_step {f f' : Feed} (hc : f.count ≠ 0)
    (h : parserFeedStep platform f = .ok f')
    (he : f.offset + f.count < f'.offset + f'.count) : ¬ f.Exact platform := by
  rintro ⟨hr, ho⟩
  rw [parserFeedRun_step hc h] at hr ho
  have := parserFeedRun_offset platform f' hr
  omega

/-- An invalid parser gives up exactly its count. -/
theorem Feed.exact_invalid {f : Feed} (h : f.parser.state = .invalid) : f.Exact platform := by
  by_cases hc : f.count = 0
  · exact exact_done hc
  · have hstep : parserFeedStep platform f = .ok (f.advance f.count 0) := by
      rw [parserFeedStep, h]
    exact (exact_step hc hstep rfl).mpr (exact_done rfl)

/-- Where a name goes on, a chunk is read exactly when it takes no fragment. -/
theorem Feed.exact_name {f : Feed} (hs : f.parser.state.isName = true)
    (hlen : f.count = f.buffer.length) :
    f.Exact platform ↔ TakesNoName f.parser.name f.buffer := by
  by_cases hne : f.buffer = []
  · have hc : f.count = 0 := by rw [hlen, hne]; rfl
    exact iff_of_true (exact_done hc) (Or.inl hne)
  · have hc : f.count ≠ 0 := by rw [hlen]; simpa using hne
    have hfill := nameFill_exact hlen
    by_cases hrej : NameRejected f.parser.name f.buffer
    · rw [if_pos hrej] at hfill
      refine iff_of_true ?_ (Or.inr hrej)
      exact (exact_step hc (parserFeedStep_rejected hs hfill) rfl).mpr (exact_invalid rfl)
    · rw [if_neg hrej] at hfill
      refine iff_of_false ?_ (by rintro (h | h); exacts [hne h, hrej h])
      have hpos := fragmentLength_pos hne
      apply not_exact_step hc (parserFeedStep_accepted hs hc hfill)
      simp only [Feed.named_offset, Feed.named_count, Feed.filled, Feed.advance]
      omega

/-- Where capability bytes go on, the name begins after the missing ones. -/
theorem Feed.exact_capabilities {f : Feed} (hs : f.parser.state = .endpointCreateCapabilities)
    (hsize : f.parser.size < 4) (hlen : f.count = f.buffer.length) :
    f.Exact platform ↔ TakesNoName [] (f.buffer.drop (4 - f.parser.size)) := by
  induction hb : f.buffer generalizing f with
  | nil =>
    have hc : f.count = 0 := by rw [hlen, hb]; rfl
    exact iff_of_true (exact_done hc) (Or.inl (by simp))
  | cons byte rest ih =>
    have hc : f.count ≠ 0 := by rw [hlen, hb]; simp
    have hcount : f.count = rest.length + 1 := by rw [hlen, hb]; rfl
    have hstep : parserFeedStep platform f = .ok
        ((f.advance 1 (f.count - 1)).perform (parserFeedCapability platform f.parser byte) []) := by
      rw [parserFeedStep, hs, hb]
    have hrest : (f.advance 1 (f.count - 1)).buffer = rest := by simp [Feed.advance, hb]
    have hend : f.offset + 1 + (f.count - 1) = f.offset + f.count := by omega
    rw [exact_step hc hstep hend]
    by_cases hfour : f.parser.size + 1 = 4
    · have hthree : 4 - f.parser.size = 1 := by omega
      rw [exact_name (by simp [Feed.perform, parserFeedCapability, hfour, ParserState.isName])
        (by simp [Feed.perform, Feed.advance, hb, hcount])]
      simp [Feed.perform, Feed.advance, parserFeedCapability, hfour, hb, hthree]
    · rw [ih (by simp [Feed.perform, Feed.advance, parserFeedCapability, hfour, hs])
        (by simp only [Feed.perform, parserFeedCapability, if_neg hfour]; omega)
        (by simp [Feed.perform, Feed.advance, hb, hcount]) (by simp [Feed.perform, hrest])]
      have hdrop : 4 - f.parser.size = 4 - (f.parser.size + 1) + 1 := by omega
      rw [hdrop, List.drop_succ_cons]
      simp [Feed.perform, parserFeedCapability, hfour]

/-- What a command byte can do. -/
inductive CommandEffect (parser : Parser) : Except Trap (Parser × List Action) → Prop
  /-- Its capability is missing. -/
  | denied : CommandEffect parser (.ok ({ parser with state := .invalid }, []))
  /-- The capabilities of an endpoint come next. -/
  | endpoint : CommandEffect parser
      (.ok ({ parser with state := .endpointCreateCapabilities, word := 0, size := 0 }, []))
  /-- The name of a daemon comes next. -/
  | daemon (state : ParserState) (hname : state.isName = true) :
      CommandEffect parser (.ok ({ parser with state := state, name := [] }, []))
  /-- A reboot is queued. -/
  | reboot (howto : Howto) : CommandEffect parser (.ok (parser, [.queueReboot howto]))
  /-- It is in no case of the switch. -/
  | unknown : CommandEffect parser (.error .abort)

/-- A choice has one of two effects. -/
theorem CommandEffect.ite {parser : Parser} {p : Prop} [Decidable p]
    {x y : Except Trap (Parser × List Action)} (hx : CommandEffect parser x)
    (hy : CommandEffect parser y) : CommandEffect parser (if p then x else y) := by
  split
  · exact hx
  · exact hy

/-- `parser_feed_command` does nothing else. -/
theorem parserFeedCommand_effect (parser : Parser) (capability : Capset) :
    CommandEffect parser (parserFeedCommand parser capability) := by
  unfold parserFeedCommand
  refine .ite ?_ .denied
  refine .ite .endpoint ?_
  refine .ite (.daemon .daemonStartName rfl) ?_
  refine .ite (.daemon .daemonStopName rfl) ?_
  refine .ite (.daemon .daemonReloadName rfl) ?_
  refine .ite (.daemon .daemonEndName rfl) ?_
  refine .ite (.reboot .powerOff) ?_
  refine .ite (.reboot .haltSystem) ?_
  refine .ite (.reboot .autoboot) ?_
  exact .ite (.reboot .swSuspend) .unknown

/-- The three fates of a command byte that queues no reboot. -/
theorem parserFeedCommand_cases (platform : Platform) {parser : Parser} (byte : UInt8)
    (h : parser.Authorized) (hsys : isSystemByte platform parser.capabilities byte = false) :
    (capsetHas parser.capabilities (platform.byteCapability byte) = false ∧
      parserFeedCommand parser (platform.byteCapability byte) =
        .ok ({ parser with state := .invalid }, [])) ∨
    (capsetHas parser.capabilities (platform.byteCapability byte) = true ∧
      platform.byteCapability byte = capabilityEndpointCreate ∧
      parserFeedCommand parser (platform.byteCapability byte) =
        .ok ({ parser with state := .endpointCreateCapabilities, word := 0, size := 0 }, [])) ∨
    (capsetHas parser.capabilities (platform.byteCapability byte) = true ∧
      platform.byteCapability byte ≠ capabilityEndpointCreate ∧
      ∃ state : ParserState, state.isName = true ∧
        parserFeedCommand parser (platform.byteCapability byte) =
          .ok ({ parser with state := state, name := [] }, [])) := by
  unfold parserFeedCommand
  by_cases hhas : capsetHas parser.capabilities (platform.byteCapability byte) = true
  · rw [if_pos hhas]
    have hcases := platform.byteCapability_cases byte h.included hhas
    rw [isSystemByte, hhas, Bool.true_and] at hsys
    generalize platform.byteCapability byte = capability at hhas hcases hsys
    rcases hcases with rfl | rfl | rfl | rfl | rfl | rfl | rfl | rfl | rfl
    · exact Or.inr (Or.inl ⟨hhas, rfl, rfl⟩)
    · exact Or.inr (Or.inr ⟨hhas, by decide, .daemonStartName, rfl, rfl⟩)
    · exact Or.inr (Or.inr ⟨hhas, by decide, .daemonStopName, rfl, rfl⟩)
    · exact Or.inr (Or.inr ⟨hhas, by decide, .daemonReloadName, rfl, rfl⟩)
    · exact Or.inr (Or.inr ⟨hhas, by decide, .daemonEndName, rfl, rfl⟩)
    all_goals exact absurd hsys (by decide)
  · rw [if_neg hhas]
    exact Or.inl ⟨by simpa using hhas, rfl⟩

/-- A system command byte queues its reboot, and the next command is expected. -/
theorem parserFeedCommand_system (platform : Platform) {parser : Parser} {byte : UInt8}
    (hsys : isSystemByte platform parser.capabilities byte = true) :
    ∃ howto : Howto, platform.byteCapability byte = howto.capability ∧
      parserFeedCommand parser (platform.byteCapability byte) =
        .ok (parser, [.queueReboot howto]) := by
  unfold parserFeedCommand
  rw [isSystemByte, Bool.and_eq_true] at hsys
  obtain ⟨hhas, hmem⟩ := hsys
  rw [if_pos hhas]
  generalize platform.byteCapability byte = capability at hmem
  simp only [List.contains_eq_mem, decide_eq_true_eq, List.mem_cons, List.not_mem_nil,
    or_false] at hmem
  rcases hmem with rfl | rfl | rfl | rfl
  · exact ⟨.powerOff, rfl, rfl⟩
  · exact ⟨.haltSystem, rfl, rfl⟩
  · exact ⟨.autoboot, rfl, rfl⟩
  · exact ⟨.swSuspend, rfl, rfl⟩

/-- One command byte, the next state being what `parser_feed_command` made of it. -/
theorem parserFeedStep_command {f : Feed} {byte : UInt8} {rest : List UInt8} {parser : Parser}
    {actions : List Action} (hs : f.parser.state = .command) (hb : f.buffer = byte :: rest)
    (h : parserFeedCommand f.parser (platform.byteCapability byte) = .ok (parser, actions)) :
    parserFeedStep platform f = .ok ((f.advance 1 (f.count - 1)).perform parser actions) := by
  rw [parserFeedStep, hs, hb]
  simp only [h, except_bind_ok]
  rfl

/-- Where a command is expected, a chunk is read exactly when it takes no fragment. -/
theorem Feed.exact_command {f : Feed} (hs : f.parser.state = .command)
    (h : f.parser.Authorized) (hlen : f.count = f.buffer.length) :
    f.Exact platform ↔ CommandsTakeNoName platform f.parser.capabilities f.buffer := by
  induction hb : f.buffer generalizing f with
  | nil =>
    have hc : f.count = 0 := by rw [hlen, hb]; rfl
    exact iff_of_true (exact_done hc) trivial
  | cons byte rest ih =>
    have hc : f.count ≠ 0 := by rw [hlen, hb]; simp
    have hcount : f.count = rest.length + 1 := by rw [hlen, hb]; rfl
    have hend : f.offset + 1 + (f.count - 1) = f.offset + f.count := by omega
    by_cases hsys : isSystemByte platform f.parser.capabilities byte = true
    · obtain ⟨howto, -, hcmd⟩ := parserFeedCommand_system platform hsys
      have hnext := @ih ((f.advance 1 (f.count - 1)).perform f.parser [.queueReboot howto]) hs h
        (by simp [Feed.perform, Feed.advance, hb, hcount])
        (by simp [Feed.perform, Feed.advance, hb])
      rw [exact_step hc (parserFeedStep_command hs hb hcmd) hend, hnext, CommandsTakeNoName,
        CommandsTakeNoName, List.dropWhile_cons_of_pos hsys]
      rfl
    · have hdrop : (byte :: rest).dropWhile (isSystemByte platform f.parser.capabilities) =
          byte :: rest := by simp [hsys]
      rw [CommandsTakeNoName, hdrop]
      rcases parserFeedCommand_cases platform byte h (by simpa using hsys) with
        ⟨hhas, hcmd⟩ | ⟨hhas, hbit, hcmd⟩ | ⟨hhas, hbit, state, hname, hcmd⟩
      · rw [exact_step hc (parserFeedStep_command hs hb hcmd) hend]
        simp only [hhas, Bool.false_eq_true, if_false]
        exact iff_of_true (exact_invalid rfl) trivial
      · rw [exact_step hc (parserFeedStep_command hs hb hcmd) hend,
          exact_capabilities rfl (Nat.zero_lt_succ 3)
            (by simp [Feed.perform, Feed.advance, hb, hcount])]
        simp only [hhas, if_true, if_pos hbit]
        simp [Feed.perform, Feed.advance, hb]
      · rw [exact_step hc (parserFeedStep_command hs hb hcmd) hend,
          exact_name hname (by simp [Feed.perform, Feed.advance, hb, hcount])]
        simp [hhas, hbit, Feed.perform, Feed.advance, hb]

/-- The shape of a chunk decides whether it is read exactly. -/
theorem Feed.exact_iff {f : Feed} (h : f.parser.Authorized) (hlen : f.count = f.buffer.length) :
    f.Exact platform ↔ ChunkTakesNoName platform f.parser f.buffer := by
  unfold ChunkTakesNoName
  cases hs : f.parser.state <;> simp only
  case command => exact exact_command hs h hlen
  case endpointCreateCapabilities => exact exact_capabilities hs (h.size hs) hlen
  case invalid => exact iff_of_true (exact_invalid hs) trivial
  all_goals exact exact_name (by rw [hs]; rfl) hlen

/-- The same loop with more memory after the cursor. -/
def Feed.extend (f : Feed) (tail : List UInt8) : Feed := { f with buffer := f.buffer ++ tail }

/-- Inside of the memory, the rest of it is not looked at. -/
theorem memchr_append {byte : UInt8} {buffer : List UInt8} {count : Nat} (tail : List UInt8)
    (h : count ≤ buffer.length) :
    memchr byte (buffer ++ tail) count = memchr byte buffer count := by
  rw [memchr_of_le h, memchr_of_le (by rw [List.length_append]; omega),
    List.take_append_of_le_length h]

/-- An iteration whose count is inside of the memory does not look further. -/
theorem nameFill_extend {f : Feed} (tail : List UInt8) (hlen : f.count = f.buffer.length) :
    nameFill (f.extend tail) = (nameFill f).map (Option.map (Feed.extend · tail)) := by
  have hle := fragmentLength_le f.buffer
  rw [nameFill_exact hlen, nameFill]
  change (memchr 0 (f.buffer ++ tail) f.count >>= fun nul =>
    nameFillFragment (f.extend tail) (fragmentUpTo nul f.count)) = _
  rw [memchr_append tail hlen.le, memchr_of_le hlen.le, hlen, List.take_length, except_bind_ok]
  change nameFillFragment (f.extend tail) (fragmentLength f.buffer) = _
  have htake : (f.buffer ++ tail).take (fragmentLength f.buffer) =
      f.buffer.take (fragmentLength f.buffer) := List.take_append_of_le_length hle
  have hdrop : (f.buffer ++ tail).drop (fragmentLength f.buffer) =
      f.buffer.drop (fragmentLength f.buffer) ++ tail := List.drop_append_of_le_length hle
  rw [nameFillFragment]
  change (if nameMax + 1 < f.parser.name.length + fragmentLength f.buffer then _ else
    memchr byteSlash (f.buffer ++ tail) (fragmentLength f.buffer) >>= _) = _
  rw [memchr_append tail hle, memchr_of_le hle]
  by_cases hrej : NameRejected f.parser.name f.buffer
  · rw [if_pos hrej]
    rcases hrej with hlong | hslash
    · rw [if_pos hlong]
      rfl
    · split
      · rfl
      · rw [except_bind_ok, if_pos (by simpa using hslash)]
        rfl
  · rw [if_neg hrej, if_neg (fun h => hrej (Or.inl h)), except_bind_ok,
      if_neg (by simpa using fun h => hrej (Or.inr h))]
    simp [Feed.filled, Feed.extend, Feed.advance, htake, hdrop, Except.map]

@[simp] theorem Feed.named_extend (g : Feed) (tail : List UInt8) :
    (g.extend tail).named = g.named.extend tail := by
  unfold Feed.named
  by_cases hlast : g.parser.name.getLast? = some 0
  · rw [if_pos hlast]
    exact if_pos hlast
  · rw [if_neg hlast]
    exact if_neg hlast

/-- An exact iteration is the same one in a larger memory. -/
theorem parserFeedStep_extend {f f' : Feed} (tail : List UInt8) (hc : f.count ≠ 0)
    (hlen : f.count = f.buffer.length) (h : parserFeedStep platform f = .ok f') :
    parserFeedStep platform (f.extend tail) = .ok (f'.extend tail) := by
  have hfill := nameFill_extend tail hlen
  cases parserFeedStep_cases hc h with
  | command hs hb hcmd =>
    simp only [parserFeedStep, Feed.extend, hs, hb, List.cons_append, hcmd, except_bind_ok]
    simp [Feed.perform, Feed.advance, hb]
  | capability hs hb =>
    simp only [parserFeedStep, Feed.extend, hs, hb, List.cons_append]
    simp [Feed.perform, Feed.advance, hb]
  | rejected hs hread hr =>
    rw [hr] at hfill
    exact @parserFeedStep_rejected platform (f.extend tail) hs hfill
  | accepted hs hpos hread hr =>
    rw [hr] at hfill
    rw [@parserFeedStep_accepted platform (f.extend tail) _ hs hc hfill, Feed.named_extend]
  | discarded hs =>
    simp only [parserFeedStep, Feed.extend, hs]
    simp [Feed.advance, hlen]

/-- An exact run is the same one in a larger memory. -/
theorem Feed.Exact.stale {f : Feed} (hlen : f.count = f.buffer.length) (h : f.Exact platform)
    (tail : List UInt8) :
    parserFeedRun platform (f.extend tail) =
      ((parserFeedRun platform f).1.extend tail, .returned) := by
  induction f using parserFeedRun_induction platform with
  | done f hc =>
    have hc' : (f.extend tail).count = 0 := hc
    rw [parserFeedRun_done platform hc, parserFeedRun_done platform hc']
  | trap f t hc hf =>
    rw [Feed.Exact, parserFeedRun_trap hc hf] at h
    cases h.1
  | step f f' hc hf ih =>
    have hc' : (f.extend tail).count ≠ 0 := hc
    rw [parserFeedRun_step hc hf, parserFeedRun_step hc' (parserFeedStep_extend tail hc hlen hf)]
    cases parserFeedStep_move hc hf with
    | byte hne hb hcount ho hs =>
      have := List.length_pos_iff.mpr hne
      exact ih (by rw [hb, List.length_drop]; omega) ((exact_step hc hf (by omega)).mp h)
    | fill len hpos hread hb hcount ho hs =>
      exact absurd h (not_exact_step hc hf (by omega))
    | reject hne hb hcount ho hi hs =>
      exact ih (by rw [hb]; omega) ((exact_step hc hf (by omega)).mp h)
    | discard hi hn =>
      subst hn
      exact ih (by simp [Feed.advance, hlen]) ((exact_step hc hf rfl).mp h)

/-- For every reachable parser and every chunk, the chunk is read as it should be
exactly when it takes no name fragment. -/
theorem feedsChunk_iff {capabilities : Capset} (hall : Capset.Included capabilities capsetAll)
    {parser : Parser} (hp : ParserReachable platform capabilities parser) (chunk : List UInt8) :
    FeedsChunk platform parser chunk ↔ ChunkTakesNoName platform parser chunk := by
  have hexact := @Feed.exact_iff platform ⟨parser, chunk, chunk.length, 0, []⟩
    (hp.authorized hall).1 rfl
  have hoff : (0 : Nat) + chunk.length = chunk.length := Nat.zero_add _
  constructor
  · rintro ⟨hr, hc, -⟩
    exact hexact.mp ⟨hr, hc.trans hoff.symm⟩
  · intro h
    have he := hexact.mpr h
    refine ⟨he.1, he.2.trans hoff, fun tail => ?_⟩
    have hstale := Feed.Exact.stale rfl he tail
    change parserFeed platform parser (chunk ++ tail) chunk.length = _ at hstale
    rw [hstale]
    exact ⟨rfl, rfl, rfl⟩

/-- A parser that has read a power off and the beginning of a request to create an endpoint. -/
def begunParser : Parser :=
  (parserFeed ⟨.little, true⟩ (connectionParser capsetAll) [5, 0, 0, 0] 4).1.parser

/-- The rest of this request, with the name `a/b`, is read exactly: the name is rejected, and the
power off after it is not performed. -/
theorem feedsChunk_iff_rejected :
    FeedsChunk ⟨.little, true⟩ begunParser [0, 6, 97, 47, 98, 0, 5] ∧
      (parserFeed ⟨.little, true⟩ begunParser [0, 6, 97, 47, 98, 0, 5] 7).1.actions = [] := by
  have hreached : ParserReachable ⟨.little, true⟩ capsetAll begunParser :=
    .read [5, 0, 0, 0] 4 .accepted
  have hstate : begunParser.state = .endpointCreateCapabilities := by decide
  have hrejected : TakesNoName [] (List.drop (4 - begunParser.size) [0, 6, 97, 47, 98, 0, 5]) :=
    Or.inr (by decide)
  refine ⟨(feedsChunk_iff (by decide) hreached _).mpr ?_, by decide⟩
  rw [ChunkTakesNoName, hstate]
  exact hrejected

/-- Starting the daemon `a` reads past the chunk; five stale bytes in the buffer
power the machine off. -/
theorem feedsChunk_start_fails :
    ¬ FeedsChunk ⟨.little, true⟩ (connectionParser capsetAll) [1, 97, 0] ∧
    (parserFeed ⟨.little, true⟩ (connectionParser capsetAll) [1, 97, 0] 3).2 =
      .trapped .outOfBounds ∧
    (parserFeed ⟨.little, true⟩ (connectionParser capsetAll) [1, 97, 0, 5, 255, 9, 9] 3).1.actions =
      [.daemon .daemonStart [97], .queueReboot .powerOff] := by
  refine ⟨fun h => ?_, by decide, by decide⟩
  have hr := h.returned
  revert hr
  decide

end Cyberd
