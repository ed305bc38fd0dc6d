import Cyberd.Connection.Bytes

/-!
# Chunks of a stream

The same stream read at once and in chunks, each read getting nothing but its chunk. As
long as every run stays inside of its chunk, the cuts are not seen; the first run that
leaves its chunk is the one that tells.
-/

namespace Cyberd

open Library

/-- What successive reads of a connection have led to. -/
structure Fed where
  /-- The parser. -/
  parser : Parser
  /-- The performed actions. -/
  actions : List Action
  /-- How the last call of `parser_feed` ended. -/
  ending : FeedEnd
  deriving DecidableEq, Repr

/-- The reads of a connection, one after the other as long as they return. -/
def feedReads (platform : Platform) : Parser → List (List UInt8) → Fed
  | parser, [] => ⟨parser, [], .returned⟩
  | parser, chunk :: chunks =>
    let (f, ending) := parserFeed platform parser chunk chunk.length
    if ending = .returned then
      let rest := feedReads platform f.parser chunks
      { rest with actions := f.actions ++ rest.actions }
    else ⟨f.parser, f.actions, ending⟩

/-- The same state, with the same pending name or the same partial capability word. -/
structure Parser.Equivalent (p q : Parser) : Prop where
  state : p.state = q.state
  name : p.state.isName = true → p.name = q.name
  word : p.state = .endpointCreateCapabilities → p.word = q.word ∧ p.size = q.size
  requested : p.state = .endpointCreateName → p.requested = q.requested

/-- No difference can be observed: the same actions, the same fault if there is one, and
otherwise an equivalent parser. -/
structure Fed.Same (a b : Fed) : Prop where
  actions : a.actions = b.actions
  ending : a.ending = b.ending
  parser : a.ending = .returned → a.parser.Equivalent b.parser

/-- What the runs on these chunks let be seen of the cuts: every run stays inside of its
chunk, or the first one that does not leaves the whole stream too, and the chunks after it
ask for nothing. -/
def CutsUnseen (platform : Platform) : Parser → List (List UInt8) → Prop
  | _, [] => True
  | parser, chunk :: chunks =>
    let r := (⟨parser, [], none⟩ : Reading).bytes platform chunk
    if staysInside platform 0 false parser chunk then
      r.stop.isSome ∨ CutsUnseen platform r.parser chunks
    else
      staysInside platform 0 false parser (chunk ++ chunks.flatten) = false ∧
        (r.bytes platform chunks.flatten).actions = r.actions

variable {platform : Platform} {r : Reading}

/-- A null byte in the front ends the same fragment. -/
theorem fragmentLength_append_of_mem {front : List UInt8} (h : (0 : UInt8) ∈ front)
    (back : List UInt8) : fragmentLength (front ++ back) = fragmentLength front := by
  obtain ⟨before, after, rfl, hbefore⟩ := List.eq_append_cons_of_mem h
  rw [List.append_assoc, List.cons_append, fragmentLength_of_first hbefore,
    fragmentLength_of_first hbefore]

/-- More bytes do not make a fragment shorter. -/
theorem fragmentLength_le_append (front back : List UInt8) :
    fragmentLength front ≤ fragmentLength (front ++ back) := by
  by_cases hfront : (0 : UInt8) ∈ front
  · rw [fragmentLength_append_of_mem hfront]
  · rw [fragmentLength_of_notMem hfront]
    by_cases hback : (0 : UInt8) ∈ back
    · obtain ⟨before, after, rfl, hbefore⟩ := List.eq_append_cons_of_mem hback
      rw [← List.append_assoc, fragmentLength_of_first (by simp [hfront, hbefore]),
        List.length_append]
      omega
    · rw [fragmentLength_of_notMem (by simp [hfront, hback]), List.length_append]
      exact Nat.le_add_right _ _

/-- Bytes behind a rejected fragment do not change that it is rejected. -/
theorem NameRejected.append {name front : List UInt8} (h : NameRejected name front)
    (back : List UInt8) : NameRejected name (front ++ back) := by
  have hle := fragmentLength_le_append front back
  rcases h with hlong | hslash
  · exact Or.inl (by omega)
  · right
    apply (List.take_subset_take_left _ hle)
    rw [List.take_append_of_le_length (fragmentLength_le front)]
    exact hslash

/-- Where a run that stays inside of the front goes on. -/
structure InsideFront (platform : Platform) (loose : Bool) (r : Reading) (front : List UInt8) :
    Prop where
  /-- A reader that gives up leaves the rest of the stream alone. -/
  gaveUp : ∀ back, (r.bytes platform front).stop.isSome = true ∨
    (r.bytes platform front).parser.state = .invalid →
    staysInside platform 0 loose r.parser (front ++ back) = true
  /-- A reader that goes on has taken no fragment. -/
  goesOn : ∀ back, (r.bytes platform front).stop = none →
    (r.bytes platform front).parser.state ≠ .invalid →
    loose = false ∧ staysInside platform 0 loose r.parser (front ++ back) =
      staysInside platform 0 false (r.bytes platform front).parser back

/-- An invalid parser stays inside of any bytes. -/
theorem staysInside_invalid {loose : Bool} {parser : Parser} (h : parser.state = .invalid)
    (bytes : List UInt8) : staysInside platform 0 loose parser bytes = true := by
  cases bytes with
  | nil => rw [staysInside, decide_eq_true h, Bool.or_true]
  | cons byte rest => rw [staysInside, h]

/-- A byte that the run reads as the reader does. -/
theorem InsideFront.cons {loose : Bool} {byte : UInt8} {front : List UInt8}
    (hinside : ∀ bytes, staysInside platform 0 loose r.parser (byte :: bytes) =
      staysInside platform 0 loose (r.byte platform byte).parser bytes)
    (h : InsideFront platform loose (r.byte platform byte) front) :
    InsideFront platform loose r (byte :: front) := by
  constructor
  · intro back hover
    rw [List.cons_append, hinside]
    exact h.gaveUp back hover
  · intro back hstop hstate
    rw [List.cons_append, hinside]
    exact h.goesOn back hstop hstate

/-- A rejected name ends the run. -/
theorem InsideFront.rejected {loose : Bool} {front : List UInt8}
    (hs : r.parser.state.isName = true) (hstop : r.stop = none) (hp : r.parser.NameFormed)
    (hne : front ≠ []) (hrej : NameRejected r.parser.name front)
    (hloose : (0 : UInt8) ∈ front ∨ loose = false) : InsideFront platform loose r front := by
  have hrejects := @Reading.bytes_nameRejected platform r front hs hstop hp.length_le hrej
  constructor
  · intro back _
    rw [staysInside_name hs (by simp [hne]), decide_eq_true (hrej.append back)]
    split
    · rfl
    · rename_i hnul
      rcases hloose with hmem | hloose
      · exact absurd (List.mem_append_left back hmem) hnul
      · rw [hloose]
        rfl
  · intro back _ hstate
    exact absurd hrejects.state hstate

/-- A completed name is followed by the run on the rest, which no longer may end there. -/
theorem InsideFront.named {loose : Bool} {front : List UInt8}
    (hs : r.parser.state.isName = true) (hstop : r.stop = none)
    (hnul : (0 : UInt8) ∈ front) (hrej : ¬ NameRejected r.parser.name front)
    (h : InsideFront platform true
      { r with parser := r.parser.longer (front.take (fragmentLength front)) }.complete
      (front.drop (fragmentLength front))) : InsideFront platform loose r front := by
  have hne : front ≠ [] := List.ne_nil_of_mem hnul
  obtain ⟨hread, -⟩ := @Reading.bytes_named platform r front hs hstop hnul hrej
  have hbytes : r.bytes platform front =
      ({ r with parser := r.parser.longer (front.take (fragmentLength front)) } :
        Reading).complete.bytes platform (front.drop (fragmentLength front)) := by
    conv_lhs => rw [← List.take_append_drop (fragmentLength front) front]
    rw [Reading.bytes_append, hread]
  constructor
  · intro back hover
    rw [hbytes] at hover
    rw [staysInside_name hs (by simp [hne]), if_pos (List.mem_append_left back hnul),
      fragmentLength_append_of_mem hnul, List.take_append_of_le_length (fragmentLength_le front),
      List.drop_append_of_le_length (fragmentLength_le front)]
    have hrest := h.gaveUp back hover
    rw [Bool.or_eq_true]
    exact Or.inr hrest
  · intro back hstop' hstate
    rw [hbytes] at hstop' hstate
    cases (h.goesOn back hstop' hstate).1

/-- A completed name is inside of its buffer. -/
theorem Reading.complete_nameFormed {front : List UInt8}
    (hrej : ¬ NameRejected r.parser.name front) :
    ({ r with parser := r.parser.longer (front.take (fragmentLength front)) } :
      Reading).complete.parser.NameFormed := by
  rw [NameRejected, not_or] at hrej
  constructor
  · simp only [Reading.complete, Parser.longer, List.length_append, List.length_take]
    omega
  · intro hs
    cases hs

/-- A command byte of a run that stays inside. -/
theorem InsideFront.command {loose : Bool} {byte : UInt8} {front : List UInt8}
    (hs : r.parser.state = .command) (hstop : r.stop = none) (hp : r.parser.NameFormed)
    (h : staysInside platform 0 loose r.parser (byte :: front) = true)
    (ih : (r.byte platform byte).stop = none → (r.byte platform byte).parser.NameFormed →
      staysInside platform 0 loose (r.byte platform byte).parser front = true →
      InsideFront platform loose (r.byte platform byte) front) :
    InsideFront platform loose r (byte :: front) := by
  cases hcmd : parserFeedCommand r.parser (platform.byteCapability byte) with
  | ok result =>
    obtain ⟨parser, actions⟩ := result
    have hbyte : r.byte platform byte =
        { r with parser := parser, actions := r.actions ++ actions } := by
      simp [Reading.byte, hstop, hs, hcmd]
    have hinside : ∀ bytes, staysInside platform 0 loose r.parser (byte :: bytes) =
        staysInside platform 0 loose (r.byte platform byte).parser bytes := by
      intro bytes
      rw [staysInside, hs, hbyte]
      simp only [hcmd]
    rw [hinside] at h
    apply InsideFront.cons hinside
    apply ih _ _ h
    · rw [hbyte]
      exact hstop
    · rw [hbyte]
      exact (parserFeedCommand_nameFormed hp hcmd).1
  | error trap =>
    have hbyte : r.byte platform byte = { r with stop := some trap } := by
      simp [Reading.byte, hstop, hs, hcmd]
    constructor
    · intro back _
      rw [List.cons_append, staysInside, hs]
      simp only [hcmd]
    · intro back hstop'
      rw [Reading.bytes, List.foldl_cons, hbyte] at hstop'
      have hsame := @Reading.bytes_stop platform { r with stop := some trap } rfl front
      rw [Reading.bytes] at hsame
      rw [hsame] at hstop'
      cases hstop'

/-- What stays inside of the front is what stays inside of a longer stream. -/
theorem staysInside_front (front : List UInt8) {loose : Bool} (hstop : r.stop = none)
    (hp : r.parser.NameFormed) (h : staysInside platform 0 loose r.parser front = true) :
    InsideFront platform loose r front := by
  induction hn : front.length using Nat.strong_induction_on generalizing front loose r with
  | _ n ih =>
    cases front with
    | nil =>
      have hend : loose = false ∨ r.parser.state = .invalid := by
        simpa [staysInside] using h
      constructor
      · intro back hover
        rcases hover with hover | hover
        · rw [Reading.bytes, List.foldl_nil, hstop] at hover
          cases hover
        · exact staysInside_invalid hover back
      · intro back _ hstate
        have hloose := hend.resolve_right hstate
        rw [hloose]
        exact ⟨rfl, rfl⟩
    | cons byte rest =>
      have hne : byte :: rest ≠ [] := List.cons_ne_nil _ _
      rw [List.length_cons] at hn
      cases hname : r.parser.state.isName with
      | true =>
        rw [staysInside_name hname hne] at h
        split at h
        · rename_i hnul
          by_cases hrej : NameRejected r.parser.name (byte :: rest)
          · exact .rejected hname hstop hp hne hrej (Or.inl hnul)
          · rw [decide_eq_false hrej, Bool.false_or] at h
            have hpos := fragmentLength_pos hne
            have hlt : ((byte :: rest).drop (fragmentLength (byte :: rest))).length < n := by
              rw [List.length_drop, List.length_cons]
              omega
            have hformed := Reading.complete_nameFormed hrej
            exact .named hname hstop hnul hrej (ih _ hlt _ hstop hformed h rfl)
        · rename_i hnul
          rw [Bool.and_eq_true, decide_eq_true_eq] at h
          exact .rejected hname hstop hp hne h.2 (Or.inr (by simpa using h.1))
      | false =>
        cases hs : r.parser.state
        case invalid =>
          constructor
          · intro back _
            exact staysInside_invalid hs _
          · intro back _ hstate
            rw [Reading.bytes_invalid hs] at hstate
            exact absurd hs hstate
        case endpointCreateCapabilities =>
          have hbyte : r.byte platform byte =
              { r with parser := parserFeedCapability platform r.parser byte } := by
            simp [Reading.byte, hstop, hs]
          have hinside : ∀ bytes, staysInside platform 0 loose r.parser (byte :: bytes) =
              staysInside platform 0 loose (r.byte platform byte).parser bytes := by
            intro bytes
            rw [staysInside, hs, hbyte]
          apply InsideFront.cons hinside
          rw [hinside] at h
          rw [hbyte] at h ⊢
          exact ih rest.length (by omega) rest hstop
            (parserFeedCapability_nameFormed byte hs hp) h rfl
        case command =>
          apply InsideFront.command hs hstop hp h
          intro hstop' hformed h'
          exact ih rest.length (by omega) rest hstop' hformed h' rfl
        all_goals
          rw [hs] at hname
          cases hname

/-- The same reading after other actions. -/
def Reading.after (r : Reading) (actions : List Action) : Reading :=
  { r with actions := actions ++ r.actions }

/-- What was asked for before does not matter for a byte. -/
theorem Reading.byte_after (r : Reading) (actions : List Action) (byte : UInt8) :
    (r.after actions).byte platform byte = (r.byte platform byte).after actions := by
  unfold Reading.byte Reading.after
  simp only
  split
  · rfl
  · cases r.parser.state <;> simp only
    case command =>
      cases parserFeedCommand r.parser (platform.byteCapability byte) with
      | ok result => simp
      | error trap => rfl
    all_goals
      unfold Reading.nameByte Reading.complete
      simp only
      split
      · rfl
      · split
        · simp
        · rfl

/-- What was asked for before does not matter for a stream. -/
theorem Reading.bytes_after (r : Reading) (actions : List Action) (stream : List UInt8) :
    (r.after actions).bytes platform stream = (r.bytes platform stream).after actions := by
  induction stream generalizing r with
  | nil => rfl
  | cons byte stream ih =>
    rw [Reading.bytes, List.foldl_cons, Reading.byte_after]
    exact ih (r.byte platform byte)

/-- A command stops for the default case of its switch only. -/
theorem parserFeedCommand_error {parser : Parser} {capability : Capset} {t : Trap}
    (h : parserFeedCommand parser capability = .error t) : t = .abort := by
  have heffect := parserFeedCommand_effect parser capability
  rw [h] at heffect
  cases heffect with
  | unknown => rfl

/-- The reader never leaves its bytes. -/
theorem Reading.bytes_stop_ne (stream : List UInt8) (h : r.stop ≠ some .outOfBounds) :
    (r.bytes platform stream).stop ≠ some .outOfBounds := by
  induction stream generalizing r with
  | nil => exact h
  | cons byte stream ih =>
    rw [Reading.bytes, List.foldl_cons]
    apply ih
    unfold Reading.byte
    split
    · exact h
    · cases r.parser.state <;> simp only
      case command =>
        cases hcmd : parserFeedCommand r.parser (platform.byteCapability byte) with
        | ok result => exact h
        | error trap =>
          simp only
          rw [parserFeedCommand_error hcmd]
          decide
      all_goals first
        | exact h
        | unfold Reading.nameByte Reading.complete
          split
          · exact h
          · split
            · exact h
            · exact h

/-- The reads did what the reader does, and ended as the shape of the stream tells. -/
structure Fed.Matches (a : Fed) (r : Reading) (inside : Bool) : Prop where
  actions : a.actions = r.actions
  ending : a.ending = .ofReading r inside
  parser : a.ending = .returned → a.parser.Agrees r.parser

/-- Parsers that agree with the same one are equivalent. -/
theorem Parser.Agrees.equivalent {p q s : Parser} (hp : p.Agrees s) (hq : q.Agrees s) :
    p.Equivalent q := by
  rcases hp with rfl | ⟨hp, hs⟩
  · rcases hq with rfl | ⟨hq, hp⟩
    · exact ⟨rfl, fun _ => rfl, fun _ => ⟨rfl, rfl⟩, fun _ => rfl⟩
    · constructor <;> simp [hp, hq, ParserState.isName]
  · have hq : q.state = .invalid := by
      rcases hq with rfl | ⟨hq, -⟩
      · exact hs
      · exact hq
    constructor <;> simp [hp, hq, ParserState.isName]

/-- Reads that match the same reading cannot be told apart. -/
theorem Fed.Matches.same {a b : Fed} {inside : Bool} (ha : a.Matches r inside)
    (hb : b.Matches r inside) : a.Same b := by
  constructor
  · rw [ha.actions, hb.actions]
  · rw [ha.ending, hb.ending]
  · intro hr
    have hr' : b.ending = .returned := by rw [hb.ending, ← ha.ending, hr]
    exact (ha.parser hr).equivalent (hb.parser hr')

theorem Parser.Equivalent.symm {p q : Parser} (h : p.Equivalent q) : q.Equivalent p := by
  obtain ⟨hs, hn, hw, hr⟩ := h
  constructor
  · exact hs.symm
  · exact fun h => (hn (hs ▸ h)).symm
  · exact fun h => ⟨(hw (hs.trans h)).1.symm, (hw (hs.trans h)).2.symm⟩
  · exact fun h => (hr (hs.trans h)).symm

theorem Parser.Equivalent.trans {p q s : Parser} (h : p.Equivalent q) (h' : q.Equivalent s) :
    p.Equivalent s := by
  obtain ⟨hs, hn, hw, hr⟩ := h
  obtain ⟨hs', hn', hw', hr'⟩ := h'
  constructor
  · exact hs.trans hs'
  · exact fun h => (hn h).trans (hn' (hs ▸ h))
  · intro h
    have h' := hs.symm.trans h
    exact ⟨(hw h).1.trans (hw' h').1, (hw h).2.trans (hw' h').2⟩
  · exact fun h => (hr h).trans (hr' (hs.symm.trans h))

theorem Fed.Same.symm {a b : Fed} (h : a.Same b) : b.Same a :=
  ⟨h.actions.symm, h.ending.symm, fun hr => (h.parser (h.ending.trans hr)).symm⟩

theorem Fed.Same.trans {a b c : Fed} (h : a.Same b) (h' : b.Same c) : a.Same c :=
  ⟨h.actions.trans h'.actions, h.ending.trans h'.ending,
    fun hr => (h.parser hr).trans (h'.parser (h.ending.symm.trans hr))⟩

/-- One read of a chunk. -/
theorem parserFeed_matches {parser : Parser} (hp : parser.NameFormed) (chunk : List UInt8) :
    Fed.Matches ⟨(parserFeed platform parser chunk chunk.length).1.parser,
        (parserFeed platform parser chunk chunk.length).1.actions,
        (parserFeed platform parser chunk chunk.length).2⟩
      ((⟨parser, [], none⟩ : Reading).bytes platform chunk)
      (staysInside platform 0 false parser chunk) := by
  obtain ⟨hactions, hending, hparser⟩ :=
    @parserFeedRun_reads platform ⟨parser, chunk, chunk.length, 0, []⟩ hp le_rfl
  have hloose : Feed.loose ⟨parser, chunk, chunk.length, 0, []⟩ = false := by simp [Feed.loose]
  rw [hloose] at hending
  exact ⟨hactions, hending, hparser⟩

/-- Reads whose first one returns. -/
theorem feedReads_cons {parser : Parser} {chunk : List UInt8} (chunks : List (List UInt8))
    (h : (parserFeed platform parser chunk chunk.length).2 = .returned) :
    feedReads platform parser (chunk :: chunks) =
      { feedReads platform (parserFeed platform parser chunk chunk.length).1.parser chunks with
        actions := (parserFeed platform parser chunk chunk.length).1.actions ++
          (feedReads platform (parserFeed platform parser chunk chunk.length).1.parser
            chunks).actions } := by
  rw [feedReads]
  simp only [h, if_true]

/-- Reads whose first one does not return. -/
theorem feedReads_stopped {parser : Parser} {chunk : List UInt8} (chunks : List (List UInt8))
    (h : (parserFeed platform parser chunk chunk.length).2 ≠ .returned) :
    feedReads platform parser (chunk :: chunks) =
      ⟨(parserFeed platform parser chunk chunk.length).1.parser,
        (parserFeed platform parser chunk chunk.length).1.actions,
        (parserFeed platform parser chunk chunk.length).2⟩ := by
  rw [feedReads]
  simp only [h, if_false]

/-- A whole stream in one read. -/
theorem feedReads_once {parser : Parser} (hp : parser.NameFormed) (stream : List UInt8) :
    (feedReads platform parser [stream]).Matches
      ((⟨parser, [], none⟩ : Reading).bytes platform stream)
      (staysInside platform 0 false parser stream) := by
  have hread := @parserFeed_matches platform parser hp stream
  by_cases h : (parserFeed platform parser stream stream.length).2 = .returned
  · rw [feedReads_cons [] h, feedReads, List.append_nil]
    rw [h] at hread
    exact hread
  · rw [feedReads_stopped [] h]
    exact hread

/-- An invalid connection reads anything without an effect. -/
theorem feedReads_invalid {parser : Parser} (h : parser.state = .invalid)
    (chunks : List (List UInt8)) : feedReads platform parser chunks = ⟨parser, [], .returned⟩ := by
  induction chunks with
  | nil => rfl
  | cons chunk chunks ih =>
    obtain ⟨hr, hparser, hactions⟩ :=
      @parserFeedRun_inert platform ⟨parser, chunk, chunk.length, 0, []⟩ h
    rw [feedReads_cons chunks hr]
    simp only [parserFeed, hparser, hactions, ih]
    rfl

/-- No cut is seen by an invalid connection. -/
theorem cutsUnseen_invalid {parser : Parser} (h : parser.state = .invalid)
    (chunks : List (List UInt8)) : CutsUnseen platform parser chunks := by
  induction chunks with
  | nil => trivial
  | cons chunk chunks ih =>
    simp only [CutsUnseen]
    rw [if_pos (staysInside_invalid h chunk), @Reading.bytes_invalid platform ⟨parser, [], none⟩ h]
    exact Or.inr ih

/-- The same reads after other actions. -/
def Fed.after (a : Fed) (actions : List Action) : Fed :=
  { a with actions := actions ++ a.actions }

/-- What was performed before does not matter. -/
theorem Fed.Matches.after {a : Fed} {inside : Bool} (h : a.Matches r inside)
    (actions : List Action) : (a.after actions).Matches (r.after actions) inside := by
  obtain ⟨hactions, hending, hparser⟩ := h
  refine ⟨?_, hending, hparser⟩
  rw [Fed.after, Reading.after, hactions]

/-- Actions that were performed before tell nothing apart. -/
theorem Fed.same_after {a b : Fed} (actions : List Action) :
    (a.after actions).Same (b.after actions) ↔ a.Same b := by
  constructor
  · intro h
    exact ⟨List.append_cancel_left h.actions, h.ending, h.parser⟩
  · intro h
    exact ⟨congrArg (actions ++ ·) h.actions, h.ending, h.parser⟩

/-- How a run ends that leaves its bytes. -/
theorem FeedEnd.ofReading_outOfBounds (h : r.stop ≠ some .outOfBounds) {inside : Bool} :
    FeedEnd.ofReading r inside = .trapped .outOfBounds ↔ inside = false := by
  unfold FeedEnd.ofReading
  cases inside with
  | false => simp
  | true =>
    cases hstop : r.stop with
    | none => simp
    | some trap =>
      rw [hstop] at h
      simpa using h

/-- Reads whose first one leaves its chunk, against the whole stream. -/
theorem feedReads_same_outside {a b : Fed} {rest : List UInt8} {inside : Bool}
    (hstop : r.stop ≠ some .outOfBounds) (ha : a.Matches r false)
    (hb : b.Matches (r.bytes platform rest) inside) :
    a.Same b ↔ inside = false ∧ (r.bytes platform rest).actions = r.actions := by
  have hstop' := @Reading.bytes_stop_ne platform r rest hstop
  have haend : a.ending = .trapped .outOfBounds := ha.ending
  constructor
  · intro h
    have hend : FeedEnd.ofReading (r.bytes platform rest) inside = .trapped .outOfBounds := by
      rw [← hb.ending, ← h.ending, haend]
    refine ⟨(FeedEnd.ofReading_outOfBounds hstop').mp hend, ?_⟩
    rw [← hb.actions, ← h.actions, ha.actions]
  · rintro ⟨hinside, hactions⟩
    constructor
    · rw [ha.actions, hb.actions, hactions]
    · rw [haend, hb.ending, hinside]
      rfl
    · intro hr
      rw [haend] at hr
      cases hr

/-- Reads on the chunks and on the whole stream, run by run. -/
theorem feedReads_same_iff (chunks : List (List UInt8)) {parser : Parser}
    (hp : parser.NameFormed) :
    (feedReads platform parser chunks).Same (feedReads platform parser [chunks.flatten]) ↔
      CutsUnseen platform parser chunks := by
  induction chunks generalizing parser with
  | nil =>
    have honce := @feedReads_once platform parser hp []
    have hnone : (feedReads platform parser []).Matches ⟨parser, [], none⟩ true :=
      ⟨rfl, rfl, fun _ => Or.inl rfl⟩
    exact iff_of_true (hnone.same honce) trivial
  | cons chunk chunks ih =>
    have honce := @feedReads_once platform parser hp (chunk :: chunks).flatten
    rw [List.flatten_cons] at honce ⊢
    rw [Reading.bytes_append] at honce
    have hread := @parserFeed_matches platform parser hp chunk
    have hstopped := @Reading.bytes_stop_ne platform ⟨parser, [], none⟩ chunk (by simp)
    have hformed := @parserFeedRun_names platform ⟨parser, chunk, chunk.length, 0, []⟩ hp
    have hfront := @staysInside_front platform ⟨parser, [], none⟩ chunk false rfl hp
    simp only [CutsUnseen]
    generalize hr : (⟨parser, [], none⟩ : Reading).bytes platform chunk = r at *
    cases hinside : staysInside platform 0 false parser chunk with
    | false =>
      rw [hinside] at hread
      have hout : (parserFeed platform parser chunk chunk.length).2 = .trapped .outOfBounds :=
        hread.ending
      have hend : (parserFeed platform parser chunk chunk.length).2 ≠ .returned := by
        rw [hout]
        simp
      rw [feedReads_stopped chunks hend, if_neg (by simp)]
      exact feedReads_same_outside hstopped hread honce
    | true =>
      have hfront := hfront hinside
      rw [hinside] at hread
      rw [if_pos rfl]
      have hend : (parserFeed platform parser chunk chunk.length).2 = .ofReading r true :=
        hread.ending
      cases hstop : r.stop with
      | some trap =>
        -- the run aborts in this chunk, in both cases
        have hover := hfront.gaveUp chunks.flatten (Or.inl (by rw [hr, hstop]; rfl))
        rw [hover, Reading.bytes_stop (by rw [hstop]; rfl)] at honce
        have hend' : (parserFeed platform parser chunk chunk.length).2 ≠ .returned := by
          rw [hend, FeedEnd.ofReading, hstop]
          simp
        rw [feedReads_stopped chunks hend']
        exact iff_of_true (hread.same honce) (Or.inl rfl)
      | none =>
        have hend' : (parserFeed platform parser chunk chunk.length).2 = .returned := by
          rw [hend, FeedEnd.ofReading, hstop]
          rfl
        have hagrees := hread.parser hend'
        have hactions : (parserFeed platform parser chunk chunk.length).1.actions = r.actions :=
          hread.actions
        rw [feedReads_cons chunks hend', hactions]
        simp only [Option.isSome_none, Bool.false_eq_true, false_or]
        by_cases hstate : r.parser.state = .invalid
        · -- the rest of the stream is discarded, in both cases
          have hstate' : (parserFeed platform parser chunk chunk.length).1.parser.state =
              .invalid := by
            rcases hagrees with heq | ⟨hinvalid, -⟩
            · rw [← hstate]
              exact congrArg Parser.state heq
            · exact hinvalid
          have hover := hfront.gaveUp chunks.flatten (Or.inr (by rw [hr]; exact hstate))
          rw [hover, Reading.bytes_invalid hstate] at honce
          rw [feedReads_invalid hstate', List.append_nil]
          have hmany : Fed.Matches ⟨(parserFeed platform parser chunk chunk.length).1.parser,
              r.actions, .returned⟩ r true :=
            ⟨rfl, by rw [FeedEnd.ofReading, hstop]; rfl, fun _ => hagrees⟩
          exact iff_of_true (hmany.same honce) (cutsUnseen_invalid hstate chunks)
        · have hparser : (parserFeed platform parser chunk chunk.length).1.parser = r.parser := by
            rcases hagrees with heq | ⟨-, hinvalid⟩
            · exact heq
            · exact absurd hinvalid hstate
          have hformed' : r.parser.NameFormed := hparser ▸ hformed
          have hgoes := (hfront.goesOn chunks.flatten (by rw [hr]; exact hstop)
            (by rw [hr]; exact hstate)).2
          rw [hr] at hgoes
          have hsplit : r = (⟨r.parser, [], none⟩ : Reading).after r.actions := by
            rw [Reading.after, List.append_nil, ← hstop]
          rw [hgoes, hsplit, Reading.bytes_after] at honce
          have hlater := (@feedReads_once platform r.parser hformed' chunks.flatten).after r.actions
          have hsame := honce.same hlater
          rw [hparser, ← ih hformed']
          refine Iff.trans ?_ (Fed.same_after r.actions)
          constructor
          · exact fun h => h.trans hsame
          · exact fun h => h.trans hsame.symm

end Cyberd
