import Cyberd.Connection.Chunk

/-!
# The names of a parser

A name is put together from fragments of any reads, and only a fragment without a
`'/'` that fits the buffer is taken. A null byte ends a fragment, so that a pending
name has none and a completed one ends with its only one.
-/

namespace Cyberd

open Library

/-- The states of the parser of a connection during these reads, each one given by the
memory from its buffer on and by its count. -/
inductive FeedVisited (platform : Platform) : Parser → List (List UInt8 × Nat) → Feed → Prop
  /-- A read begins. -/
  | begin (parser : Parser) (memory : List UInt8) (count : Nat)
      (reads : List (List UInt8 × Nat)) :
      FeedVisited platform parser ((memory, count) :: reads) ⟨parser, memory, count, 0, []⟩
  /-- The loop goes on. -/
  | step {parser : Parser} {reads : List (List UInt8 × Nat)} {f f' : Feed}
      (h : FeedVisited platform parser reads f) (hc : f.count ≠ 0)
      (hf : parserFeedStep platform f = .ok f') : FeedVisited platform parser reads f'
  /-- A later read is made with the parser that the first one leaves. -/
  | later {parser : Parser} {memory : List UInt8} {count : Nat}
      {reads : List (List UInt8 × Nat)} {f : Feed}
      (h : FeedVisited platform (parserFeed platform parser memory count).1.parser reads f) :
      FeedVisited platform parser ((memory, count) :: reads) f

/-- The names that an action passes on. -/
def Action.names : Action → List Name
  | .endpointCreate name _ => [name]
  | .daemon _ name => [name]
  | .queueReboot _ => []

/-- A string that fits the name buffer and stays in its directory. -/
structure ComponentName (name : Name) : Prop where
  /-- Its end is its first null byte. -/
  nul_free : (0 : UInt8) ∉ name
  /-- It names nothing below another directory. -/
  slash_free : byteSlash ∉ name
  /-- It has at most `NAME_MAX` bytes. -/
  length_le : name.length ≤ nameMax

/-- The name of a file to create in the directory of the endpoints. -/
structure EndpointName (name : Name) : Prop extends ComponentName name where
  /-- It is not the directory. -/
  nonempty : name ≠ []
  /-- It is neither hidden nor a way out of the directory. -/
  visible : name.head? ≠ some byteDot

/-- The path of an endpoint, `"%s/%s"`. -/
def endpointPath (directory name : Name) : Name := directory ++ byteSlash :: name

/-- The path names an entry of the directory: neither the directory itself or its parent,
nor anything in a directory below it. -/
def DirectChild (directory path : Name) : Prop :=
  ∃ entry, path = directory ++ byteSlash :: entry ∧ byteSlash ∉ entry ∧
    entry ≠ [] ∧ entry ≠ [byteDot] ∧ entry ≠ [byteDot, byteDot]

/-- What the code relies on when it handles names, in a state of the loop. -/
structure Feed.NamesFormed (platform : Platform) (f : Feed) : Prop where
  /-- The name is inside of its buffer. -/
  length_le : f.parser.name.length ≤ nameMax + 1
  /-- A pending name has no end yet. -/
  pending : f.parser.state.isName = true →
    (0 : UInt8) ∉ f.parser.name ∧ byteSlash ∉ f.parser.name
  /-- The last byte that is looked at is inside of the buffer. -/
  last : f.parser.state.isName = true → f.count ≠ 0 → ∀ g, nameFill f = .ok (some g) →
    1 ≤ g.parser.name.length ∧ g.parser.name.length ≤ nameMax + 1
  /-- A name is passed on with the null byte that ends it. -/
  passed : ∀ f', f.count ≠ 0 → parserFeedStep platform f = .ok f' →
    ∃ new, f'.actions = f.actions ++ new ∧ ∀ action ∈ new,
      (∀ name ∈ action.names, f'.parser.name = name ++ [0] ∧ ComponentName name) ∧
      ∀ name capabilities, action = .endpointCreate name capabilities →
        EndpointName name ∧ ∀ directory, DirectChild directory (endpointPath directory name)

variable {platform : Platform} {f f' g : Feed}

/-- A search that returns is one in the bytes of its count. -/
theorem memchr_ok {byte : UInt8} {buffer : List UInt8} {count : Nat} {r : Option Nat}
    (h : memchr byte buffer count = .ok r) : r = (buffer.take count).idxOf? byte := by
  induction buffer generalizing count r with
  | nil =>
    cases count with
    | zero =>
      cases h
      rfl
    | succ count => cases h
  | cons b buffer ih =>
    cases count with
    | zero =>
      cases h
      rfl
    | succ count =>
      rw [memchr] at h
      rw [List.take_succ_cons, List.idxOf?_cons]
      by_cases hb : b = byte
      · rw [if_pos hb] at h
        cases h
        rw [if_pos (by simpa using hb)]
      · rw [if_neg hb] at h
        obtain ⟨found, hf, hr⟩ := except_bind_eq_ok.mp h
        cases hr
        rw [if_neg (by simpa using hb), ih hf]

/-- A fragment that was taken fits, has no `'/'`, and a null byte can only be its last one. -/
theorem nameFill_some (hc : f.count ≠ 0) (h : nameFill f = .ok (some g)) :
    ∃ len, g = f.filled len ∧ 0 < len ∧ len ≤ f.buffer.length ∧
      f.parser.name.length + len ≤ nameMax + 1 ∧ byteSlash ∉ f.buffer.take len ∧
      ((0 : UInt8) ∉ f.buffer.take len ∨
        ∃ before, f.buffer.take len = before ++ [0] ∧ (0 : UInt8) ∉ before) := by
  obtain ⟨nul, hnul, h⟩ := except_bind_eq_ok.mp h
  have hfound := memchr_ok hnul
  have hbounds : 0 < fragmentUpTo nul f.count ∧ fragmentUpTo nul f.count ≤ f.buffer.length := by
    cases nul with
    | none => exact ⟨Nat.pos_of_ne_zero hc, memchr_none hnul⟩
    | some i => exact ⟨Nat.succ_pos i, (memchr_some hnul).2⟩
  rw [nameFillFragment] at h
  split at h
  · cases h
  · rename_i hlen
    obtain ⟨slash, hslash, h⟩ := except_bind_eq_ok.mp h
    cases slash with
    | some i => cases h
    | none =>
      cases h
      refine ⟨_, rfl, hbounds.1, hbounds.2, Nat.le_of_not_lt hlen, ?_, ?_⟩
      · exact List.idxOf?_eq_none_iff.mp (memchr_ok hslash).symm
      · cases nul with
        | none => exact Or.inl (List.idxOf?_eq_none_iff.mp hfound.symm)
        | some i =>
          right
          obtain ⟨hi, hget, hbefore⟩ := List.idxOf?_eq_some_iff.mp hfound.symm
          have hlt := (memchr_some hnul).1
          rw [List.length_take] at hi
          refine ⟨f.buffer.take i, ?_, fun hmem => ?_⟩
          · rw [fragmentUpTo, List.take_add_one, List.getElem?_eq_getElem (by omega)]
            rw [List.getElem_take] at hget
            rw [Option.toList_some, hget]
          · obtain ⟨j, hj, hzero⟩ := List.getElem_of_mem hmem
            rw [List.length_take] at hj
            have := hbefore j (by omega)
            rw [List.getElem_take] at hzero this
            exact this hzero

/-- The name buffer of a parser between two iterations. -/
structure Parser.NameFormed (parser : Parser) : Prop where
  /-- The name is inside of its buffer. -/
  length_le : parser.name.length ≤ nameMax + 1
  /-- A pending name has neither an end nor a `'/'`. -/
  pending : parser.state.isName = true → (0 : UInt8) ∉ parser.name ∧ byteSlash ∉ parser.name

/-- A name that begins is well formed. -/
theorem Parser.NameFormed.empty {parser : Parser} (h : parser.name = []) : parser.NameFormed := by
  constructor
  · rw [h]
    exact Nat.zero_le _
  · intro _
    rw [h]
    exact ⟨List.not_mem_nil, List.not_mem_nil⟩

/-- Without a pending name, only the bound of the buffer matters. -/
theorem Parser.NameFormed.rest {parser parser' : Parser} (h : parser.NameFormed)
    (hname : parser'.name = parser.name) (hs : parser'.state.isName = false) :
    parser'.NameFormed := by
  constructor
  · rw [hname]
    exact h.length_le
  · intro hs'
    rw [hs] at hs'
    cases hs'

/-- A command keeps the name buffer well formed, and passes no name on. -/
theorem parserFeedCommand_nameFormed {parser parser' : Parser} {capability : Capset}
    {actions : List Action} (hp : parser.NameFormed)
    (h : parserFeedCommand parser capability = .ok (parser', actions)) :
    parser'.NameFormed ∧ ∀ action ∈ actions, action.names = [] := by
  have heffect := parserFeedCommand_effect parser capability
  rw [h] at heffect
  cases heffect with
  | denied => exact ⟨hp.rest rfl rfl, by simp⟩
  | endpoint => exact ⟨hp.rest rfl rfl, by simp⟩
  | daemon state hname => exact ⟨.empty rfl, by simp⟩
  | reboot howto => exact ⟨hp, by simp [Action.names]⟩

/-- The capability bytes come before the name. -/
theorem parserFeedCapability_nameFormed {parser : Parser} (byte : UInt8)
    (hs : parser.state = .endpointCreateCapabilities) (hp : parser.NameFormed) :
    (parserFeedCapability platform parser byte).NameFormed := by
  unfold parserFeedCapability
  simp only
  split
  · exact .empty rfl
  · exact hp.rest rfl (by rw [hs]; rfl)

/-- A fragment that was taken either ends the name with its only null byte, or leaves it
pending. -/
theorem nameFill_nameFormed (hp : f.parser.NameFormed) (hs : f.parser.state.isName = true)
    (hc : f.count ≠ 0) (h : nameFill f = .ok (some g)) :
    1 ≤ g.parser.name.length ∧ g.parser.name.length ≤ nameMax + 1 ∧
      (g.parser.name.getLast? = some 0 →
        ∃ name, g.parser.name = name ++ [0] ∧ ComponentName name) ∧
      (g.parser.name.getLast? ≠ some 0 →
        (0 : UInt8) ∉ g.parser.name ∧ byteSlash ∉ g.parser.name) := by
  obtain ⟨len, rfl, hpos, hle, hfit, hslash, hnul⟩ := nameFill_some hc h
  obtain ⟨hz, hsl⟩ := hp.pending hs
  have hlength : (f.filled len).parser.name.length = f.parser.name.length + len := by
    simp [Feed.filled, hle]
  have hslash' : byteSlash ∉ (f.filled len).parser.name := by
    intro hmem
    rcases List.mem_append.mp hmem with hmem | hmem
    · exact hsl hmem
    · exact hslash hmem
  rcases hnul with hnul | ⟨before, hbefore, hnul⟩
  · have hfree : (0 : UInt8) ∉ (f.filled len).parser.name := by
      intro hmem
      rcases List.mem_append.mp hmem with hmem | hmem
      · exact hz hmem
      · exact hnul hmem
    refine ⟨by omega, by omega, ?_, fun _ => ⟨hfree, hslash'⟩⟩
    intro hlast
    exact absurd (List.mem_of_getLast? hlast) hfree
  · have hname : (f.filled len).parser.name = (f.parser.name ++ before) ++ [0] := by
      rw [List.append_assoc, ← hbefore]
      rfl
    refine ⟨by omega, by omega, ?_, ?_⟩
    · intro _
      refine ⟨_, hname, ?_, ?_, ?_⟩
      · intro hmem
        rcases List.mem_append.mp hmem with hmem | hmem
        · exact hz hmem
        · exact hnul hmem
      · intro hmem
        apply hslash'
        rw [hname]
        exact List.mem_append_left _ hmem
      · rw [hname, List.length_append, List.length_singleton] at hlength
        omega
    · intro hlast
      rw [hname, List.getLast?_concat] at hlast
      exact absurd rfl hlast

/-- A name of an endpoint is a child of any directory. -/
theorem EndpointName.directChild {name : Name} (h : EndpointName name) (directory : Name) :
    DirectChild directory (endpointPath directory name) := by
  refine ⟨name, rfl, h.slash_free, h.nonempty, ?_, ?_⟩
  · rintro rfl
    exact h.visible rfl
  · rintro rfl
    exact h.visible rfl

/-- What is performed with a complete name gets the name without its null byte. -/
theorem Parser.completed_names {parser : Parser} {name : Name} (hname : parser.name = name ++ [0])
    (h : ComponentName name) : ∀ action ∈ parser.completed,
      (∀ n ∈ action.names, parser.name = n ++ [0] ∧ ComponentName n) ∧
      ∀ n capabilities, action = .endpointCreate n capabilities →
        EndpointName n ∧ ∀ directory, DirectChild directory (endpointPath directory n) := by
  have hstring : cString parser.name = name := by
    rw [hname]
    exact cString_append h.nul_free []
  have hdaemon : ∀ daemonAction action, action ∈ [Action.daemon daemonAction name] →
      (∀ n ∈ action.names, parser.name = n ++ [0] ∧ ComponentName n) ∧
      ∀ n capabilities, action = .endpointCreate n capabilities →
        EndpointName n ∧ ∀ directory, DirectChild directory (endpointPath directory n) := by
    intro daemonAction action hmem
    rw [List.mem_singleton.mp hmem]
    constructor
    · intro n hn
      rw [List.mem_singleton.mp hn]
      exact ⟨hname, h⟩
    · intro n capabilities heq
      cases heq
  intro action hmem
  unfold completed at hmem
  cases hs : parser.state <;> simp only [hs, hstring] at hmem
  case endpointCreateName =>
    split at hmem
    · rename_i haccept
      rw [List.mem_singleton.mp hmem]
      constructor
      · intro n hn
        rw [List.mem_singleton.mp hn]
        exact ⟨hname, h⟩
      · intro n capabilities heq
        cases heq
        have hendpoint : EndpointName name := ⟨h, haccept.2.1, haccept.2.2⟩
        exact ⟨hendpoint, hendpoint.directChild⟩
    · cases hmem
  case daemonStartName => exact hdaemon _ action hmem
  case daemonStopName => exact hdaemon _ action hmem
  case daemonReloadName => exact hdaemon _ action hmem
  case daemonEndName => exact hdaemon _ action hmem
  all_goals cases hmem

/-- The effect of an iteration on the names. -/
structure NamesMove (f f' : Feed) : Prop where
  /-- The name buffer stays well formed. -/
  formed : f'.parser.NameFormed
  /-- A name that is passed on is the one in the buffer. -/
  passed : ∃ new, f'.actions = f.actions ++ new ∧ ∀ action ∈ new,
    (∀ name ∈ action.names, f'.parser.name = name ++ [0] ∧ ComponentName name) ∧
    ∀ name capabilities, action = .endpointCreate name capabilities →
      EndpointName name ∧ ∀ directory, DirectChild directory (endpointPath directory name)

/-- An iteration that passes no name on. -/
theorem NamesMove.silent (new : List Action) (hformed : f'.parser.NameFormed)
    (hactions : f'.actions = f.actions ++ new) (hnew : ∀ action ∈ new, action.names = []) :
    NamesMove f f' := by
  refine ⟨hformed, new, hactions, fun action hmem => ⟨?_, ?_⟩⟩
  · rw [hnew action hmem]
    simp
  · rintro name capabilities rfl
    cases hnew _ hmem

/-- A complete name is passed on as it is in the buffer. -/
theorem Feed.named_move (hp : f.parser.NameFormed) (hs : f.parser.state.isName = true)
    (hc : f.count ≠ 0) (h : nameFill f = .ok (some g)) : NamesMove f g.named := by
  obtain ⟨-, hle, hend, hpending⟩ := nameFill_nameFormed hp hs hc h
  obtain ⟨-, hnone | ⟨len, -, -, -, hsome⟩⟩ := nameFill_cases hc h
  · cases hnone
  · have hactions : g.actions = f.actions := by cases hsome; rfl
    unfold Feed.named
    split
    · rename_i hlast
      obtain ⟨name, hname, hcomponent⟩ := hend hlast
      refine ⟨⟨hle, fun hs => by cases hs⟩, g.parser.completed, ?_, ?_⟩
      · rw [Feed.perform, hactions]
      · exact Parser.completed_names hname hcomponent
    · rename_i hlast
      exact .silent [] ⟨hle, fun _ => hpending hlast⟩ (by simp [hactions]) (by simp)

/-- Every iteration keeps the name buffer well formed. -/
theorem parserFeedStep_names (hp : f.parser.NameFormed) (hc : f.count ≠ 0)
    (h : parserFeedStep platform f = .ok f') : NamesMove f f' := by
  cases parserFeedStep_cases hc h with
  | @command byte rest parser actions hs hb hcmd =>
    obtain ⟨hformed, hnames⟩ := parserFeedCommand_nameFormed hp hcmd
    exact .silent actions hformed rfl hnames
  | @capability byte rest hs hb =>
    exact .silent [] (parserFeedCapability_nameFormed byte hs hp) rfl (by simp)
  | rejected hs hread hfill => exact .silent [] (hp.rest rfl rfl) rfl (by simp)
  | accepted hs hpos hread hfill => exact Feed.named_move hp hs hc hfill
  | discarded hs => exact .silent [] hp (List.append_nil _).symm (by simp)

/-- A read keeps the name buffer well formed, from its first iteration on. -/
theorem parserFeedRun_names (f : Feed) (hp : f.parser.NameFormed) :
    (parserFeedRun platform f).1.parser.NameFormed := by
  induction f using parserFeedRun_induction platform with
  | done f hc =>
    rw [parserFeedRun_done platform hc]
    exact hp
  | trap f t hc h =>
    rw [parserFeedRun_trap hc h]
    exact hp
  | step f f' hc h ih =>
    rw [parserFeedRun_step hc h]
    exact ih (parserFeedStep_names hp hc h).formed

/-- Every state of the loop has a well-formed name buffer, when the first one has. -/
theorem FeedVisited.nameFormed {parser : Parser} {reads : List (List UInt8 × Nat)}
    (h : FeedVisited platform parser reads f) (hp : parser.NameFormed) :
    f.parser.NameFormed := by
  induction h with
  | begin parser memory count reads => exact hp
  | step h hc hf ih => exact (parserFeedStep_names (ih hp) hc hf).formed
  | later h ih => exact ih (parserFeedRun_names _ hp)

/-- In every reachable state of every sequence of reads on a connection, whatever memory
they look at, the pending name is inside of its buffer and the names that are passed on
are well formed. -/
theorem names_formed {capabilities : Capset} {reads : List (List UInt8 × Nat)}
    (h : FeedVisited platform (connectionParser capabilities) reads f) :
    f.NamesFormed platform := by
  have hp : f.parser.NameFormed := h.nameFormed (.empty rfl)
  refine ⟨hp.length_le, hp.pending, ?_, ?_⟩
  · intro hs hc g hg
    obtain ⟨hpos, hle, -⟩ := nameFill_nameFormed hp hs hc hg
    exact ⟨hpos, hle⟩
  · intro f' hc hf
    exact (parserFeedStep_names hp hc hf).passed

/-- A name cut after its first byte is well formed in the second read. -/
theorem names_formed_cut :
    Feed.NamesFormed ⟨.little, true⟩
      ⟨⟨capsetAll, .daemonStartName, 0, 0, 0, []⟩, [97, 0], 2, 0, []⟩ :=
  names_formed (.later (.begin _ [97, 0] 2 []) : FeedVisited ⟨.little, true⟩
    (connectionParser capsetAll) [([1], 1), ([97, 0], 2)] _)

end Cyberd
