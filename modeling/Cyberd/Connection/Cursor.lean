import Cyberd.Connection.Parser

/-!
# How far a feed reads

What an iteration of `parser_feed` does is given by the state it begins in. It
either moves the cursor over bytes it has read or gives up the rest of its count.
Runs therefore end, and the sum of the cursor and of the remaining count says whether
a run stays inside of its chunk: name fragments are the only moves that change it.
-/

namespace Cyberd

open Library

/-- A search that stays inside of the memory is the search in a prefix. -/
theorem memchr_of_le {byte : UInt8} {buffer : List UInt8} {count : Nat}
    (h : count ≤ buffer.length) :
    memchr byte buffer count = .ok ((buffer.take count).idxOf? byte) := by
  induction buffer generalizing count with
  | nil =>
    have hz : count = 0 := by simpa using h
    subst hz
    rfl
  | cons b buffer ih =>
    cases count with
    | zero => rfl
    | succ count =>
      rw [memchr, List.take_succ_cons, List.idxOf?_cons]
      by_cases hb : b = byte
      · rw [if_pos hb, if_pos (by simpa using hb)]
      · rw [if_neg hb, if_neg (by simpa using hb), ih (by simpa using h)]
        rfl

/-- A found byte is inside of the memory and of the count. -/
theorem memchr_some {byte : UInt8} {buffer : List UInt8} {count i : Nat}
    (h : memchr byte buffer count = .ok (some i)) :
    i < count ∧ i < buffer.length := by
  induction buffer generalizing count i with
  | nil => cases count <;> simp [memchr] at h
  | cons b buffer ih =>
    cases count with
    | zero => simp [memchr] at h
    | succ count =>
      rw [memchr] at h
      split at h
      · cases h
        simp
      · obtain ⟨found, hf, hr⟩ := except_bind_eq_ok.mp h
        cases found with
        | none => cases hr
        | some j =>
          cases hr
          obtain ⟨hj, hjb⟩ := ih hf
          simp only [List.length_cons]
          omega

/-- A search that finds nothing has read every byte of its count. -/
theorem memchr_none {byte : UInt8} {buffer : List UInt8} {count : Nat}
    (h : memchr byte buffer count = .ok none) : count ≤ buffer.length := by
  induction buffer generalizing count with
  | nil => cases count <;> simp [memchr] at h ⊢
  | cons b buffer ih =>
    cases count with
    | zero => simp
    | succ count =>
      rw [memchr] at h
      split at h
      · cases h
      · obtain ⟨found, hf, hr⟩ := except_bind_eq_ok.mp h
        cases found with
        | none =>
          have := ih hf
          simp only [List.length_cons]
          omega
        | some j => cases hr

/-- A search stops for an access outside of the memory only. -/
theorem memchr_error {byte : UInt8} {buffer : List UInt8} {count : Nat} {t : Trap}
    (h : memchr byte buffer count = .error t) : t = .outOfBounds := by
  induction buffer generalizing count with
  | nil => cases count <;> simp [memchr] at h; exact h.symm
  | cons b buffer ih =>
    cases count with
    | zero => simp [memchr] at h
    | succ count =>
      rw [memchr] at h
      split at h
      · cases h
      · cases hm : memchr byte buffer count with
        | ok found => rw [hm] at h; cases h
        | error t' =>
          rw [hm] at h
          cases h
          exact ih hm

/-- Length of the fragment that one call of `name_fill` takes from its bytes: up
to and including the first null byte, or everything. -/
def fragmentLength (rest : List UInt8) : Nat := fragmentUpTo (rest.idxOf? 0) rest.length

/-- The next fragment does not fit the name buffer, or holds a `'/'`. -/
def NameRejected (name rest : List UInt8) : Prop :=
  nameMax + 1 < name.length + fragmentLength rest ∨ byteSlash ∈ rest.take (fragmentLength rest)

instance (name rest : List UInt8) : Decidable (NameRejected name rest) :=
  inferInstanceAs (Decidable (_ ∨ _))

/-- A fragment is a part of the bytes it is taken from. -/
theorem fragmentLength_le (rest : List UInt8) : fragmentLength rest ≤ rest.length := by
  unfold fragmentLength
  cases h : rest.idxOf? 0 with
  | none => exact Nat.le_refl _
  | some i =>
    rw [List.idxOf?_eq_some_iff] at h
    obtain ⟨hi, -⟩ := h
    exact Nat.succ_le_of_lt hi

/-- No fragment of a non-empty chunk is empty. -/
theorem fragmentLength_pos {rest : List UInt8} (h : rest ≠ []) : 0 < fragmentLength rest := by
  unfold fragmentLength
  cases rest.idxOf? 0 with
  | none => exact List.length_pos_iff.mpr h
  | some i => exact Nat.succ_pos i

/-- The next fragment is rejected or taken. -/
theorem nameFillFragment_eq (f : Feed) :
    nameFillFragment f (fragmentLength f.buffer) = .ok (if NameRejected f.parser.name f.buffer
      then none else some (f.filled (fragmentLength f.buffer))) := by
  rw [nameFillFragment, memchr_of_le (fragmentLength_le _), except_bind_ok, except_pure]
  by_cases hlen : nameMax + 1 < f.parser.name.length + fragmentLength f.buffer
  · have hrej : NameRejected f.parser.name f.buffer := Or.inl hlen
    rw [if_pos hlen, if_pos hrej]
  · rw [if_neg hlen]
    by_cases hslash : byteSlash ∈ f.buffer.take (fragmentLength f.buffer)
    · have hrej : NameRejected f.parser.name f.buffer := Or.inr hslash
      rw [if_pos hrej, if_pos (by simpa using hslash)]
    · have hrej : ¬ NameRejected f.parser.name f.buffer := by
        rintro (h | h)
        exacts [hlen h, hslash h]
      rw [if_neg hrej, if_neg (by simpa using hslash)]

/-- On exactly the remaining bytes, `name_fill` rejects or takes the next fragment. -/
theorem nameFill_exact {f : Feed} (h : f.count = f.buffer.length) :
    nameFill f = .ok (if NameRejected f.parser.name f.buffer then none
      else some (f.filled (fragmentLength f.buffer))) := by
  rw [nameFill, h, memchr_of_le (Nat.le_refl _), List.take_length, except_bind_ok]
  exact nameFillFragment_eq f

/-- Whatever the count, `name_fill` has read a byte before it rejects, and it
takes at least one byte, all of them inside of the memory. -/
theorem nameFill_cases {f : Feed} {r : Option Feed} (hc : f.count ≠ 0)
    (h : nameFill f = .ok r) :
    f.buffer ≠ [] ∧ (r = none ∨ ∃ len, 0 < len ∧ len ≤ f.buffer.length ∧ len ≤ f.count ∧
      r = some (f.filled len)) := by
  obtain ⟨nul, hnul, h⟩ := except_bind_eq_ok.mp h
  have hlen : 0 < fragmentUpTo nul f.count ∧ fragmentUpTo nul f.count ≤ f.buffer.length ∧
      fragmentUpTo nul f.count ≤ f.count := by
    cases nul with
    | none => exact ⟨Nat.pos_of_ne_zero hc, memchr_none hnul, Nat.le_refl _⟩
    | some i =>
      obtain ⟨hi, hib⟩ := memchr_some hnul
      exact ⟨Nat.succ_pos i, hib, hi⟩
  generalize fragmentUpTo nul f.count = len at hlen h
  refine ⟨List.ne_nil_of_length_pos (by omega), ?_⟩
  unfold nameFillFragment at h
  split at h
  · cases h
    exact Or.inl rfl
  · obtain ⟨slash, -, h⟩ := except_bind_eq_ok.mp h
    cases h
    split
    · exact Or.inl rfl
    · exact Or.inr ⟨len, hlen.1, hlen.2.1, hlen.2.2, rfl⟩

/-- `name_fill` stops for an access outside of the memory only. -/
theorem nameFill_error {f : Feed} {t : Trap} (h : nameFill f = .error t) : t = .outOfBounds := by
  unfold nameFill at h
  cases hnul : memchr 0 f.buffer f.count with
  | error t' =>
    rw [hnul] at h
    cases h
    exact memchr_error hnul
  | ok nul =>
    rw [hnul, except_bind_ok, nameFillFragment] at h
    split at h
    · cases h
    · cases hslash : memchr byteSlash f.buffer (fragmentUpTo nul f.count) with
      | error t' =>
        rw [hslash] at h
        cases h
        exact memchr_error hslash
      | ok slash => rw [hslash] at h; cases h

/-- The states in which a name is pending. -/
def ParserState.isName : ParserState → Bool
  | .command | .endpointCreateCapabilities | .invalid => false
  | .endpointCreateName | .daemonStartName | .daemonStopName | .daemonReloadName
  | .daemonEndName => true

/-- What is performed once a name is complete. -/
def Parser.completed (parser : Parser) : List Action :=
  match parser.state with
  | .endpointCreateName =>
    let capabilities := parser.capabilities &&& parser.requested
    let name := cString parser.name
    if capabilities ≠ 0 ∧ name ≠ [] ∧ name.head? ≠ some byteDot then
      [.endpointCreate name capabilities]
    else []
  | .daemonStartName => [.daemon .daemonStart (cString parser.name)]
  | .daemonStopName => [.daemon .daemonStop (cString parser.name)]
  | .daemonReloadName => [.daemon .daemonReload (cString parser.name)]
  | .daemonEndName => [.daemon .daemonEnd (cString parser.name)]
  | .command | .endpointCreateCapabilities | .invalid => []

/-- What follows in an iteration once the fragment is taken. -/
def Feed.named (g : Feed) : Feed :=
  if g.parser.name.getLast? = some 0 then
    g.perform { g.parser with state := .command } g.parser.completed
  else g

@[simp] theorem Feed.named_offset (g : Feed) : g.named.offset = g.offset := by
  unfold Feed.named
  split <;> rfl

@[simp] theorem Feed.named_count (g : Feed) : g.named.count = g.count := by
  unfold Feed.named
  split <;> rfl

@[simp] theorem Feed.named_buffer (g : Feed) : g.named.buffer = g.buffer := by
  unfold Feed.named
  split <;> rfl

/-- An iteration that fills a name stops where `name_fill` does. -/
theorem parserFeedStep_fillError {platform : Platform} {f : Feed} {t : Trap}
    (hs : f.parser.state.isName = true) (h : nameFill f = .error t) :
    parserFeedStep platform f = .error t := by
  unfold parserFeedStep parserFeedEndpointCreateName parserFeedDaemonName
  cases hstate : f.parser.state <;> simp [hstate, ParserState.isName, h] at hs ⊢

/-- A rejected fragment turns the parser invalid. -/
theorem parserFeedStep_rejected {platform : Platform} {f : Feed}
    (hs : f.parser.state.isName = true) (h : nameFill f = .ok none) :
    parserFeedStep platform f = .ok (f.perform { f.parser with state := .invalid } []) := by
  unfold parserFeedStep parserFeedEndpointCreateName parserFeedDaemonName
  cases hstate : f.parser.state <;> simp [hstate, ParserState.isName, h] at hs ⊢

/-- The fragment of an endpoint name, once it is taken. -/
theorem parserFeedEndpointCreateName_named {f g : Feed} {last : UInt8}
    (h : nameFill f = .ok (some g)) (hs : g.parser.state = .endpointCreateName)
    (hlast : g.parser.name.getLast? = some last) :
    parserFeedEndpointCreateName f = .ok g.named := by
  simp only [parserFeedEndpointCreateName, h, except_bind_ok, hlast, Feed.named,
    Option.some.injEq]
  by_cases hzero : last = 0
  · rw [if_pos hzero, if_pos hzero, Parser.completed, hs]
    by_cases hname : g.parser.capabilities &&& g.parser.requested ≠ 0 ∧
        cString g.parser.name ≠ [] ∧ (cString g.parser.name).head? ≠ some byteDot
    · simp only [if_pos hname]
      rfl
    · simp only [if_neg hname]
      rfl
  · rw [if_neg hzero, if_neg hzero]
    rfl

/-- The fragment of a daemon name, once it is taken. -/
theorem parserFeedDaemonName_named {f g : Feed} {action : DaemonAction} {last : UInt8}
    (h : nameFill f = .ok (some g))
    (hact : g.parser.completed = [.daemon action (cString g.parser.name)])
    (hlast : g.parser.name.getLast? = some last) :
    parserFeedDaemonName f action = .ok g.named := by
  simp only [parserFeedDaemonName, h, except_bind_ok, hlast, Feed.named, Option.some.injEq]
  by_cases hzero : last = 0
  · rw [if_pos hzero, if_pos hzero, hact]
    rfl
  · rw [if_neg hzero, if_neg hzero]
    rfl

/-- An accepted fragment is appended to the name, and its last byte is looked at. -/
theorem parserFeedStep_accepted {platform : Platform} {f g : Feed}
    (hs : f.parser.state.isName = true) (hc : f.count ≠ 0) (h : nameFill f = .ok (some g)) :
    parserFeedStep platform f = .ok g.named := by
  obtain ⟨-, hnone | ⟨len, hpos, hlen, -, hsome⟩⟩ := nameFill_cases hc h
  · cases hnone
  · cases hsome
    obtain ⟨last, hlast⟩ : ∃ last, (f.filled len).parser.name.getLast? = some last := by
      cases hlast : (f.filled len).parser.name.getLast? with
      | some last => exact ⟨last, rfl⟩
      | none =>
        have hlength := congrArg List.length (List.getLast?_eq_none_iff.mp hlast)
        simp only [Feed.filled, List.length_append, List.length_take, List.length_nil] at hlength
        omega
    unfold parserFeedStep
    cases hstate : f.parser.state <;> simp only [hstate, ParserState.isName] at hs ⊢
    case command => cases hs
    case endpointCreateCapabilities => cases hs
    case invalid => cases hs
    case endpointCreateName => exact parserFeedEndpointCreateName_named h hstate hlast
    all_goals
      apply parserFeedDaemonName_named h _ hlast
      simp only [Parser.completed, Feed.filled, Feed.advance, hstate]

/-- What an iteration does, by the state it begins in. -/
inductive FeedStep (platform : Platform) (f : Feed) : Feed → Prop
  /-- A command byte is read. -/
  | command {byte : UInt8} {rest : List UInt8} {parser : Parser} {actions : List Action}
      (state : f.parser.state = .command) (buffer : f.buffer = byte :: rest)
      (fed : parserFeedCommand f.parser (platform.byteCapability byte) = .ok (parser, actions)) :
      FeedStep platform f ((f.advance 1 (f.count - 1)).perform parser actions)
  /-- A byte of a capability word is read. -/
  | capability {byte : UInt8} {rest : List UInt8}
      (state : f.parser.state = .endpointCreateCapabilities) (buffer : f.buffer = byte :: rest) :
      FeedStep platform f
        ((f.advance 1 (f.count - 1)).perform (parserFeedCapability platform f.parser byte) [])
  /-- A name fragment is rejected. -/
  | rejected (pending : f.parser.state.isName = true) (read : f.buffer ≠ [])
      (fill : nameFill f = .ok none) :
      FeedStep platform f (f.perform { f.parser with state := .invalid } [])
  /-- A name fragment is taken, and its last byte is looked at. -/
  | accepted {len : Nat} (pending : f.parser.state.isName = true) (pos : 0 < len)
      (read : len ≤ f.buffer.length) (fill : nameFill f = .ok (some (f.filled len))) :
      FeedStep platform f (f.filled len).named
  /-- An invalid parser gives up the remaining count. -/
  | discarded (invalid : f.parser.state = .invalid) : FeedStep platform f (f.advance f.count 0)

/-- Where a name is pending, the fragment decides. -/
theorem parserFeedStep_name {platform : Platform} {f f' : Feed}
    (hs : f.parser.state.isName = true) (hc : f.count ≠ 0)
    (h : parserFeedStep platform f = .ok f') : FeedStep platform f f' := by
  cases hfill : nameFill f with
  | error t =>
    rw [parserFeedStep_fillError hs hfill] at h
    cases h
  | ok r =>
    obtain ⟨hread, rfl | ⟨len, hpos, hle, -, rfl⟩⟩ := nameFill_cases hc hfill
    · rw [parserFeedStep_rejected hs hfill] at h
      cases h
      exact .rejected hs hread hfill
    · rw [parserFeedStep_accepted hs hc hfill] at h
      cases h
      exact .accepted hs hpos hle hfill

/-- Every iteration that returns is one of these steps. -/
theorem parserFeedStep_cases {platform : Platform} {f f' : Feed} (hc : f.count ≠ 0)
    (h : parserFeedStep platform f = .ok f') : FeedStep platform f f' := by
  by_cases hs : f.parser.state.isName = true
  · exact parserFeedStep_name hs hc h
  · unfold parserFeedStep at h
    cases hstate : f.parser.state <;> simp only [hstate, ParserState.isName, not_true] at h hs
    case command =>
      cases hb : f.buffer with
      | nil => simp only [hb] at h; cases h
      | cons byte rest =>
        simp only [hb] at h
        obtain ⟨⟨parser, actions⟩, hcmd, h⟩ := except_bind_eq_ok.mp h
        cases h
        exact .command hstate hb hcmd
    case endpointCreateCapabilities =>
      cases hb : f.buffer with
      | nil => simp only [hb] at h; cases h
      | cons byte rest =>
        simp only [hb] at h
        cases h
        exact .capability hstate hb
    case invalid =>
      cases h
      exact .discarded hstate

/-- What one iteration does to the cursor. -/
inductive FeedMove (f f' : Feed) : Prop
  /-- One command or capability byte is read. -/
  | byte (read : f.buffer ≠ []) (buffer : f'.buffer = f.buffer.drop 1)
      (count : f'.count = f.count - 1) (offset : f'.offset = f.offset + 1)
      (pending : f.parser.state ≠ .invalid)
  /-- A name fragment is taken, and the count grows by its length. -/
  | fill (len : Nat) (pos : 0 < len) (read : len ≤ f.buffer.length)
      (buffer : f'.buffer = f.buffer.drop len) (count : f'.count = f.count + len)
      (offset : f'.offset = f.offset + len) (pending : f.parser.state ≠ .invalid)
  /-- A name fragment is rejected, nothing moves. -/
  | reject (read : f.buffer ≠ []) (buffer : f'.buffer = f.buffer) (count : f'.count = f.count)
      (offset : f'.offset = f.offset) (invalid : f'.parser.state = .invalid)
      (pending : f.parser.state ≠ .invalid)
  /-- An invalid parser gives up the remaining count. -/
  | discard (invalid : f.parser.state = .invalid) (next : f' = f.advance f.count 0)

/-- A state in which a name is pending is not the invalid one. -/
theorem ParserState.isName_ne {state : ParserState} (h : state.isName = true) :
    state ≠ .invalid := by
  rintro rfl
  cases h

/-- Every iteration that returns is one of the four moves. -/
theorem parserFeedStep_move {platform : Platform} {f f' : Feed} (hc : f.count ≠ 0)
    (h : parserFeedStep platform f = .ok f') : FeedMove f f' := by
  cases parserFeedStep_cases hc h with
  | command hs hb hcmd => exact .byte (by simp [hb]) rfl rfl rfl (by simp [hs])
  | capability hs hb => exact .byte (by simp [hb]) rfl rfl rfl (by simp [hs])
  | rejected hs hread hfill => exact .reject hread rfl rfl rfl rfl (ParserState.isName_ne hs)
  | @accepted len hs hpos hread hfill =>
    apply FeedMove.fill len hpos hread _ _ _ (ParserState.isName_ne hs)
    · rw [Feed.named_buffer]
      rfl
    · rw [Feed.named_count]
      rfl
    · rw [Feed.named_offset]
      rfl
  | discarded hs => exact .discard hs rfl

/-- Iterations that a run may still make. -/
def Feed.measure (f : Feed) : Nat :=
  if f.count = 0 then 0 else if f.parser.state = .invalid then 1 else f.buffer.length + 2

/-- Every move makes progress. -/
theorem FeedMove.measure_lt {f f' : Feed} (hc : f.count ≠ 0) (h : FeedMove f f') :
    f'.measure < f.measure := by
  unfold Feed.measure
  rw [if_neg hc]
  cases h with
  | byte hne hb hcount ho hs =>
    have := List.length_pos_iff.mpr hne
    rw [if_neg hs, hb, List.length_drop]
    split
    · omega
    · split <;> omega
  | fill len hpos hlen hb hcount ho hs =>
    rw [if_neg hs, hb, List.length_drop]
    split
    · omega
    · split <;> omega
  | reject hne hb hcount ho hi hs =>
    rw [if_neg hs, hi]
    split
    · omega
    · simp
  | discard hi hn =>
    subst hn
    simp [Feed.advance, hi]

/-- Spare iterations change nothing. -/
theorem parserFeedLoop_fuel (platform : Platform) {f : Feed} {n m : Nat}
    (hn : f.measure < n) (hm : f.measure < m) :
    parserFeedLoop platform n f = parserFeedLoop platform m f := by
  induction n generalizing f m with
  | zero => omega
  | succ n ih =>
    cases m with
    | zero => omega
    | succ m =>
      rw [parserFeedLoop, parserFeedLoop]
      split
      · rfl
      · rename_i hc
        cases hstep : parserFeedStep platform f with
        | error trap => rfl
        | ok f' =>
          have hlt := (parserFeedStep_move hc hstep).measure_lt hc
          exact ih (by omega) (by omega)

/-- The fuel of a run always suffices. -/
theorem Feed.measure_lt_fuel (f : Feed) : f.measure < f.buffer.length + 3 := by
  unfold Feed.measure
  split
  · omega
  · split <;> omega

/-- A run without remaining bytes returns. -/
theorem parserFeedRun_done (platform : Platform) {f : Feed} (h : f.count = 0) :
    parserFeedRun platform f = (f, .returned) := by
  rw [parserFeedRun, parserFeedLoop, if_pos h]

/-- A run goes on from the state after its first iteration. -/
theorem parserFeedRun_step {platform : Platform} {f f' : Feed} (hc : f.count ≠ 0)
    (h : parserFeedStep platform f = .ok f') :
    parserFeedRun platform f = parserFeedRun platform f' := by
  have hlt := (parserFeedStep_move hc h).measure_lt hc
  have hf := f.measure_lt_fuel
  have hf' := f'.measure_lt_fuel
  rw [parserFeedRun, parserFeedLoop, if_neg hc, h]
  exact parserFeedLoop_fuel platform (by omega) hf'

/-- A run stops at an iteration that stops. -/
theorem parserFeedRun_trap {platform : Platform} {f : Feed} {trap : Trap} (hc : f.count ≠ 0)
    (h : parserFeedStep platform f = .error trap) :
    parserFeedRun platform f = (f, .trapped trap) := by
  rw [parserFeedRun, parserFeedLoop, if_neg hc, h]

/-- Induction over the iterations of a run. -/
theorem parserFeedRun_induction (platform : Platform) {motive : Feed → Prop}
    (done : ∀ f, f.count = 0 → motive f)
    (trap : ∀ f t, f.count ≠ 0 → parserFeedStep platform f = .error t → motive f)
    (step : ∀ f f', f.count ≠ 0 → parserFeedStep platform f = .ok f' → motive f' → motive f)
    (f : Feed) : motive f := by
  induction hm : f.measure using Nat.strong_induction_on generalizing f with
  | _ n ih =>
    by_cases hc : f.count = 0
    · exact done f hc
    · cases h : parserFeedStep platform f with
      | error t => exact trap f t hc h
      | ok f' =>
        have hlt := (parserFeedStep_move hc h).measure_lt hc
        exact step f f' hc h (ih f'.measure (by omega) f' rfl)

/-- Every run ends: it returns, or an iteration of it stops. -/
theorem parserFeedRun_ends (platform : Platform) (f : Feed) :
    (parserFeedRun platform f).2 ≠ .running := by
  induction f using parserFeedRun_induction platform with
  | done f hc => simp [parserFeedRun_done platform hc]
  | trap f t hc h => simp [parserFeedRun_trap hc h]
  | step f f' hc h ih => rwa [parserFeedRun_step hc h]

/-- A run that returns has moved its cursor over its whole count, at least. -/
theorem parserFeedRun_offset (platform : Platform) (f : Feed)
    (hr : (parserFeedRun platform f).2 = .returned) :
    f.offset + f.count ≤ (parserFeedRun platform f).1.offset := by
  induction f using parserFeedRun_induction platform with
  | done f hc => simp [parserFeedRun_done platform hc, hc]
  | trap f t hc h => simp [parserFeedRun_trap hc h] at hr
  | step f f' hc h ih =>
    rw [parserFeedRun_step hc h] at hr ⊢
    have hle := ih hr
    cases parserFeedStep_move hc h with
    | byte hne hb hcount ho hs => omega
    | fill len hpos hlen hb hcount ho hs => omega
    | reject hne hb hcount ho hi hs => omega
    | discard hi hn =>
      have ho : f'.offset = f.offset + f.count := by rw [hn]; rfl
      have hz : f'.count = 0 := by rw [hn]; rfl
      omega

/-- Once the count exceeds the memory, a run that returns has become invalid. -/
theorem parserFeedRun_inflated (platform : Platform) (f : Feed)
    (hlt : f.buffer.length < f.count) (hr : (parserFeedRun platform f).2 = .returned) :
    (parserFeedRun platform f).1.parser.state = .invalid := by
  induction f using parserFeedRun_induction platform with
  | done f hc => omega
  | trap f t hc h => simp [parserFeedRun_trap hc h] at hr
  | step f f' hc h ih =>
    rw [parserFeedRun_step hc h] at hr ⊢
    cases parserFeedStep_move hc h with
    | byte hne hb hcount ho hs =>
      have := List.length_pos_iff.mpr hne
      exact ih (by rw [hb, List.length_drop]; omega) hr
    | fill len hpos hlen hb hcount ho hs =>
      exact ih (by rw [hb, List.length_drop]; omega) hr
    | reject hne hb hcount ho hi hs => exact ih (by rw [hb]; omega) hr
    | discard hi hn =>
      subst hn
      rw [parserFeedRun_done platform rfl]
      exact hi

end Cyberd
