import Cyberd.Connection.Commands

/-!
# One byte after the other

What a stream asks for does not depend on reads: an abstract reader takes it byte by
byte. A run of `parser_feed` performs what this reader performs, but only returns when
it stays inside of its chunk, which the shape of the chunk decides.
-/

namespace Cyberd

open Library

/-- What the reader has made of the bytes so far. -/
structure Reading where
  /-- The parser. -/
  parser : Parser
  /-- The actions asked for. -/
  actions : List Action := []
  /-- Why it went no further. -/
  stop : Option Trap := none
  deriving DecidableEq, Repr

/-- The name gets longer. -/
def Parser.longer (parser : Parser) (bytes : List UInt8) : Parser :=
  { parser with name := parser.name ++ bytes }

/-- The name is complete. -/
def Reading.complete (r : Reading) : Reading :=
  { r with
    parser := { r.parser with state := .command }, actions := r.actions ++ r.parser.completed }

/-- The byte of a pending name: its last one, a rejected one, or one more. -/
def Reading.nameByte (r : Reading) (byte : UInt8) : Reading :=
  if nameMax + 1 < r.parser.name.length + 1 ∨ byte = byteSlash then
    { r with parser := { r.parser with state := .invalid } }
  else if byte = 0 then { r with parser := r.parser.longer [byte] }.complete
  else { r with parser := r.parser.longer [byte] }

/-- The reader takes one byte. -/
def Reading.byte (platform : Platform) (r : Reading) (byte : UInt8) : Reading :=
  if r.stop.isSome then r
  else
    match r.parser.state with
    | .command =>
      match parserFeedCommand r.parser (platform.byteCapability byte) with
      | .ok (parser, actions) => { r with parser := parser, actions := r.actions ++ actions }
      | .error trap => { r with stop := some trap }
    | .endpointCreateCapabilities =>
      { r with parser := parserFeedCapability platform r.parser byte }
    | .invalid => r
    | .endpointCreateName | .daemonStartName | .daemonStopName | .daemonReloadName
    | .daemonEndName => r.nameByte byte

/-- The reader takes the bytes of a stream. -/
def Reading.bytes (platform : Platform) (r : Reading) (stream : List UInt8) : Reading :=
  stream.foldl (Reading.byte platform) r

/-- A run stays inside of these bytes. Once a fragment was taken the remaining count is
too large, so that the run goes on until the parser turns invalid (or aborts); then a
name is looked for beyond the bytes unless its null byte is among them. The first number
is the one of bytes that still belong to the fragment. -/
def staysInside (platform : Platform) : Nat → Bool → Parser → List UInt8 → Bool
  | _, loose, parser, [] => !loose || decide (parser.state = .invalid)
  | skip + 1, loose, parser, _ :: rest => staysInside platform skip loose parser rest
  | 0, loose, parser, byte :: rest =>
    match parser.state with
    | .command =>
      match parserFeedCommand parser (platform.byteCapability byte) with
      | .ok (parser, _) => staysInside platform 0 loose parser rest
      | .error _ => true
    | .endpointCreateCapabilities =>
      staysInside platform 0 loose (parserFeedCapability platform parser byte) rest
    | .invalid => true
    | .endpointCreateName | .daemonStartName | .daemonStopName | .daemonReloadName
    | .daemonEndName =>
      let fragment := (byte :: rest).take (fragmentLength (byte :: rest))
      if 0 ∈ byte :: rest then
        decide (NameRejected parser.name (byte :: rest)) ||
          staysInside platform (fragmentLength (byte :: rest) - 1) true
            { parser.longer fragment with state := .command } rest
      else !loose && decide (NameRejected parser.name (byte :: rest))

variable {platform : Platform} {f f' : Feed} {r : Reading}

/-- The bytes of two streams, one after the other. -/
theorem Reading.bytes_append (r : Reading) (front back : List UInt8) :
    r.bytes platform (front ++ back) = (r.bytes platform front).bytes platform back :=
  List.foldl_append

/-- An invalid parser stays what it is. -/
theorem Reading.bytes_invalid (h : r.parser.state = .invalid) (stream : List UInt8) :
    r.bytes platform stream = r := by
  induction stream with
  | nil => rfl
  | cons byte stream ih =>
    have hbyte : r.byte platform byte = r := by
      unfold Reading.byte
      rw [h]
      split <;> rfl
    rw [Reading.bytes, List.foldl_cons, hbyte]
    exact ih

/-- Nothing is read any more once the reader stopped. -/
theorem Reading.bytes_stop (h : r.stop.isSome = true) (stream : List UInt8) :
    r.bytes platform stream = r := by
  induction stream with
  | nil => rfl
  | cons byte stream ih =>
    have hbyte : r.byte platform byte = r := by
      unfold Reading.byte
      rw [if_pos h]
    rw [Reading.bytes, List.foldl_cons, hbyte]
    exact ih

/-- The byte of a pending name, when the reader goes on. -/
theorem Reading.byte_name (hs : r.parser.state.isName = true) (hstop : r.stop = none)
    (byte : UInt8) : r.byte platform byte = r.nameByte byte := by
  unfold Reading.byte
  rw [hstop]
  cases h : r.parser.state <;> simp [h, ParserState.isName] at hs ⊢

@[simp] theorem Parser.longer_name (parser : Parser) (bytes : List UInt8) :
    (parser.longer bytes).name = parser.name ++ bytes := rfl

@[simp] theorem Parser.longer_state (parser : Parser) (bytes : List UInt8) :
    (parser.longer bytes).state = parser.state := rfl

@[simp] theorem Parser.longer_nil (parser : Parser) : parser.longer [] = parser := by
  rw [Parser.longer, List.append_nil]

@[simp] theorem Parser.longer_longer (parser : Parser) (front back : List UInt8) :
    (parser.longer front).longer back = parser.longer (front ++ back) := by
  simp only [Parser.longer, List.append_assoc]

/-- Bytes that fit a pending name make it longer. -/
theorem Reading.bytes_fitting {bytes : List UInt8} (hs : r.parser.state.isName = true)
    (hstop : r.stop = none) (hnul : (0 : UInt8) ∉ bytes) (hslash : byteSlash ∉ bytes)
    (hfit : r.parser.name.length + bytes.length ≤ nameMax + 1) :
    r.bytes platform bytes = { r with parser := r.parser.longer bytes } := by
  induction bytes generalizing r with
  | nil => simp [Reading.bytes]
  | cons byte bytes ih =>
    rw [List.mem_cons, not_or] at hnul hslash
    rw [List.length_cons] at hfit
    have hbyte : r.byte platform byte = { r with parser := r.parser.longer [byte] } := by
      rw [Reading.byte_name hs hstop, Reading.nameByte, if_neg, if_neg (Ne.symm hnul.1)]
      rintro (hlong | rfl)
      · omega
      · exact hslash.1 rfl
    rw [Reading.bytes, List.foldl_cons, hbyte]
    have hrest := @ih { r with parser := r.parser.longer [byte] } hs hstop hnul.2 hslash.2
      (by simp only [Parser.longer_name, List.length_append, List.length_singleton]; omega)
    rw [Reading.bytes] at hrest
    rw [hrest, Parser.longer_longer]
    rfl

/-- The reader gave the pending name up, without any action. -/
structure Reading.Rejects (r r' : Reading) : Prop where
  /-- The parser is invalid. -/
  state : r'.parser.state = .invalid
  /-- No action is asked for. -/
  actions : r'.actions = r.actions
  /-- The reader goes on. -/
  stop : r'.stop = none

/-- Once it is rejected, a name stays rejected. -/
theorem Reading.Rejects.bytes {r' : Reading} (h : r.Rejects r') (stream : List UInt8) :
    r.Rejects (r'.bytes platform stream) := by
  rw [Reading.bytes_invalid h.state]
  exact h

/-- A pending name is rejected for one of its bytes, or for its length. -/
theorem Reading.bytes_rejected {bytes : List UInt8} (hs : r.parser.state.isName = true)
    (hstop : r.stop = none) (hnul : (0 : UInt8) ∉ bytes)
    (hrej : nameMax + 1 < r.parser.name.length + bytes.length ∨ byteSlash ∈ bytes)
    (hle : r.parser.name.length ≤ nameMax + 1) :
    r.Rejects (r.bytes platform bytes) := by
  induction bytes generalizing r with
  | nil =>
    rcases hrej with hlong | hslash
    · rw [List.length_nil] at hlong
      omega
    · cases hslash
  | cons byte bytes ih =>
    rw [List.mem_cons, not_or] at hnul
    rw [Reading.bytes, List.foldl_cons, Reading.byte_name hs hstop, Reading.nameByte]
    by_cases hnow : nameMax + 1 < r.parser.name.length + 1 ∨ byte = byteSlash
    · rw [if_pos hnow]
      have hrejects : r.Rejects { r with parser := { r.parser with state := .invalid } } :=
        ⟨rfl, rfl, hstop⟩
      exact hrejects.bytes bytes
    · rw [if_neg hnow, if_neg (Ne.symm hnul.1)]
      rw [not_or] at hnow
      have hlength : (r.parser.longer [byte]).name.length = r.parser.name.length + 1 := by simp
      have hrest : nameMax + 1 < (r.parser.longer [byte]).name.length + bytes.length ∨
          byteSlash ∈ bytes := by
        rcases hrej with hlong | hslash
        · left
          rw [List.length_cons] at hlong
          omega
        · exact Or.inr ((List.mem_cons.mp hslash).resolve_left (fun h => hnow.2 h.symm))
      obtain ⟨hst, hact, hstop'⟩ := @ih { r with parser := r.parser.longer [byte] } hs hstop
        hnul.2 hrest (by simp only [hlength]; omega)
      exact ⟨hst, hact, hstop'⟩

/-- A null byte that fits completes the name. -/
theorem Reading.byte_nul (hs : r.parser.state.isName = true) (hstop : r.stop = none)
    (hfit : r.parser.name.length ≤ nameMax) :
    r.byte platform 0 = { r with parser := r.parser.longer [0] }.complete := by
  rw [Reading.byte_name hs hstop, Reading.nameByte, if_neg, if_pos rfl]
  rintro (hlong | hzero)
  · omega
  · exact absurd hzero (by decide)

/-- A null byte that does not fit is rejected. -/
theorem Reading.byte_nul_rejected (hs : r.parser.state.isName = true) (hstop : r.stop = none)
    (hfull : nameMax < r.parser.name.length) : r.Rejects (r.byte platform 0) := by
  rw [Reading.byte_name hs hstop, Reading.nameByte, if_pos (Or.inl (by omega))]
  exact ⟨rfl, rfl, hstop⟩

/-- A fragment goes up to the first null byte. -/
theorem fragmentLength_of_first {before : List UInt8} (h : (0 : UInt8) ∉ before)
    (after : List UInt8) : fragmentLength (before ++ 0 :: after) = before.length + 1 := by
  have hindex : (before ++ 0 :: after).idxOf? 0 = some before.length := by
    refine List.idxOf?_eq_some_iff.mpr ⟨by simp, by simp, ?_⟩
    intro j hj hzero
    rw [List.getElem_append_left hj] at hzero
    exact h (hzero ▸ List.getElem_mem hj)
  rw [fragmentLength, hindex]
  rfl

/-- The fragment that a null byte ends. -/
theorem fragment_of_mem {rest : List UInt8} (h : (0 : UInt8) ∈ rest) :
    ∃ before after, rest = before ++ 0 :: after ∧ (0 : UInt8) ∉ before ∧
      fragmentLength rest = before.length + 1 := by
  obtain ⟨before, after, rfl, hbefore⟩ := List.eq_append_cons_of_mem h
  exact ⟨before, after, rfl, hbefore, fragmentLength_of_first hbefore after⟩

/-- The fragment that no null byte ends is all there is. -/
theorem fragmentLength_of_notMem {rest : List UInt8} (h : (0 : UInt8) ∉ rest) :
    fragmentLength rest = rest.length := by
  rw [fragmentLength, List.idxOf?_eq_none_iff.mpr h]
  rfl

/-- A search that goes further than the memory ends at the first hit. -/
theorem memchr_of_mem {byte : UInt8} {buffer : List UInt8} {count : Nat} (h : byte ∈ buffer)
    (hle : buffer.length ≤ count) : memchr byte buffer count = .ok (buffer.idxOf? byte) := by
  induction buffer generalizing count with
  | nil => cases h
  | cons b buffer ih =>
    cases count with
    | zero => cases hle
    | succ count =>
      rw [memchr, List.idxOf?_cons]
      by_cases hb : b = byte
      · rw [if_pos hb, if_pos (by simpa using hb)]
      · have hmem := (List.mem_cons.mp h).resolve_left (Ne.symm hb)
        rw [if_neg hb, if_neg (by simpa using hb), ih hmem (by simpa using hle)]
        rfl

/-- A search that goes further than the memory leaves it without a hit. -/
theorem memchr_of_notMem {byte : UInt8} {buffer : List UInt8} {count : Nat} (h : byte ∉ buffer)
    (hlt : buffer.length < count) : memchr byte buffer count = .error .outOfBounds := by
  induction buffer generalizing count with
  | nil =>
    cases count with
    | zero => cases hlt
    | succ count => rfl
  | cons b buffer ih =>
    rw [List.mem_cons, not_or] at h
    cases count with
    | zero => cases hlt
    | succ count =>
      rw [memchr, if_neg (Ne.symm h.1), ih h.2 (by simpa using hlt)]
      rfl

/-- Whatever the count, a fragment that its null byte ends is taken or rejected as on
exactly its bytes. -/
theorem nameFill_of_mem (h : (0 : UInt8) ∈ f.buffer) (hle : f.buffer.length ≤ f.count) :
    nameFill f = .ok (if NameRejected f.parser.name f.buffer then none
      else some (f.filled (fragmentLength f.buffer))) := by
  rw [nameFill, memchr_of_mem h hle, except_bind_ok, ← nameFillFragment_eq]
  cases hindex : f.buffer.idxOf? 0 with
  | none => exact absurd h (List.idxOf?_eq_none_iff.mp hindex)
  | some index =>
    rw [fragmentLength, hindex]
    rfl

/-- Without its null byte, a name is looked for beyond the bytes. -/
theorem nameFill_of_notMem (h : (0 : UInt8) ∉ f.buffer) (hlt : f.buffer.length < f.count) :
    nameFill f = .error .outOfBounds := by
  rw [nameFill, memchr_of_notMem h hlt]
  rfl

/-- The reader gives up a name whose fragment is rejected. -/
theorem Reading.bytes_nameRejected {rest : List UInt8} (hs : r.parser.state.isName = true)
    (hstop : r.stop = none) (hle : r.parser.name.length ≤ nameMax + 1)
    (hrej : NameRejected r.parser.name rest) : r.Rejects (r.bytes platform rest) := by
  by_cases hnul : (0 : UInt8) ∈ rest
  · obtain ⟨before, after, rfl, hbefore, hlen⟩ := fragment_of_mem hnul
    rw [Reading.bytes_append]
    have hcases : (nameMax + 1 < r.parser.name.length + before.length ∨ byteSlash ∈ before) ∨
        (r.parser.name.length + before.length = nameMax + 1 ∧ byteSlash ∉ before) := by
      rcases hrej with hlong | hslash
      · rw [hlen] at hlong
        by_cases hmem : byteSlash ∈ before
        · exact Or.inl (Or.inr hmem)
        · by_cases hlong' : nameMax + 1 < r.parser.name.length + before.length
          · exact Or.inl (Or.inl hlong')
          · exact Or.inr ⟨by omega, hmem⟩
      · rw [hlen, List.take_append, List.take_of_length_le (by omega)] at hslash
        rcases List.mem_append.mp hslash with hmem | hmem
        · exact Or.inl (Or.inr hmem)
        · rw [Nat.add_sub_cancel_left, List.take_succ_cons, List.take_zero] at hmem
          exact absurd (List.mem_singleton.mp hmem) (by decide)
    rcases hcases with hbad | ⟨hfull, hslash⟩
    · exact (Reading.bytes_rejected hs hstop hbefore hbad hle).bytes _
    · -- the null byte itself is the one that does not fit
      rw [Reading.bytes_fitting hs hstop hbefore hslash hfull.le, Reading.bytes, List.foldl_cons]
      have hlong : nameMax < (r.parser.longer before).name.length := by
        rw [Parser.longer_name, List.length_append]
        omega
      obtain ⟨hst, hact, hstop'⟩ := @Reading.byte_nul_rejected platform
        { r with parser := r.parser.longer before } hs hstop hlong
      have hrejects : r.Rejects (({ r with parser := r.parser.longer before } : Reading).byte
          platform 0) := ⟨hst, hact, hstop'⟩
      exact hrejects.bytes after
  · have hlen := fragmentLength_of_notMem hnul
    apply Reading.bytes_rejected hs hstop hnul _ hle
    rcases hrej with hlong | hslash
    · exact Or.inl (hlen ▸ hlong)
    · rw [hlen, List.take_length] at hslash
      exact Or.inr hslash

/-- The reader completes a name whose fragment is taken with its null byte. -/
theorem Reading.bytes_named {rest : List UInt8} (hs : r.parser.state.isName = true)
    (hstop : r.stop = none) (hnul : (0 : UInt8) ∈ rest)
    (hrej : ¬ NameRejected r.parser.name rest) :
    r.bytes platform (rest.take (fragmentLength rest)) =
      { r with parser := r.parser.longer (rest.take (fragmentLength rest)) }.complete ∧
    (r.parser.name ++ rest.take (fragmentLength rest)).getLast? = some 0 := by
  obtain ⟨before, after, rfl, hbefore, hlen⟩ := fragment_of_mem hnul
  rw [NameRejected, not_or, hlen] at hrej
  have htake : (before ++ 0 :: after).take (before.length + 1) = before ++ [0] := by
    rw [List.take_append, List.take_of_length_le (by omega), Nat.add_sub_cancel_left,
      List.take_succ_cons, List.take_zero]
  rw [htake] at hrej
  have hslash : byteSlash ∉ before := fun h => hrej.2 (List.mem_append_left _ h)
  rw [hlen, htake]
  constructor
  · rw [Reading.bytes_append, Reading.bytes_fitting hs hstop hbefore hslash (by omega)]
    have hfit : (r.parser.longer before).name.length ≤ nameMax := by
      rw [Parser.longer_name, List.length_append]
      omega
    have hnul := @Reading.byte_nul platform { r with parser := r.parser.longer before } hs hstop
      hfit
    rw [Parser.longer_longer] at hnul
    exact hnul
  · rw [← List.append_assoc, List.getLast?_concat]

/-- Skipped bytes do not matter. -/
theorem staysInside_skip (skip : Nat) (loose : Bool) (parser : Parser) (bytes : List UInt8) :
    staysInside platform skip loose parser bytes =
      staysInside platform 0 loose parser (bytes.drop skip) := by
  induction bytes generalizing skip with
  | nil =>
    rw [List.drop_nil]
    cases skip <;> rfl
  | cons byte bytes ih =>
    cases skip with
    | zero => rfl
    | succ skip =>
      rw [staysInside, List.drop_succ_cons]
      exact ih skip

/-- The reader at the start of a loop. -/
def Feed.reading (f : Feed) : Reading := ⟨f.parser, f.actions, none⟩

/-- The remaining count exceeds the bytes. -/
def Feed.loose (f : Feed) : Bool := decide (f.buffer.length < f.count)

/-- How a run ends whose reader ended so. -/
def FeedEnd.ofReading (r : Reading) (inside : Bool) : FeedEnd :=
  if inside then
    match r.stop with
    | none => .returned
    | some trap => .trapped trap
  else .trapped .outOfBounds

/-- Both parsers are equal, or both are invalid. -/
def Parser.Agrees (p q : Parser) : Prop := p = q ∨ p.state = .invalid ∧ q.state = .invalid

/-- A run does what the reader does, and ends as the shape of its bytes tells. -/
structure Feed.RunReads (platform : Platform) (f : Feed) : Prop where
  /-- The same actions are performed. -/
  actions : (parserFeedRun platform f).1.actions =
    (f.reading.bytes platform f.buffer).actions
  /-- A run that leaves its bytes is trapped. -/
  ending : (parserFeedRun platform f).2 =
    .ofReading (f.reading.bytes platform f.buffer)
      (staysInside platform 0 f.loose f.parser f.buffer)
  /-- A run that returns leaves the parser as the reader does. -/
  parser : (parserFeedRun platform f).2 = .returned →
    (parserFeedRun platform f).1.parser.Agrees (f.reading.bytes platform f.buffer).parser

/-- A run is its first iteration and the rest. -/
theorem Feed.RunReads.of_step (hc : f.count ≠ 0) (hstep : parserFeedStep platform f = .ok f')
    (hreading : f'.reading.bytes platform f'.buffer = f.reading.bytes platform f.buffer)
    (hinside : staysInside platform 0 f'.loose f'.parser f'.buffer =
      staysInside platform 0 f.loose f.parser f.buffer)
    (h : f'.RunReads platform) : f.RunReads platform := by
  obtain ⟨hactions, hending, hparser⟩ := h
  rw [hreading] at hactions hending hparser
  rw [hinside] at hending
  constructor <;> rw [parserFeedRun_step hc hstep] <;> assumption

/-- A run that leaves its bytes at once. -/
theorem Feed.RunReads.of_trap (hc : f.count ≠ 0)
    (hstep : parserFeedStep platform f = .error .outOfBounds)
    (hactions : (f.reading.bytes platform f.buffer).actions = f.actions)
    (hinside : staysInside platform 0 f.loose f.parser f.buffer = false) :
    f.RunReads platform := by
  constructor <;> rw [parserFeedRun_trap hc hstep]
  · exact hactions.symm
  · rw [hinside]
    rfl
  · intro h
    cases h

/-- Without a null byte, the reader asks for nothing. -/
theorem Reading.bytes_notMem {bytes : List UInt8} (hs : r.parser.state.isName = true)
    (hstop : r.stop = none) (hle : r.parser.name.length ≤ nameMax + 1)
    (hnul : (0 : UInt8) ∉ bytes) : (r.bytes platform bytes).actions = r.actions := by
  by_cases hrej : NameRejected r.parser.name bytes
  · exact (Reading.bytes_nameRejected hs hstop hle hrej).actions
  · rw [NameRejected, fragmentLength_of_notMem hnul, List.take_length, not_or] at hrej
    rw [Reading.bytes_fitting hs hstop hnul hrej.2 (Nat.le_of_not_lt hrej.1)]

/-- What stays inside where a name is pending. -/
theorem staysInside_name {loose : Bool} {parser : Parser} {bytes : List UInt8}
    (hs : parser.state.isName = true) (hne : bytes ≠ []) :
    staysInside platform 0 loose parser bytes =
      if 0 ∈ bytes then
        decide (NameRejected parser.name bytes) ||
          staysInside platform 0 true
            { parser.longer (bytes.take (fragmentLength bytes)) with state := .command }
            (bytes.drop (fragmentLength bytes))
      else !loose && decide (NameRejected parser.name bytes) := by
  cases bytes with
  | nil => exact absurd rfl hne
  | cons byte rest =>
    have hpos := fragmentLength_pos hne
    have hdrop : (byte :: rest).drop (fragmentLength (byte :: rest)) =
        rest.drop (fragmentLength (byte :: rest) - 1) := by
      conv_lhs => rw [← Nat.sub_add_cancel hpos, List.drop_succ_cons]
    rw [hdrop, ← staysInside_skip, staysInside]
    cases hstate : parser.state <;> simp [hstate, ParserState.isName] at hs ⊢

/-- A rejected name: nothing else happens, and the rest of the count is given up. -/
theorem Feed.RunReads.of_rejected (hs : f.parser.state.isName = true) (hc : f.count ≠ 0)
    (hp : f.parser.NameFormed) (hfill : nameFill f = .ok none)
    (hrej : NameRejected f.parser.name f.buffer)
    (hinside : staysInside platform 0 f.loose f.parser f.buffer = true) :
    f.RunReads platform := by
  have hstep := @parserFeedStep_rejected platform f hs hfill
  have hinvalid : (f.perform { f.parser with state := .invalid } []).parser.state = .invalid := rfl
  obtain ⟨hr, hparser, hactions⟩ := @parserFeedRun_inert platform _ hinvalid
  obtain ⟨hstate, hact, hstop⟩ := @Reading.bytes_nameRejected platform f.reading f.buffer hs rfl
    hp.length_le hrej
  constructor <;> rw [parserFeedRun_step hc hstep]
  · rw [hactions, hact]
    exact List.append_nil _
  · rw [hr, hinside, FeedEnd.ofReading, hstop]
    rfl
  · intro _
    right
    rw [hparser]
    exact ⟨hinvalid, hstate⟩

/-- A name that goes on: the run by the rest of it. -/
theorem Feed.RunReads.name (hs : f.parser.state.isName = true) (hc : f.count ≠ 0)
    (hle : f.buffer.length ≤ f.count) (hp : f.parser.NameFormed) (hne : f.buffer ≠ [])
    (ih : ∀ f', parserFeedStep platform f = .ok f' → f'.buffer.length ≤ f'.count →
      f'.RunReads platform) : f.RunReads platform := by
  have hlen := fragmentLength_le f.buffer
  have hpos := fragmentLength_pos hne
  by_cases hnul : (0 : UInt8) ∈ f.buffer
  · have hfill := nameFill_of_mem hnul hle
    by_cases hrej : NameRejected f.parser.name f.buffer
    · rw [if_pos hrej] at hfill
      refine .of_rejected hs hc hp hfill hrej ?_
      rw [staysInside_name hs hne, if_pos hnul, decide_eq_true hrej, Bool.true_or]
    · rw [if_neg hrej] at hfill
      have hstep := @parserFeedStep_accepted platform f _ hs hc hfill
      obtain ⟨hread, hlast⟩ := @Reading.bytes_named platform f.reading f.buffer hs rfl hnul hrej
      have hlast' : (f.filled (fragmentLength f.buffer)).parser.name.getLast? = some 0 := hlast
      have hloose : (f.filled (fragmentLength f.buffer)).named.loose = true := by
        simp only [Feed.loose, Feed.named_buffer, Feed.named_count, Feed.filled, Feed.advance,
          List.length_drop, decide_eq_true_eq]
        omega
      refine .of_step hc hstep ?_ ?_ (ih _ hstep (of_decide_eq_true hloose).le)
      · conv_rhs => rw [← List.take_append_drop (fragmentLength f.buffer) f.buffer]
        rw [Reading.bytes_append, hread, Feed.named, if_pos hlast']
        rfl
      · rw [staysInside_name hs hne, if_pos hnul, decide_eq_false hrej, Bool.false_or, hloose,
          Feed.named, if_pos hlast']
        rfl
  · by_cases hlt : f.buffer.length < f.count
    · refine .of_trap hc (parserFeedStep_fillError hs (nameFill_of_notMem hnul hlt)) ?_ ?_
      · exact @Reading.bytes_notMem platform f.reading f.buffer hs rfl hp.length_le hnul
      · rw [staysInside_name hs hne, if_neg hnul, Feed.loose, decide_eq_true hlt]
        rfl
    · have hexact : f.count = f.buffer.length := by omega
      have hloose : f.loose = false := decide_eq_false hlt
      have hfill := nameFill_exact hexact
      by_cases hrej : NameRejected f.parser.name f.buffer
      · rw [if_pos hrej] at hfill
        refine .of_rejected hs hc hp hfill hrej ?_
        rw [staysInside_name hs hne, if_neg hnul, hloose, decide_eq_true hrej]
        rfl
      · rw [if_neg hrej] at hfill
        have hstep := @parserFeedStep_accepted platform f _ hs hc hfill
        have hall := fragmentLength_of_notMem hnul
        have hlast : (f.filled (fragmentLength f.buffer)).parser.name.getLast? ≠ some 0 := by
          intro hlast
          rcases List.mem_append.mp (List.mem_of_getLast? hlast) with hmem | hmem
          · exact (hp.pending hs).1 hmem
          · exact hnul (List.mem_of_mem_take hmem)
        rw [Feed.named, if_neg hlast] at hstep
        have hbuffer : (f.filled (fragmentLength f.buffer)).buffer = [] := by
          rw [hall]
          exact List.drop_length
        have hcount : (f.filled (fragmentLength f.buffer)).count ≠ 0 := by
          simp only [Feed.filled, Feed.advance]
          omega
        -- the run goes on behind the end of its bytes
        refine .of_step hc hstep ?_ ?_ (ih _ hstep (by rw [hbuffer]; exact Nat.zero_le _))
        · rw [NameRejected, hall, List.take_length, not_or] at hrej
          rw [hbuffer, @Reading.bytes_fitting platform f.reading f.buffer hs rfl hnul hrej.2
            (Nat.le_of_not_lt hrej.1), hall]
          simp only [Feed.filled, List.take_length]
          rfl
        · have hloose' : (f.filled (fragmentLength f.buffer)).loose = true := by
            rw [Feed.loose, hbuffer]
            exact decide_eq_true (Nat.pos_of_ne_zero hcount)
          have hstate : (f.filled (fragmentLength f.buffer)).parser.state ≠ .invalid := by
            intro hinvalid
            rw [show f.parser.state = .invalid from hinvalid] at hs
            cases hs
          rw [staysInside_name hs hne, if_neg hnul, decide_eq_false hrej, Bool.and_false, hbuffer,
            staysInside, hloose', decide_eq_false hstate]
          rfl

/-- An invalid parser gives up the rest of the count. -/
theorem Feed.RunReads.of_invalid (h : f.parser.state = .invalid) : f.RunReads platform := by
  obtain ⟨hr, hparser, hactions⟩ := @parserFeedRun_inert platform f h
  have hread := @Reading.bytes_invalid platform f.reading h f.buffer
  have hinside : staysInside platform 0 f.loose f.parser f.buffer = true := by
    cases f.buffer with
    | nil => rw [staysInside, decide_eq_true h, Bool.or_true]
    | cons byte rest => rw [staysInside, h]
  constructor
  · rw [hactions, hread]
    rfl
  · rw [hr, hread, hinside]
    rfl
  · intro _
    rw [hparser, hread]
    exact Or.inl rfl

/-- Nothing is left of the bytes, but something of the count. -/
theorem Feed.RunReads.of_empty (h : f.parser.state ≠ .invalid) (hc : f.count ≠ 0)
    (hb : f.buffer = []) : f.RunReads platform := by
  have hlt : f.buffer.length < f.count := by
    rw [hb]
    exact Nat.pos_of_ne_zero hc
  have hstep : parserFeedStep platform f = .error .outOfBounds := by
    cases hname : f.parser.state.isName with
    | true =>
      apply parserFeedStep_fillError hname
      exact nameFill_of_notMem (by simp [hb]) hlt
    | false =>
      rw [parserFeedStep, hb]
      cases hs : f.parser.state <;> simp [hs, ParserState.isName] at hname h ⊢
  refine .of_trap hc hstep (by rw [hb]; rfl) ?_
  rw [hb, staysInside, Feed.loose, decide_eq_true hlt, decide_eq_false h]
  rfl

/-- An iteration that reads one byte, as the reader does. -/
theorem Feed.RunReads.read_byte {byte : UInt8} {rest : List UInt8} (hc : f.count ≠ 0)
    (hle : f.buffer.length ≤ f.count) (hb : f.buffer = byte :: rest)
    (hstep : parserFeedStep platform f = .ok f') (hbuffer : f'.buffer = f.buffer.drop 1)
    (hcount : f'.count = f.count - 1)
    (hreading : f.reading.byte platform byte = f'.reading)
    (hinside : ∀ loose, staysInside platform 0 loose f.parser (byte :: rest) =
      staysInside platform 0 loose f'.parser rest)
    (ih : ∀ f', parserFeedStep platform f = .ok f' → f'.buffer.length ≤ f'.count →
      f'.RunReads platform) : f.RunReads platform := by
  have hrest : f'.buffer = rest := by rw [hbuffer, hb, List.drop_succ_cons, List.drop_zero]
  have hlength : f.buffer.length = rest.length + 1 := by rw [hb, List.length_cons]
  have hloose : f'.loose = f.loose := by
    rw [Feed.loose, Feed.loose, hrest, hcount, hlength]
    exact decide_eq_decide.mpr (by omega)
  refine .of_step hc hstep ?_ ?_ (ih f' hstep (by rw [hrest]; omega))
  · rw [hrest, hb, Reading.bytes, Reading.bytes, List.foldl_cons, hreading]
  · rw [hrest, hb, hloose, hinside]

/-- An iteration that reads a command. -/
theorem Feed.RunReads.command {byte : UInt8} {rest : List UInt8} (hs : f.parser.state = .command)
    (hc : f.count ≠ 0) (hle : f.buffer.length ≤ f.count) (hb : f.buffer = byte :: rest)
    (ih : ∀ f', parserFeedStep platform f = .ok f' → f'.buffer.length ≤ f'.count →
      f'.RunReads platform) : f.RunReads platform := by
  cases hcmd : parserFeedCommand f.parser (platform.byteCapability byte) with
  | ok result =>
    obtain ⟨parser, actions⟩ := result
    refine .read_byte hc hle hb (parserFeedStep_command hs hb hcmd) rfl rfl ?_ ?_ ih
    · simp [Reading.byte, Feed.reading, Feed.perform, Feed.advance, hs, hcmd]
    · intro loose
      rw [staysInside, hs]
      simp only [hcmd]
      rfl
  | error trap =>
    have hstep : parserFeedStep platform f = .error trap := by
      rw [parserFeedStep, hs, hb]
      simp only [hcmd, except_bind_error]
    have hread : f.reading.bytes platform f.buffer = { f.reading with stop := some trap } := by
      have hbyte : f.reading.byte platform byte = { f.reading with stop := some trap } := by
        simp [Reading.byte, Feed.reading, hs, hcmd]
      rw [hb, Reading.bytes, List.foldl_cons, hbyte]
      exact Reading.bytes_stop rfl rest
    have hinside : staysInside platform 0 f.loose f.parser f.buffer = true := by
      rw [hb, staysInside, hs]
      simp only [hcmd]
    constructor <;> rw [parserFeedRun_trap hc hstep, hread]
    · rfl
    · rw [hinside]
      rfl
    · intro h
      cases h

/-- One iteration, whatever remains of the bytes. -/
theorem Feed.RunReads.iterate (hc : f.count ≠ 0) (hle : f.buffer.length ≤ f.count)
    (hp : f.parser.NameFormed)
    (ih : ∀ f', parserFeedStep platform f = .ok f' → f'.buffer.length ≤ f'.count →
      f'.RunReads platform) : f.RunReads platform := by
  cases hname : f.parser.state.isName with
  | true =>
    by_cases hb : f.buffer = []
    · refine .of_empty ?_ hc hb
      intro hs
      rw [hs] at hname
      cases hname
    · exact .name hname hc hle hp hb ih
  | false =>
    cases hs : f.parser.state
    case invalid => exact .of_invalid hs
    case command =>
      cases hb : f.buffer with
      | nil => exact .of_empty (by rw [hs]; decide) hc hb
      | cons byte rest => exact .command hs hc hle hb ih
    case endpointCreateCapabilities =>
      cases hb : f.buffer with
      | nil => exact .of_empty (by rw [hs]; decide) hc hb
      | cons byte rest =>
        have hstep : parserFeedStep platform f = .ok ((f.advance 1 (f.count - 1)).perform
            (parserFeedCapability platform f.parser byte) []) := by
          rw [parserFeedStep, hs, hb]
        refine .read_byte hc hle hb hstep rfl rfl ?_ ?_ ih
        · rw [Reading.byte]
          simp [Feed.reading, Feed.perform, Feed.advance, hs]
        · intro loose
          rw [staysInside, hs]
          rfl
    all_goals
      rw [hs] at hname
      cases hname

/-- Every run does what the reader does, from any well-formed name buffer. -/
theorem parserFeedRun_reads (f : Feed) (hp : f.parser.NameFormed)
    (hle : f.buffer.length ≤ f.count) : f.RunReads platform := by
  induction f using parserFeedRun_induction platform with
  | done f hc =>
    have hb : f.buffer = [] := List.length_eq_zero_iff.mp (by omega)
    have hloose : f.loose = false := by rw [Feed.loose, hb, hc]; rfl
    constructor <;> rw [parserFeedRun_done platform hc, hb]
    · rfl
    · rw [hloose]
      rfl
    · exact fun _ => Or.inl rfl
  | trap f t hc h =>
    apply Feed.RunReads.iterate hc hle hp
    intro f' hf'
    rw [h] at hf'
    cases hf'
  | step f f' hc h ih =>
    apply Feed.RunReads.iterate hc hle hp
    intro g hg hle'
    rw [h] at hg
    cases hg
    exact ih (parserFeedStep_names hp hc h).formed hle'

end Cyberd
