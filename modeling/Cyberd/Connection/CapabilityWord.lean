import Cyberd.Connection.Bytes

/-!
# Capability words on the wire

The message of cyberctl carries a capability set with its most significant byte first.
The parser puts these bytes together as the value they stand for, and then converts this
value as if it were still in network order.
-/

namespace Cyberd

open Library

/-- `htonl(3)` -/
def Platform.htonl (platform : Platform) (word : UInt32) : UInt32 :=
  match platform.byteOrder with
  | .little => byteSwap word
  | .big => word

/-- The bytes of a word in memory. -/
def Platform.wordBytes (platform : Platform) (word : UInt32) : List UInt8 :=
  match platform.byteOrder with
  | .little => [word.toUInt8, (word >>> (8 : UInt32)).toUInt8, (word >>> (16 : UInt32)).toUInt8,
      (word >>> (24 : UInt32)).toUInt8]
  | .big => [(word >>> (24 : UInt32)).toUInt8, (word >>> (16 : UInt32)).toUInt8,
      (word >>> (8 : UInt32)).toUInt8, word.toUInt8]

/-- The message of `initctl_endpoint_create`. -/
def initctlEndpointCreate (platform : Platform) (id : UInt8) (capabilities : Capset)
    (name : Name) : List UInt8 :=
  id :: (platform.wordBytes (platform.htonl capabilities) ++ (name ++ [0]))

/-- The word that `parser_feed` makes of the capability bytes. -/
def wordOf (bytes : List UInt8) : UInt32 :=
  bytes.foldl (fun word byte => (word <<< (8 : UInt32)) ||| byte.toUInt32) 0

/-- A request to create an endpoint is understood: the bytes before its name come in some
reads, the rest of them in one more together with the name. The requested set is the one
that was encoded, and the endpoint gets what the connection has of it. -/
def CapabilitiesSurvive (platform : Platform) (capabilities c : Capset) (name : Name)
    (chunks : List (List UInt8)) (last : List UInt8) : Prop :=
  ∃ parser, feedChunks platform (connectionParser capabilities) chunks = some (parser, []) ∧
    let f := (parserFeed platform parser (last ++ (name ++ [0]))
      (last ++ (name ++ [0])).length).1
    f.parser.requested = c ∧
    (capabilities &&& c ≠ 0 ∧ EndpointName name →
      f.actions = [.endpointCreate name (capabilities &&& c)]) ∧
    (¬ (capabilities &&& c ≠ 0 ∧ EndpointName name) → f.actions = [])

variable {platform : Platform} {c : Capset} {name : Name}

/-- A byte is put behind the bytes of a word. -/
theorem wordByte_toNat {word : UInt32} {byte : UInt8} (h : word.toNat < 2 ^ 24) :
    ((word <<< (8 : UInt32)) ||| byte.toUInt32).toNat = word.toNat * 256 + byte.toNat := by
  have hshift : (word <<< (8 : UInt32)).toNat = word.toNat <<< 8 := by
    rw [UInt32.toNat_shiftLeft]
    change word.toNat <<< 8 % 2 ^ 32 = word.toNat <<< 8
    rw [Nat.shiftLeft_eq]
    exact Nat.mod_eq_of_lt (by omega)
  rw [UInt32.toNat_or, hshift, UInt8.toNat_toUInt32,
    ← Nat.shiftLeft_add_eq_or_of_lt byte.toNat_lt word.toNat, Nat.shiftLeft_eq]

/-- The value of four bytes, the most significant one first. -/
theorem wordOf_toNat (b3 b2 b1 b0 : UInt8) :
    (wordOf [b3, b2, b1, b0]).toNat =
      ((b3.toNat * 256 + b2.toNat) * 256 + b1.toNat) * 256 + b0.toNat := by
  have hb3 := b3.toNat_lt
  have hb2 := b2.toNat_lt
  have hb1 := b1.toNat_lt
  have h1 := @wordByte_toNat 0 b3 (by decide)
  rw [UInt32.toNat_zero, Nat.zero_mul, Nat.zero_add] at h1
  have h2 := @wordByte_toNat _ b2 (by rw [h1]; omega)
  rw [h1] at h2
  have h3 := @wordByte_toNat _ b1 (by rw [h2]; omega)
  rw [h2] at h3
  have h4 := @wordByte_toNat _ b0 (by rw [h3]; omega)
  rw [h3] at h4
  exact h4

/-- A byte of a word by its value. -/
theorem wordByte_shiftRight (word : UInt32) {n : Nat} (h : n < 32) :
    (word >>> UInt32.ofNat n).toUInt8.toNat = word.toNat / 2 ^ n % 256 := by
  rw [UInt32.toNat_toUInt8, UInt32.toNat_shiftRight, UInt32.toNat_ofNat',
    Nat.shiftRight_eq_div_pow, Nat.mod_mod_of_dvd _ (by decide), Nat.mod_eq_of_lt h]

/-- The bytes of a word, the most significant one first. -/
def bigEndian (word : UInt32) : List UInt8 :=
  [(word >>> (24 : UInt32)).toUInt8, (word >>> (16 : UInt32)).toUInt8,
    (word >>> (8 : UInt32)).toUInt8, word.toUInt8]

/-- The parser has the value of a word once it has read its bytes. -/
theorem wordOf_bigEndian (word : UInt32) : wordOf (bigEndian word) = word := by
  have h3 := wordByte_shiftRight word (n := 24) (by decide)
  have h2 := wordByte_shiftRight word (n := 16) (by decide)
  have h1 := wordByte_shiftRight word (n := 8) (by decide)
  have h0 : word.toUInt8.toNat = word.toNat % 256 := UInt32.toNat_toUInt8 word
  have hlt := word.toNat_lt
  apply UInt32.toNat_inj.mp
  rw [bigEndian, wordOf_toNat]
  change (((word >>> UInt32.ofNat 24).toUInt8.toNat * 256 +
    (word >>> UInt32.ofNat 16).toUInt8.toNat) * 256 +
    (word >>> UInt32.ofNat 8).toUInt8.toNat) * 256 + _ = _
  rw [h3, h2, h1, h0]
  omega

/-- The bytes of a swapped word are those of the word in reverse order. -/
theorem byteSwap_bytes (word : UInt32) :
    (byteSwap word).toUInt8 = (word >>> (24 : UInt32)).toUInt8 ∧
    (byteSwap word >>> (8 : UInt32)).toUInt8 = (word >>> (16 : UInt32)).toUInt8 ∧
    (byteSwap word >>> (16 : UInt32)).toUInt8 = (word >>> (8 : UInt32)).toUInt8 ∧
    (byteSwap word >>> (24 : UInt32)).toUInt8 = word.toUInt8 := by
  refine ⟨?_, ?_, ?_, ?_⟩ <;> apply UInt8.toBitVec_inj.mp <;> ext i hi <;> simp [byteSwap]
  all_goals interval_cases i <;> simp

/-- On any host, the most significant byte of a set is the first one on the wire. -/
theorem Platform.wordBytes_htonl (platform : Platform) (word : UInt32) :
    platform.wordBytes (platform.htonl word) = bigEndian word := by
  obtain ⟨order, signed⟩ := platform
  cases order with
  | little =>
    obtain ⟨h0, h1, h2, h3⟩ := byteSwap_bytes word
    simp only [wordBytes, htonl, bigEndian, h0, h1, h2, h3]
  | big => rfl

/-- The parser after some of the bytes before a name: the command, and capability bytes. -/
def headerParser (platform : Platform) (capabilities : Capset) : List UInt8 → Parser
  | [] => connectionParser capabilities
  | _ :: bytes =>
    if bytes.length = 4 then
      ⟨capabilities, .endpointCreateName, wordOf bytes, 4, platform.ntohl (wordOf bytes), []⟩
    else ⟨capabilities, .endpointCreateCapabilities, wordOf bytes, bytes.length, 0, []⟩

/-- The command byte of a request to create an endpoint. -/
theorem byteCapability_endpointCreate (platform : Platform) :
    platform.byteCapability (commandOf capabilityEndpointCreate) = capabilityEndpointCreate := by
  obtain ⟨order, signed⟩ := platform
  cases order <;> cases signed <;> decide

variable {capabilities : Capset} {f : Feed}

/-- One more byte before the name. -/
theorem parserFeedStep_header (hcap : capsetHas capabilities capabilityEndpointCreate = true)
    {front : List UInt8} {byte : UInt8} {rest : List UInt8}
    (hid : front = [] → byte = commandOf capabilityEndpointCreate) (hlen : front.length ≤ 4)
    (hs : f.parser = headerParser platform capabilities front) (hb : f.buffer = byte :: rest) :
    parserFeedStep platform f = .ok ((f.advance 1 (f.count - 1)).perform
      (headerParser platform capabilities (front ++ [byte])) []) := by
  cases front with
  | nil =>
    have hcmd : parserFeedCommand f.parser (platform.byteCapability byte) =
        .ok (headerParser platform capabilities [byte], []) := by
      rw [hid rfl, byteCapability_endpointCreate, hs, parserFeedCommand]
      exact if_pos hcap
    exact parserFeedStep_command (by rw [hs]; rfl) hb hcmd
  | cons id bytes =>
    rw [List.length_cons] at hlen
    have hne : bytes.length ≠ 4 := by omega
    rw [headerParser, if_neg hne] at hs
    rw [parserFeedStep, hs, hb]
    simp only [parserFeedCapability, headerParser, List.cons_append, List.length_append,
      List.length_singleton, wordOf, List.foldl_append, List.foldl_cons, List.foldl_nil]
    split <;> simp_all

/-- Bytes before the name, wherever the read ends. -/
theorem parserFeedRun_header (hcap : capsetHas capabilities capabilityEndpointCreate = true)
    {front : List UInt8} (bytes : List UInt8) {rest : List UInt8}
    (hid : (front ++ bytes).head? = some (commandOf capabilityEndpointCreate) ∨
      front ++ bytes = [])
    (hlen : (front ++ bytes).length ≤ 5)
    (hs : f.parser = headerParser platform capabilities front) (hb : f.buffer = bytes ++ rest)
    (hc : f.count = f.buffer.length) :
    parserFeedRun platform f = parserFeedRun platform
      ⟨headerParser platform capabilities (front ++ bytes), rest, rest.length,
        f.offset + bytes.length, f.actions⟩ := by
  induction bytes generalizing front f with
  | nil =>
    rw [List.nil_append] at hb
    rw [List.append_nil, ← hs, ← hb, ← hc]
    rfl
  | cons byte bytes ih =>
    rw [List.length_append, List.length_cons] at hlen
    have hcount : f.count ≠ 0 := by
      rw [hc, hb]
      simp
    have hfirst : front = [] → byte = commandOf capabilityEndpointCreate := by
      rintro rfl
      simpa using hid
    have hstep := parserFeedStep_header hcap hfirst (by omega) hs hb
    rw [parserFeedRun_step hcount hstep]
    have hsplit : front ++ byte :: bytes = (front ++ [byte]) ++ bytes := by simp
    rw [hsplit] at hid ⊢
    rw [ih hid (by simp only [List.length_append, List.length_singleton]; omega) rfl
      (by rw [Feed.perform, Feed.advance, hb]; rfl)
      (by simp only [Feed.perform, Feed.advance, hc, hb, List.cons_append, List.drop_succ_cons,
        List.drop_zero, List.length_cons, Nat.add_sub_cancel])]
    simp only [Feed.perform, Feed.advance, List.append_nil, List.length_cons]
    rw [Nat.add_assoc, Nat.add_comm 1]

/-- Reads of bytes before the name. -/
theorem feedChunks_header (hcap : capsetHas capabilities capabilityEndpointCreate = true)
    {front : List UInt8} (chunks : List (List UInt8))
    (hid : (front ++ chunks.flatten).head? = some (commandOf capabilityEndpointCreate) ∨
      front ++ chunks.flatten = [])
    (hlen : (front ++ chunks.flatten).length ≤ 5) :
    feedChunks platform (headerParser platform capabilities front) chunks =
      some (headerParser platform capabilities (front ++ chunks.flatten), []) := by
  induction chunks generalizing front with
  | nil =>
    rw [List.flatten_nil, List.append_nil]
    rfl
  | cons chunk chunks ih =>
    rw [List.flatten_cons, ← List.append_assoc] at hid hlen ⊢
    have hid' : (front ++ chunk).head? = some (commandOf capabilityEndpointCreate) ∨
        front ++ chunk = [] := by
      cases hfront : front ++ chunk with
      | nil => exact Or.inr rfl
      | cons b bs =>
        rw [hfront] at hid
        simpa using hid
    have hrun := @parserFeedRun_header platform capabilities
      ⟨headerParser platform capabilities front, chunk, chunk.length, 0, []⟩ hcap front chunk []
      hid' (by rw [List.length_append] at hlen; omega) rfl (List.append_nil _).symm rfl
    have hdone := @parserFeedRun_done platform
      ⟨headerParser platform capabilities (front ++ chunk), [], 0, 0 + chunk.length, []⟩ rfl
    rw [List.length_nil] at hrun
    rw [feedChunks, parserFeed, hrun, hdone]
    simp only
    rw [ih hid hlen]
    rfl

/-- The names for which an endpoint is created. -/
theorem endpointName_iff (hnul : (0 : UInt8) ∉ name) :
    EndpointName name ↔
      ¬ NameRejected [] (name ++ [0]) ∧ name ≠ [] ∧ name.head? ≠ some byteDot := by
  have hlen := fragmentLength_of_first hnul []
  have htake : (name ++ [0]).take (name.length + 1) = name ++ [0] :=
    List.take_of_length_le (by simp)
  rw [NameRejected, hlen, htake, not_or, List.length_nil, Nat.zero_add]
  constructor
  · rintro ⟨⟨-, hslash, hlen⟩, hne, hdot⟩
    refine ⟨⟨by omega, ?_⟩, hne, hdot⟩
    intro hmem
    rcases List.mem_append.mp hmem with hmem | hmem
    · exact hslash hmem
    · exact absurd (List.mem_singleton.mp hmem) (by decide)
  · rintro ⟨⟨hlen, hslash⟩, hne, hdot⟩
    exact ⟨⟨hnul, fun hmem => hslash (List.mem_append_left _ hmem), by omega⟩, hne, hdot⟩

/-- The read of the name, once its capability set is known. -/
theorem parserFeedRun_endpointName (hs : f.parser.state = .endpointCreateName)
    (hname : f.parser.name = []) (hnul : (0 : UInt8) ∉ name) (hb : f.buffer = name ++ [0])
    (hc : f.count = f.buffer.length) (hactions : f.actions = []) :
    (parserFeedRun platform f).1.parser.requested = f.parser.requested ∧
    (f.parser.capabilities &&& f.parser.requested ≠ 0 ∧ EndpointName name →
      (parserFeedRun platform f).1.actions =
        [.endpointCreate name (f.parser.capabilities &&& f.parser.requested)]) ∧
    (¬ (f.parser.capabilities &&& f.parser.requested ≠ 0 ∧ EndpointName name) →
      (parserFeedRun platform f).1.actions = []) := by
  have hisName : f.parser.state.isName = true := by rw [hs]; rfl
  have hmem : (0 : UInt8) ∈ f.buffer := by rw [hb]; simp
  have hcount : f.count ≠ 0 := by rw [hc, hb]; simp
  have hfill := nameFill_of_mem hmem hc.symm.le
  rw [endpointName_iff hnul]
  by_cases hrej : NameRejected f.parser.name f.buffer
  · rw [if_pos hrej] at hfill
    rw [parserFeedRun_step hcount (parserFeedStep_rejected hisName hfill)]
    obtain ⟨-, hparser, hacts⟩ :=
      @parserFeedRun_inert platform (f.perform { f.parser with state := .invalid } []) rfl
    rw [hparser, hacts, Feed.perform, hactions]
    rw [hname, hb] at hrej
    refine ⟨rfl, ?_, fun _ => rfl⟩
    rintro ⟨-, hok, -⟩
    exact absurd hrej hok
  · rw [if_neg hrej] at hfill
    have hstep := @parserFeedStep_accepted platform f _ hisName hcount hfill
    have hlen : fragmentLength f.buffer = name.length + 1 := by
      rw [hb]
      exact fragmentLength_of_first hnul []
    have htake : f.buffer.take (fragmentLength f.buffer) = name ++ [0] := by
      rw [hlen, hb]
      exact List.take_of_length_le (by simp)
    have hparser : (f.filled (fragmentLength f.buffer)).parser =
        { f.parser with name := name ++ [0] } := by
      rw [Feed.filled, htake, hname]
      rfl
    generalize hf' : (f.filled (fragmentLength f.buffer)).named = f' at hstep
    rw [Feed.named, hparser, if_pos List.getLast?_concat, eq_comm] at hf'
    rw [parserFeedRun_step hcount hstep]
    have hcount' : f'.count ≠ 0 := by
      rw [hf']
      simp only [Feed.perform, Feed.filled, Feed.advance]
      omega
    have hend : parserFeedStep platform f' = .error .outOfBounds := by
      have hbuffer : f'.buffer = [] := by
        rw [hf']
        simp only [Feed.perform, Feed.filled, Feed.advance, List.drop_eq_nil_iff]
        rw [hlen, hb]
        simp
      rw [parserFeedStep, hbuffer, hf']
      rfl
    have hstring : cString (name ++ [0]) = name := cString_append hnul []
    have hacts : f'.actions = if f.parser.capabilities &&& f.parser.requested ≠ 0 ∧
        name ≠ [] ∧ name.head? ≠ some byteDot then
          [.endpointCreate name (f.parser.capabilities &&& f.parser.requested)] else [] := by
      rw [hf']
      simp only [Feed.perform, Feed.filled, Feed.advance, hactions, Parser.completed, hs, hstring,
        List.nil_append]
    rw [hname, hb] at hrej
    rw [parserFeedRun_trap hcount' hend]
    refine ⟨by rw [hf']; rfl, ?_, ?_⟩
    · rintro ⟨hcaps, -, hne, hdot⟩
      rw [hacts, if_pos ⟨hcaps, hne, hdot⟩]
    · intro hnot
      rw [hacts, if_neg]
      rintro ⟨hcaps, hne, hdot⟩
      exact hnot ⟨hcaps, hrej, hne, hdot⟩

/-- Swapping the bytes of the value once more is a change, unless the host is big-endian or
the value reads the same both ways. -/
theorem Platform.ntohl_eq_self_iff (platform : Platform) (word : UInt32) :
    platform.ntohl word = word ↔ platform.byteOrder = .big ∨ byteSwap word = word := by
  obtain ⟨order, signed⟩ := platform
  cases order with
  | little => simp [ntohl]
  | big => simp [ntohl]

/-- For every encoded set, every connection that may create endpoints, and every way to
split the bytes before the name across reads, the request is understood exactly on a
big-endian host, or for a set that is the same with its bytes swapped. -/
theorem capabilitiesSurvive_iff {chunks : List (List UInt8)} {last : List UInt8}
    (hcap : capsetHas capabilities capabilityEndpointCreate = true) (hnul : (0 : UInt8) ∉ name)
    (hsplit : chunks.flatten ++ (last ++ (name ++ [0])) =
      initctlEndpointCreate platform (commandOf capabilityEndpointCreate) c name) :
    CapabilitiesSurvive platform capabilities c name chunks last ↔
      platform.byteOrder = .big ∨ byteSwap c = c := by
  rw [initctlEndpointCreate, platform.wordBytes_htonl, ← List.append_assoc,
    ← List.cons_append] at hsplit
  have hheader := List.append_cancel_right hsplit
  have hlength : chunks.flatten.length + last.length = 5 := by
    rw [← List.length_append, hheader]
    rfl
  have hid : chunks.flatten.head? = some (commandOf capabilityEndpointCreate) ∨
      chunks.flatten = [] := by
    cases hfront : chunks.flatten with
    | nil => exact Or.inr rfl
    | cons byte bytes =>
      rw [hfront] at hheader
      left
      rw [List.head?_cons, (List.cons.inj hheader).1]
  have hchunks := @feedChunks_header platform capabilities hcap [] chunks hid
    (by rw [List.nil_append]; omega)
  have hrun := @parserFeedRun_header platform capabilities
    ⟨headerParser platform capabilities chunks.flatten, last ++ (name ++ [0]),
      (last ++ (name ++ [0])).length, 0, []⟩ hcap chunks.flatten last (name ++ [0])
    (Or.inl (by rw [hheader]; rfl)) (by rw [List.length_append]; omega) rfl rfl rfl
  have hparser : headerParser platform capabilities (chunks.flatten ++ last) =
      ⟨capabilities, .endpointCreateName, c, 4, platform.ntohl c, []⟩ := by
    have hfour : (bigEndian c).length = 4 := rfl
    rw [hheader, headerParser, if_pos hfour, wordOf_bigEndian]
  rw [hparser] at hrun
  obtain ⟨hrequested, hcreated, hrefused⟩ := @parserFeedRun_endpointName platform name
    ⟨⟨capabilities, .endpointCreateName, c, 4, platform.ntohl c, []⟩, name ++ [0],
      (name ++ [0]).length, 0 + last.length, []⟩ rfl rfl hnul rfl rfl rfl
  rw [← platform.ntohl_eq_self_iff]
  constructor
  · rintro ⟨parser, hfeed, hreq, -⟩
    rw [List.nil_append] at hchunks
    have hsome := hchunks.symm.trans hfeed
    cases hsome
    rw [parserFeed, hrun, hrequested] at hreq
    exact hreq
  · intro hsame
    refine ⟨_, hchunks, ?_⟩
    simp only [List.nil_append, parserFeed, hrun]
    simp only [hsame] at hrequested hcreated hrefused ⊢
    exact ⟨hrequested, hcreated, hrefused⟩

/-- On a big-endian host the set 3 survives, with its word cut in two. -/
theorem capabilitiesSurvive_iff_big :
    CapabilitiesSurvive ⟨.big, true⟩ capsetAll 3 [97] [[0, 0, 0]] [0, 3] :=
  (capabilitiesSurvive_iff rfl (by decide) rfl).mpr (Or.inl rfl)

/-- On a little-endian host the set 1 becomes `1 << 24`, and no endpoint is created. -/
theorem capabilitiesSurvive_little_fails :
    ¬ CapabilitiesSurvive ⟨.little, true⟩ capsetAll 1 [97] [] [0, 0, 0, 0, 1] ∧
    initctlEndpointCreate ⟨.little, true⟩ (commandOf capabilityEndpointCreate) 1 [97] =
      [0, 0, 0, 0, 1] ++ [97, 0] := by
  refine ⟨?_, by decide⟩
  rintro ⟨parser, hfeed, hreq, -⟩
  cases hfeed
  revert hreq
  decide

end Cyberd
