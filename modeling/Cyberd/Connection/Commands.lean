import Cyberd.Connection.Messages
import Cyberd.Connection.Names

/-!
# Unknown commands

A command byte is turned into a capability by a shift whose count is not bounded by
the width of a capability set, so that the bytes from 32 on alias the documented
ones. Below 32 a byte is accepted only as the command it is documented to be, and a
rejected one makes the connection inert.
-/

namespace Cyberd

open Library

/-- The capability of a command identifier, as documented. -/
def documentedCapability (byte : UInt8) : Option Capset :=
  [capabilityEndpointCreate, capabilityDaemonStart, capabilityDaemonStop,
    capabilityDaemonReload, capabilityDaemonEnd, capabilitySystemPoweroff,
    capabilitySystemHalt, capabilitySystemReboot, capabilitySystemSuspend][byte.toNat]?

/-- The byte is a documented command identifier, and its capability is in the set. -/
def CommandGranted (capabilities : Capset) (byte : UInt8) : Prop :=
  ∃ capability, documentedCapability byte = some capability ∧
    capsetHas capabilities capability = true

/-- No byte of any further read has an effect on the parser. -/
def Parser.Inert (platform : Platform) (parser : Parser) : Prop :=
  ∀ reads f, FeedVisited platform parser reads f → f.parser = parser ∧ f.actions = []

/-- What a command byte must lead to, in a state of the loop that is about to read it. -/
structure Feed.RejectsUnknown (platform : Platform) (capabilities : Capset) (f : Feed)
    (byte : UInt8) : Prop where
  /-- The shift is one of a bit of `capset_t`. -/
  shift : platform.charToUnsigned byte < 32
  /-- Nothing but a granted command is performed or begun. -/
  rejected : ¬ CommandGranted capabilities byte → ∃ f', parserFeedStep platform f = .ok f' ∧
    f'.actions = f.actions ∧ f'.parser = { f.parser with state := .invalid } ∧
    -- neither the rest of this read nor any later one has an effect
    (parserFeedRun platform f').2 = .returned ∧
    (parserFeedRun platform f').1.parser = f'.parser ∧
    (parserFeedRun platform f').1.actions = f.actions ∧ f'.parser.Inert platform

/-- Every byte that is read as a command during the reads is rejected for good, unless it
is a granted command. -/
def RejectsUnknown (platform : Platform) (capabilities : Capset)
    (reads : List (List UInt8 × Nat)) : Prop :=
  ∀ f, FeedVisited platform (connectionParser capabilities) reads f → f.count ≠ 0 →
    f.parser.state = .command → ∀ byte rest, f.buffer = byte :: rest →
    f.RejectsUnknown platform capabilities byte

/-- Every byte that is read as a command during the reads is below the width of
`capset_t`. -/
def CommandsBelowWidth (platform : Platform) (capabilities : Capset)
    (reads : List (List UInt8 × Nat)) : Prop :=
  ∀ f, FeedVisited platform (connectionParser capabilities) reads f → f.count ≠ 0 →
    f.parser.state = .command → ∀ byte rest, f.buffer = byte :: rest → byte < 32

variable {platform : Platform}

/-- The conversion of a byte keeps it, unless its sign is extended. -/
theorem Platform.charToUnsigned_lt (platform : Platform) (byte : UInt8) :
    platform.charToUnsigned byte < 32 ↔ byte < 32 := by
  have hbyte : byte.toUInt32 < 32 ↔ byte < 32 := by
    rw [UInt32.lt_iff_toNat_lt, UInt8.lt_iff_toNat_lt, UInt8.toNat_toUInt32]
    rfl
  unfold charToUnsigned
  split
  · rename_i hsign
    obtain ⟨-, hle⟩ := hsign
    have hbig : (0xffffff00 : UInt32) ≤ byte.toUInt32 ||| 0xffffff00 := by
      rw [UInt32.le_iff_toNat_le, UInt32.toNat_or]
      exact Nat.right_le_or
    rw [UInt32.le_iff_toNat_le] at hbig
    rw [UInt8.le_iff_toNat_le] at hle
    rw [UInt32.lt_iff_toNat_lt, UInt8.lt_iff_toNat_lt]
    have h1 : (0xffffff00 : UInt32).toNat = 4294967040 := rfl
    have h2 : (32 : UInt32).toNat = 32 := rfl
    have h3 : (32 : UInt8).toNat = 32 := rfl
    have h4 : (128 : UInt8).toNat = 128 := rfl
    omega
  · exact hbyte

/-- Only the low five bits of a command byte matter, whatever the sign of `char`. -/
theorem Platform.byteCapability_mod (platform : Platform) (byte : UInt8) :
    platform.byteCapability byte = (1 : Capset) <<< (byte % 32).toUInt32 := by
  have hmod : (platform.charToUnsigned byte).toNat % 32 = byte.toNat % 32 := by
    unfold charToUnsigned
    split
    · rw [UInt32.toNat_or, UInt8.toNat_toUInt32, Nat.or_mod_two_pow (n := 5)]
      exact Nat.or_zero _
    · rw [UInt8.toNat_toUInt32]
  have h32 : (32 : UInt8).toNat = 32 := rfl
  apply UInt32.toNat_inj.mp
  rw [byteCapability, UInt32.toNat_shiftLeft, UInt32.toNat_shiftLeft, hmod, UInt8.toNat_toUInt32,
    UInt8.toNat_mod, h32, Nat.mod_mod]

/-- Below the width of a capability set, a byte only has the capability that is documented
for it. -/
theorem Platform.byteCapability_documented (platform : Platform) {byte : UInt8}
    (hlt : byte < 32) (h : capsetHas capsetAll (platform.byteCapability byte) = true) :
    documentedCapability byte = some (platform.byteCapability byte) := by
  rw [byteCapability_mod] at h ⊢
  have hn : byte.toNat < 32 := UInt8.lt_iff_toNat_lt.mp hlt
  obtain ⟨n, rfl⟩ : ∃ n, byte = UInt8.ofNat n := ⟨byte.toNat, UInt8.ofNat_toNat.symm⟩
  generalize hm : (UInt8.ofNat n).toNat = m at hn
  have hbyte : UInt8.ofNat n = UInt8.ofNat m := by rw [← hm, UInt8.ofNat_toNat]
  rw [hbyte] at h ⊢
  clear hm hbyte hlt
  interval_cases m <;> revert h <;> decide

/-- A read that turned invalid ends without any effect. -/
theorem parserFeedRun_inert {f : Feed} (h : f.parser.state = .invalid) :
    (parserFeedRun platform f).2 = .returned ∧
      (parserFeedRun platform f).1.parser = f.parser ∧
      (parserFeedRun platform f).1.actions = f.actions := by
  rcases @parserFeedRun_invalid platform f h with hrun | hrun <;>
  · rw [hrun]
    exact ⟨rfl, rfl, rfl⟩

/-- A parser that turned invalid is inert. -/
theorem Parser.inert_of_invalid {parser : Parser} (h : parser.state = .invalid) :
    parser.Inert platform := by
  intro reads f hf
  induction hf with
  | begin parser memory count reads => exact ⟨rfl, rfl⟩
  | step hf hc hstep ih =>
    obtain ⟨hparser, hactions⟩ := ih h
    rw [parserFeedStep, hparser, h] at hstep
    cases hstep
    exact ⟨hparser, hactions⟩
  | @later parser memory count reads f hf ih =>
    have hsame : (parserFeed platform parser memory count).1.parser = parser :=
      (@parserFeedRun_inert platform ⟨parser, memory, count, 0, []⟩ h).2.1
    rw [hsame] at ih
    exact ih h

/-- Every state of the loop keeps the authority of the connection. -/
theorem FeedVisited.authorized {parser : Parser} {reads : List (List UInt8 × Nat)} {f : Feed}
    (h : FeedVisited platform parser reads f) (hp : parser.Authorized) :
    f.parser.Authorized ∧ f.parser.capabilities = parser.capabilities := by
  induction h with
  | begin parser memory count reads => exact ⟨hp, rfl⟩
  | step h hc hf ih =>
    obtain ⟨hauth, hcap⟩ := ih hp
    have hmove := parserFeedStep_authorized hc hauth hf
    exact ⟨hmove.parser, hmove.capabilities.trans hcap⟩
  | @later parser memory count reads f h ih =>
    obtain ⟨hmove, -⟩ := parserFeedRun_authorized platform ⟨parser, memory, count, 0, []⟩ hp
    obtain ⟨hauth, hcap⟩ := ih hmove.parser
    exact ⟨hauth, hcap.trans hmove.capabilities⟩

/-- A byte below the width that is no granted command turns the parser invalid. -/
theorem Feed.rejectsUnknown_of_lt {f : Feed} {byte : UInt8} {rest : List UInt8}
    (hauth : f.parser.Authorized) (hs : f.parser.state = .command)
    (hb : f.buffer = byte :: rest) (hlt : byte < 32) :
    f.RejectsUnknown platform f.parser.capabilities byte := by
  constructor
  · exact (platform.charToUnsigned_lt byte).mpr hlt
  · intro hgrant
    have hhas : ¬ capsetHas f.parser.capabilities (platform.byteCapability byte) = true := by
      intro hhas
      apply hgrant
      have hall := hauth.included.has hhas
      exact ⟨_, platform.byteCapability_documented hlt hall, hhas⟩
    have hcmd : parserFeedCommand f.parser (platform.byteCapability byte) =
        .ok ({ f.parser with state := .invalid }, []) := by
      rw [parserFeedCommand, if_neg hhas]
    obtain ⟨hr, hparser, hactions⟩ := @parserFeedRun_inert platform
      ((f.advance 1 (f.count - 1)).perform { f.parser with state := .invalid } []) rfl
    exact ⟨_, parserFeedStep_command hs hb hcmd, List.append_nil _, rfl, hr, hparser,
      hactions.trans (List.append_nil _), Parser.inert_of_invalid rfl⟩

/-- What remains to be read is the end of the memory of one of the reads. -/
theorem FeedVisited.buffer_suffix {parser : Parser} {reads : List (List UInt8 × Nat)} {f : Feed}
    (h : FeedVisited platform parser reads f) : ∃ read ∈ reads, f.buffer <:+ read.1 := by
  induction h with
  | begin parser memory count reads => exact ⟨_, List.mem_cons_self, List.suffix_refl _⟩
  | step h hc hf ih =>
    obtain ⟨read, hmem, hsuffix⟩ := ih
    refine ⟨read, hmem, ?_⟩
    cases parserFeedStep_move hc hf with
    | byte hne hb hcount ho hs => exact hb ▸ (List.drop_suffix _ _).trans hsuffix
    | fill len hpos hlen hb hcount ho hs => exact hb ▸ (List.drop_suffix _ _).trans hsuffix
    | reject hne hb hcount ho hi hs => exact hb ▸ hsuffix
    | discard hi hn => exact hn ▸ (List.drop_suffix _ _).trans hsuffix
  | later h ih =>
    obtain ⟨read, hmem, hsuffix⟩ := ih
    exact ⟨read, List.mem_cons_of_mem _ hmem, hsuffix⟩

/-- Reads of bytes below the width read no command from the width on. -/
theorem commandsBelowWidth_of_bytes {capabilities : Capset} {reads : List (List UInt8 × Nat)}
    (h : ∀ read ∈ reads, ∀ byte ∈ read.1, byte < 32) :
    CommandsBelowWidth platform capabilities reads := by
  intro f hf hc hs byte rest hb
  obtain ⟨read, hmem, hsuffix⟩ := hf.buffer_suffix
  apply h read hmem byte
  apply hsuffix.subset
  rw [hb]
  exact List.mem_cons_self

/-- For every set of capabilities and every sequence of reads, the commands are rejected
as they should be exactly when every byte that is read as a command is below 32. -/
theorem rejectsUnknown_iff {capabilities : Capset}
    (hall : Capset.Included capabilities capsetAll) (reads : List (List UInt8 × Nat)) :
    RejectsUnknown platform capabilities reads ↔
      CommandsBelowWidth platform capabilities reads := by
  constructor
  · intro h f hf hc hs byte rest hb
    exact (platform.charToUnsigned_lt byte).mp (h f hf hc hs byte rest hb).shift
  · intro h f hf hc hs byte rest hb
    obtain ⟨hauth, hcap⟩ := hf.authorized (connectionParser_authorized hall)
    have hlt := h f hf hc hs byte rest hb
    have hsame : f.parser.capabilities = capabilities := hcap
    exact hsame ▸ Feed.rejectsUnknown_of_lt hauth hs hb hlt

/-- A connection that may start daemons and suspend rejects a power off, and whatever comes
after it in this read and in the next one. -/
theorem rejectsUnknown_iff_poweroff :
    RejectsUnknown ⟨.little, true⟩ (capabilityDaemonStart ||| capabilitySystemSuspend)
        [([8, 5, 8, 1], 4), ([8, 1], 2)] ∧
      (feedChunks ⟨.little, true⟩
          (connectionParser (capabilityDaemonStart ||| capabilitySystemSuspend))
          [[8, 5, 8, 1], [8, 1]]).map Prod.snd = some [.queueReboot .swSuspend] :=
  ⟨(rejectsUnknown_iff (by decide) _).mpr (commandsBelowWidth_of_bytes (by simp)), by decide⟩

/-- The byte 37 is no documented command, and powers the machine off. -/
theorem rejectsUnknown_alias_fails :
    ¬ RejectsUnknown ⟨.little, true⟩ capsetAll [([37], 1)] ∧
    documentedCapability 37 = none ∧
    (parserFeed ⟨.little, true⟩ (connectionParser capsetAll) [37] 1).1.actions =
      [.queueReboot .powerOff] := by
  refine ⟨fun h => ?_, by decide, by decide⟩
  have hshift := (h _ (.begin _ [37] 1 []) (by decide) rfl 37 [] rfl).shift
  revert hshift
  decide

end Cyberd
