import Mathlib.Tactic.Common
import Mathlib.Tactic.IntervalCases

/-!
# Capability sets

A capability set is a 32-bit word with one bit for each command identifier.
Inclusion is the order of these words as sets, and is what an endpoint may pass
on to the endpoints created through it.
-/

namespace Cyberd

/-- `capset_t` -/
abbrev Capset := UInt32

/-- `CAPABILITY_ENDPOINT_CREATE` -/
def capabilityEndpointCreate : Capset := (1 : Capset) <<< (0 : Capset)

/-- `CAPABILITY_DAEMON_START` -/
def capabilityDaemonStart : Capset := (1 : Capset) <<< (1 : Capset)

/-- `CAPABILITY_DAEMON_STOP` -/
def capabilityDaemonStop : Capset := (1 : Capset) <<< (2 : Capset)

/-- `CAPABILITY_DAEMON_RELOAD` -/
def capabilityDaemonReload : Capset := (1 : Capset) <<< (3 : Capset)

/-- `CAPABILITY_DAEMON_END` -/
def capabilityDaemonEnd : Capset := (1 : Capset) <<< (4 : Capset)

/-- `CAPABILITY_SYSTEM_POWEROFF` -/
def capabilitySystemPoweroff : Capset := (1 : Capset) <<< (5 : Capset)

/-- `CAPABILITY_SYSTEM_HALT` -/
def capabilitySystemHalt : Capset := (1 : Capset) <<< (6 : Capset)

/-- `CAPABILITY_SYSTEM_REBOOT` -/
def capabilitySystemReboot : Capset := (1 : Capset) <<< (7 : Capset)

/-- `CAPABILITY_SYSTEM_SUSPEND` -/
def capabilitySystemSuspend : Capset := (1 : Capset) <<< (8 : Capset)

/-- `CAPSET_ALL` -/
def capsetAll : Capset := (capabilitySystemSuspend <<< (1 : Capset)) - 1

/-- `CAPSET_HAS` -/
def capsetHas (capset capability : Capset) : Bool := capset &&& capability != 0

/-- Every bit of the first set is in the second one. -/
def Capset.Included (a b : Capset) : Prop := a &&& b = a

instance (a b : Capset) : Decidable (Capset.Included a b) :=
  inferInstanceAs (Decidable (a &&& b = a))

/-- Inclusion is reflexive. -/
theorem Capset.Included.refl (a : Capset) : Capset.Included a a := UInt32.and_self

/-- Inclusion is transitive. -/
theorem Capset.Included.trans {a b c : Capset} (hab : Capset.Included a b)
    (hbc : Capset.Included b c) : Capset.Included a c := by
  unfold Included at *
  calc
    a &&& c = a &&& b &&& c := by rw [hab]
    _ = a &&& (b &&& c) := UInt32.and_assoc ..
    _ = a := by rw [hbc, hab]

/-- An intersection is included in its left operand. -/
theorem Capset.included_and_left (a b : Capset) : Capset.Included (a &&& b) a := by
  unfold Included
  rw [UInt32.and_comm a b, UInt32.and_assoc, UInt32.and_self]

/-- A capability of an included set is one of the including set. -/
theorem Capset.Included.has {a b c : Capset} (hab : Capset.Included a b)
    (h : capsetHas a c = true) : capsetHas b c = true := by
  simp only [capsetHas, bne_iff_ne, ne_eq] at h ⊢
  intro hb
  apply h
  rw [← hab, UInt32.and_assoc, hb, UInt32.and_zero]

/-- Byte order of the host. -/
inductive ByteOrder
  | little
  | big
  deriving DecidableEq, Repr

/-- What the C implementation leaves to the host. -/
structure Platform where
  /-- Order of the bytes of an integer in memory. -/
  byteOrder : ByteOrder
  /-- Whether plain `char` is signed. -/
  charSigned : Bool
  deriving DecidableEq, Repr

/-- A word with its four bytes in reverse order. -/
def byteSwap (w : UInt32) : UInt32 :=
  (w <<< (24 : UInt32)) ||| ((w &&& 0xff00) <<< (8 : UInt32)) |||
    ((w >>> (8 : UInt32)) &&& 0xff00) ||| (w >>> (24 : UInt32))

/-- `ntohl(3)` -/
def Platform.ntohl (platform : Platform) (w : UInt32) : UInt32 :=
  match platform.byteOrder with
  | .little => byteSwap w
  | .big => w

/-- The cast of a plain `char` to `unsigned int`, with its sign extension. -/
def Platform.charToUnsigned (platform : Platform) (byte : UInt8) : UInt32 :=
  if platform.charSigned ∧ 128 ≤ byte then byte.toUInt32 ||| 0xffffff00 else byte.toUInt32

/-- `(capset_t)1 << (unsigned int)byte`, the count being taken modulo 32. -/
def Platform.byteCapability (platform : Platform) (byte : UInt8) : Capset :=
  (1 : Capset) <<< platform.charToUnsigned byte

/-- A word shifted out of one is one of the 32 single bits. -/
theorem Platform.byteCapability_bit (platform : Platform) (byte : UInt8) :
    ∃ n, n < 32 ∧ platform.byteCapability byte = (1 : Capset) <<< (UInt32.ofNat n) := by
  refine ⟨(platform.charToUnsigned byte).toNat % 32, Nat.mod_lt _ (by decide), ?_⟩
  unfold byteCapability
  apply UInt32.toNat_inj.mp
  simp [UInt32.toNat_shiftLeft]

/-- The nine capabilities are the only single bits of a set of capabilities. -/
theorem Platform.byteCapability_cases (platform : Platform) (byte : UInt8) {capset : Capset}
    (hall : Capset.Included capset capsetAll)
    (h : capsetHas capset (platform.byteCapability byte) = true) :
    platform.byteCapability byte = capabilityEndpointCreate ∨
    platform.byteCapability byte = capabilityDaemonStart ∨
    platform.byteCapability byte = capabilityDaemonStop ∨
    platform.byteCapability byte = capabilityDaemonReload ∨
    platform.byteCapability byte = capabilityDaemonEnd ∨
    platform.byteCapability byte = capabilitySystemPoweroff ∨
    platform.byteCapability byte = capabilitySystemHalt ∨
    platform.byteCapability byte = capabilitySystemReboot ∨
    platform.byteCapability byte = capabilitySystemSuspend := by
  have hin := hall.has h
  obtain ⟨n, hn, hbit⟩ := platform.byteCapability_bit byte
  rw [hbit] at hin ⊢
  clear hbit h hall
  interval_cases n <;> revert hin <;> decide

end Cyberd
