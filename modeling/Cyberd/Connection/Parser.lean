import Cyberd.Trap
import Cyberd.Capabilities
import Cyberd.Library.CString

/-!
# The message parser of a connection

The functions of `socket_connection_node.c` as they move the cursor and the
remaining count. The buffer is the memory from the cursor on; reading past its
end is a trap. An action is what the parser has other modules perform.
-/

namespace Cyberd

open Library

/-- `NAME_MAX` -/
def nameMax : Nat := 255

/-- The byte `'/'`. -/
def byteSlash : UInt8 := 47

/-- The byte `'.'`. -/
def byteDot : UInt8 := 46

/-- `enum parser_state` -/
inductive ParserState
  | command
  | endpointCreateCapabilities
  | endpointCreateName
  | daemonStartName
  | daemonStopName
  | daemonReloadName
  | daemonEndName
  | invalid
  deriving DecidableEq, Repr

/-- `struct parser`. The members of the union are separate fields, each one is
initialized when the state that reads it is entered. -/
structure Parser where
  /-- Capabilities of the connection. -/
  capabilities : Capset
  /-- State of the parser. -/
  state : ParserState
  /-- `endpoint.capabilities.word`, the bytes of a capability set parsed so far. -/
  word : UInt32 := 0
  /-- `endpoint.capabilities.size`, how many of them. -/
  size : Nat := 0
  /-- `endpoint.name.capabilities`, the requested capability set. -/
  requested : Capset := 0
  /-- The first `len` bytes of `endpoint.name.buf` or of `daemon.buf`. -/
  name : List UInt8 := []
  deriving DecidableEq, Repr

/-- The callbacks given to `parser_feed_daemon_name`. -/
inductive DaemonAction
  | daemonStart
  | daemonStop
  | daemonReload
  | daemonEnd
  deriving DecidableEq, Repr

/-- The `reboot(2)` values a connection may queue. -/
inductive Howto
  | powerOff
  | haltSystem
  | autoboot
  | swSuspend
  deriving DecidableEq, Repr

/-- What a parser has performed. -/
inductive Action
  /-- `socket_endpoint_node_create`, followed by the insertion of the node. -/
  | endpointCreate (name : Name) (capabilities : Capset)
  /-- `configuration_find`, followed by the action on the daemon if there is one. -/
  | daemon (action : DaemonAction) (name : Name)
  /-- `queue_reboot` -/
  | queueReboot (howto : Howto)
  deriving DecidableEq, Repr

/-- `socket_connection_node_create`: the parser of an accepted connection. -/
def connectionParser (capabilities : Capset) : Parser := ⟨capabilities, .command, 0, 0, 0, []⟩

/-- `parser_feed_command` -/
def parserFeedCommand (parser : Parser) (capability : Capset) :
    Except Trap (Parser × List Action) :=
  if capsetHas parser.capabilities capability then
    if capability = capabilityEndpointCreate then
      .ok ({ parser with state := .endpointCreateCapabilities, word := 0, size := 0 }, [])
    else if capability = capabilityDaemonStart then
      .ok ({ parser with state := .daemonStartName, name := [] }, [])
    else if capability = capabilityDaemonStop then
      .ok ({ parser with state := .daemonStopName, name := [] }, [])
    else if capability = capabilityDaemonReload then
      .ok ({ parser with state := .daemonReloadName, name := [] }, [])
    else if capability = capabilityDaemonEnd then
      .ok ({ parser with state := .daemonEndName, name := [] }, [])
    else if capability = capabilitySystemPoweroff then .ok (parser, [.queueReboot .powerOff])
    else if capability = capabilitySystemHalt then .ok (parser, [.queueReboot .haltSystem])
    else if capability = capabilitySystemReboot then .ok (parser, [.queueReboot .autoboot])
    else if capability = capabilitySystemSuspend then .ok (parser, [.queueReboot .swSuspend])
    else .error .abort
  else .ok ({ parser with state := .invalid }, [])

/-- `memchr(3)`: the index of the first occurrence among `count` bytes, which are
read one after the other up to it. -/
def memchr (byte : UInt8) : List UInt8 → Nat → Except Trap (Option Nat)
  | _, 0 => .ok none
  | [], _ + 1 => .error .outOfBounds
  | b :: buffer, count + 1 =>
    if b = byte then .ok (some 0)
    else do
      let found ← memchr byte buffer count
      return found.map (· + 1)

/-- What `parser_feed` holds between two bytes. -/
structure Feed where
  /-- The parser being fed. -/
  parser : Parser
  /-- The memory from the cursor on. -/
  buffer : List UInt8
  /-- The remaining count. -/
  count : Nat
  /-- How far the cursor has moved. -/
  offset : Nat := 0
  /-- Performed actions, in order. -/
  actions : List Action := []
  deriving DecidableEq, Repr

/-- The cursor moves over `len` bytes and the remaining count becomes `count`. -/
def Feed.advance (f : Feed) (len count : Nat) : Feed :=
  { f with buffer := f.buffer.drop len, count := count, offset := f.offset + len }

/-- The parser changes and performs actions. -/
def Feed.perform (f : Feed) (parser : Parser) (actions : List Action) : Feed :=
  { f with parser := parser, actions := f.actions ++ actions }

/-- The length of the fragment, `nul != NULL ? (nul - in + 1) : inlen`. -/
def fragmentUpTo (nul : Option Nat) (inlen : Nat) : Nat :=
  match nul with
  | some index => index + 1
  | none => inlen

/-- The outputs of an accepted fragment of `len` bytes. The caller's count is
increased by it, see `*inlenp += len`. -/
def Feed.filled (f : Feed) (len : Nat) : Feed :=
  { f.advance len (f.count + len) with
    parser := { f.parser with name := f.parser.name ++ f.buffer.take len } }

/-- The checks of `name_fill` on a fragment, and its outputs. -/
def nameFillFragment (f : Feed) (len : Nat) : Except Trap (Option Feed) :=
  if nameMax + 1 < f.parser.name.length + len then .ok none
  else do
    let slash ← memchr byteSlash f.buffer len
    return if slash.isSome then none else some (f.filled len)

/-- `name_fill`, with `none` for its negative value. -/
def nameFill (f : Feed) : Except Trap (Option Feed) := do
  let nul ← memchr 0 f.buffer f.count
  nameFillFragment f (fragmentUpTo nul f.count)

/-- `parser_feed_endpoint_create_name` -/
def parserFeedEndpointCreateName (f : Feed) : Except Trap Feed := do
  match ← nameFill f with
  | none => return f.perform { f.parser with state := .invalid } []
  | some f =>
    match f.parser.name.getLast? with
    | none => .error .outOfBounds
    | some last =>
      if last = 0 then
        let capabilities := f.parser.capabilities &&& f.parser.requested
        let name := cString f.parser.name
        let parser := { f.parser with state := .command }
        if capabilities ≠ 0 ∧ name ≠ [] ∧ name.head? ≠ some byteDot then
          return f.perform parser [.endpointCreate name capabilities]
        else return f.perform parser []
      else return f

/-- `parser_feed_daemon_name` -/
def parserFeedDaemonName (f : Feed) (action : DaemonAction) : Except Trap Feed := do
  match ← nameFill f with
  | none => return f.perform { f.parser with state := .invalid } []
  | some f =>
    match f.parser.name.getLast? with
    | none => .error .outOfBounds
    | some last =>
      if last = 0 then
        let parser := { f.parser with state := .command }
        return f.perform parser [.daemon action (cString f.parser.name)]
      else return f

/-- The capability bytes of `parser_feed`, most significant first. -/
def parserFeedCapability (platform : Platform) (parser : Parser) (byte : UInt8) : Parser :=
  let word := (parser.word <<< (8 : UInt32)) ||| byte.toUInt32
  let size := parser.size + 1
  if size = 4 then
    { parser with
      word := word, size := size, state := .endpointCreateName,
      requested := platform.ntohl word, name := [] }
  else { parser with word := word, size := size }

/-- One iteration of the loop of `parser_feed`, when bytes remain. -/
def parserFeedStep (platform : Platform) (f : Feed) : Except Trap Feed :=
  match f.parser.state with
  | .command =>
    match f.buffer with
    | [] => .error .outOfBounds
    | byte :: _ => do
      let (parser, actions) ← parserFeedCommand f.parser (platform.byteCapability byte)
      return (f.advance 1 (f.count - 1)).perform parser actions
  | .endpointCreateCapabilities =>
    match f.buffer with
    | [] => .error .outOfBounds
    | byte :: _ =>
      .ok ((f.advance 1 (f.count - 1)).perform (parserFeedCapability platform f.parser byte) [])
  | .endpointCreateName => parserFeedEndpointCreateName f
  | .daemonStartName => parserFeedDaemonName f .daemonStart
  | .daemonStopName => parserFeedDaemonName f .daemonStop
  | .daemonReloadName => parserFeedDaemonName f .daemonReload
  | .daemonEndName => parserFeedDaemonName f .daemonEnd
  | .invalid => .ok (f.advance f.count 0)

/-- How a run of the loop ended. -/
inductive FeedEnd
  /-- No byte remains. -/
  | returned
  /-- An iteration stopped. -/
  | trapped (trap : Trap)
  /-- The allowed iterations were not enough. -/
  | running
  deriving DecidableEq, Repr

/-- At most `fuel - 1` iterations of the loop of `parser_feed`. -/
def parserFeedLoop (platform : Platform) : Nat → Feed → Feed × FeedEnd
  | 0, f => (f, .running)
  | fuel + 1, f =>
    if f.count = 0 then (f, .returned)
    else
      match parserFeedStep platform f with
      | .ok f' => parserFeedLoop platform fuel f'
      | .error trap => (f, .trapped trap)

/-- The loop of `parser_feed`, with more iterations than the memory allows for. -/
def parserFeedRun (platform : Platform) (f : Feed) : Feed × FeedEnd :=
  parserFeedLoop platform (f.buffer.length + 3) f

/-- `parser_feed` on the first `count` bytes of the memory. -/
def parserFeed (platform : Platform) (parser : Parser) (memory : List UInt8) (count : Nat) :
    Feed × FeedEnd :=
  parserFeedRun platform ⟨parser, memory, count, 0, []⟩

end Cyberd
