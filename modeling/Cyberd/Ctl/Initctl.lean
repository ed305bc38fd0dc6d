import Cyberd.Library.Getopt
import Cyberd.Connection.CapabilityWord

/-!
# The command line of cyberctl

A request is read from the words after the program name, encoded, and written to
an endpoint in one call. Everything that is wrong with the words is found before
the endpoint is opened.
-/

namespace Cyberd

open Library

/-- The table of `initctl_command_id`, whose indexes are the identifiers. -/
def initctlCommands : List Name :=
  [ascii "create-endpoint", ascii "start", ascii "stop", ascii "reload", ascii "end",
    ascii "poweroff", ascii "halt", ascii "reboot", ascii "suspend"]

/-- `initctl_command_id`, one past the table when there is no such command. -/
def initctlCommandId (command : Name) : UInt8 :=
  UInt8.ofNat (initctlCommands.findIdx (· == command))

/-- `1 << initctl_command_id(command)` -/
def initctlCapability (command : Name) : Capset :=
  (1 : Capset) <<< (initctlCommandId command).toUInt32

/-- How `initctl_main` ends: with a warning and the usage, or by the request that one
of the `initctl_*` functions sends to an endpoint. -/
inductive InitctlEnd
  | usage (warning : Name)
  | send (endpoint : Name) (message : List UInt8)
  deriving DecidableEq, Repr

/-- The options of `":c:"`. -/
def initctlOptions (letter : UInt8) : Option Bool := if letter = 99 then some true else none

/-- The warning about an option. -/
def initctlWarning : GetoptError → Name
  | .missing option => ascii "Option -" ++ option :: ascii " requires an operand"
  | .unrecognized option => ascii "Unrecognized option -" ++ [option]

/-- The loop over the capability words. -/
def initctlCapabilities : List Name → Capset → Except Name Capset
  | [], capabilities => .ok capabilities
  | command :: commands, capabilities =>
    let capability := initctlCapability command
    if capability &&& capsetAll = 0 then
      .error (ascii "Invalid capability command '" ++ command ++ ascii "'")
    else initctlCapabilities commands (capabilities ||| capability)

/-- `initctl_main` once the options are read, on the words from `optind`. -/
def initctlCommand (platform : Platform) (endpoint : Name) : List Name → InitctlEnd
  | [] => .usage (ascii "Missing command")
  | command :: arguments =>
    let id := initctlCommandId command
    let argc := arguments.length + 1
    if id = commandOf capabilityEndpointCreate then
      if argc < 3 then .usage (ascii "Missing arguments for endpoint creation")
      else
        -- the loop starts at `optind + 1`, where the name is
        match initctlCapabilities arguments 0 with
        | .error warning => .usage warning
        | .ok capabilities =>
          .send endpoint (initctlEndpointCreate platform id capabilities (arguments.headD []))
    else if id ≤ commandOf capabilityDaemonEnd then
      if argc ≠ 2 then .usage (ascii "Unexpected arguments for daemon command")
      else .send endpoint (initctlDaemon id (arguments.headD []))
    else if id ≤ commandOf capabilitySystemSuspend then
      if argc ≠ 1 then .usage (ascii "Unexpected arguments for system command")
      else .send endpoint (initctlSystem id)
    else .usage (ascii "Invalid command '" ++ command ++ ascii "'")

/-- `initctl_main` on the words after the program name. -/
def initctlMain (platform : Platform) (permutes : Bool) (endpointsRoot : Name)
    (arguments : List Name) : InitctlEnd :=
  match getopt initctlOptions permutes arguments with
  | .error e => .usage (initctlWarning e)
  | .ok (options, operands) =>
    initctlCommand platform (options.foldl (fun _ option => option.2) endpointsRoot) operands

/-- What the system answers to `initctl_open` and to the write that follows. -/
structure InitctlAnswers where
  /-- `socket(2)` gives a descriptor. -/
  socket : Bool
  /-- `connect(2)` to a path succeeds. -/
  connects : Name → Bool
  /-- The bytes `write(2)` takes of a message. -/
  written : List UInt8 → Nat

/-- What is left of a request when the process exits. -/
structure InitctlExit where
  /-- The bytes that went to the endpoint. -/
  sent : List UInt8
  /-- The text of the error, none with `EXIT_SUCCESS`. -/
  error : Option Name
  deriving DecidableEq, Repr

/-- `initctl_open`, the path connected to. -/
def initctlOpen (endpointsPath : Name) (sunPathSize : Nat) (answers : InitctlAnswers)
    (endpoint : Name) : Except Name Name :=
  let path := endpointsPath ++ 47 :: endpoint
  if ¬ answers.socket then
    .error (ascii "Unable to create socket for endpoint '" ++ endpoint ++ ascii "'")
  else if sunPathSize ≤ path.length then
    .error (ascii "Endpoint name '" ++ endpoint ++ ascii "' is too long")
  else if ¬ answers.connects path then
    .error (ascii "Unable to connect to endpoint '" ++ endpoint ++ ascii "'")
  else .ok path

/-- The end of the process: a request opens its endpoint and is written at once. -/
def InitctlEnd.exit (endpointsPath : Name) (sunPathSize : Nat) (answers : InitctlAnswers) :
    InitctlEnd → InitctlExit
  | .usage warning => ⟨[], some warning⟩
  | .send endpoint message =>
    match initctlOpen endpointsPath sunPathSize answers endpoint with
    | .error text => ⟨[], some text⟩
    | .ok _ =>
      if answers.written message ≠ message.length then
        ⟨message.take (answers.written message), some (ascii "Unable to write to endpoint")⟩
      else ⟨message, none⟩

end Cyberd
