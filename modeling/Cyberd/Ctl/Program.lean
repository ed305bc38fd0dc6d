import Cyberd.Ctl.EndpointCreate
import Cyberd.Trap

/-!
# The program cyberctl

The name under which the program is called chooses what its words mean. The words that
ask for a request are described by a grammar, and the program sends exactly the request
that is asked for: with any other words nothing is written.
-/

namespace Cyberd

open Library

/-- `basename(3)` -/
def basename (path : Name) : Name :=
  if path = [] then [byteDot]
  else
    let path := path.rdropWhile (· == byteSlash)
    if path = [] then [byteSlash] else path.rtakeWhile (· != byteSlash)

/-- The table of `main`, whose indexes are the first of `enum synopsis`. -/
def synopses : List Name :=
  [ascii "halt", ascii "reboot", ascii "suspend", ascii "poweroff", ascii "shutdown"]

/-- The options of `":HPr"`. -/
def shutdownOptions (letter : UInt8) : Option Bool :=
  if letter = 72 ∨ letter = 80 ∨ letter = 114 then some false else none

/-- The warning about an option, with a line feed of its own. -/
def shutdownWarning (e : GetoptError) : Name := initctlWarning e ++ [10]

/-- The `switch` of `shutdown_main`. -/
def shutdownOption (id : UInt8) (option : UInt8 × Name) : UInt8 :=
  if option.1 = 72 then commandOf capabilitySystemHalt
  else if option.1 = 80 then commandOf capabilitySystemPoweroff
  else if option.1 = 114 then commandOf capabilitySystemReboot
  else id

/-- How the program ends: with a warning alone, or as one of the `initctl_*` functions. -/
inductive CyberctlEnd
  | warned (warning : Name)
  | initctl (ended : InitctlEnd)
  deriving DecidableEq, Repr

/-- `shutdown_main` on the words after the program name. -/
def shutdownMain (permutes : Bool) (endpointsRoot : Name) (arguments : List Name) : CyberctlEnd :=
  match getopt shutdownOptions permutes arguments with
  | .error e => .warned (shutdownWarning e)
  | .ok (options, _) =>
    let id := options.foldl shutdownOption (commandOf capabilitySystemPoweroff)
    .initctl (.send endpointsRoot (initctlSystem id))

/-- `main` -/
def cyberctlMain (platform : Platform) (permutes : Bool) (endpointsRoot : Name) (program : Name)
    (arguments : List Name) : Except Trap CyberctlEnd :=
  let send id := .ok (.initctl (.send endpointsRoot (initctlSystem id)))
  match synopses.findIdx (· == basename program) with
  | 0 => send (commandOf capabilitySystemHalt)
  | 1 => send (commandOf capabilitySystemReboot)
  | 2 => send (commandOf capabilitySystemSuspend)
  | 3 => send (commandOf capabilitySystemPoweroff)
  | 4 => .ok (shutdownMain permutes endpointsRoot arguments)
  | 5 => .ok (.initctl (initctlMain platform permutes endpointsRoot arguments))
  | _ => .error .abort

/-- The end of the process. -/
def CyberctlEnd.exit (endpointsPath : Name) (sunPathSize : Nat) (answers : InitctlAnswers) :
    CyberctlEnd → InitctlExit
  | .warned warning => ⟨[], some warning⟩
  | .initctl ended => ended.exit endpointsPath sunPathSize answers

/-- What can be asked of cyberd. -/
inductive Request
  | endpointCreate (capabilities : Capset) (name : Name)
  | daemon (action : DaemonAction) (name : Name)
  | system (howto : Howto)
  deriving DecidableEq, Repr

/-- The request on the wire. -/
def Request.message : Request → List UInt8
  | .endpointCreate capabilities name => endpointMessage capabilities name
  | .daemon action name => initctlDaemon (commandOf action.capability) name
  | .system howto => initctlSystem (commandOf howto.capability)

/-- The command of an action on a daemon. -/
def DaemonAction.word : DaemonAction → Name
  | .daemonStart => ascii "start"
  | .daemonStop => ascii "stop"
  | .daemonReload => ascii "reload"
  | .daemonEnd => ascii "end"

/-- The command that queues a reboot. -/
def Howto.word : Howto → Name
  | .powerOff => ascii "poweroff"
  | .haltSystem => ascii "halt"
  | .autoboot => ascii "reboot"
  | .swSuspend => ascii "suspend"

/-- The words of a command and what they ask for. -/
inductive Request.Words : List Name → Request → Prop
  /-- The name is one of the words that give the capabilities. -/
  | endpointCreate (name command : Name) (commands : List Name)
      (known : ∀ word ∈ name :: command :: commands, word ∈ initctlCommands) :
      Words (createEndpoint :: name :: command :: commands)
        (.endpointCreate (capsetUnion (name :: command :: commands)) name)
  /-- A daemon has any name. -/
  | daemon (action : DaemonAction) (name : Name) : Words [action.word, name] (.daemon action name)
  /-- The system has none. -/
  | system (howto : Howto) : Words [howto.word] (.system howto)

/-- What the last option of `shutdown` asks for. -/
def shutdownHowto : Option UInt8 → Howto
  | some 72 => .haltSystem
  | some 114 => .autoboot
  | _ => .powerOff

/-- What a program asks of an endpoint with its words. -/
inductive Asks (permutes : Bool) (endpointsRoot : Name) :
    Name → List Name → Name → Request → Prop
  /-- The commands of the system are programs, which have no use for any words. -/
  | system (howto : Howto) (arguments : List Name) :
      Asks permutes endpointsRoot howto.word arguments endpointsRoot (.system howto)
  /-- The last option decides. -/
  | shutdown {arguments operands : List Name} {options : List (UInt8 × Name)}
      (read : getopt shutdownOptions permutes arguments = .ok (options, operands)) :
      Asks permutes endpointsRoot (ascii "shutdown") arguments endpointsRoot
        (.system (shutdownHowto (options.getLast?.map Prod.fst)))
  /-- Under any other name, the operands are a command for the last endpoint given. -/
  | command {program : Name} {arguments operands : List Name} {options : List (UInt8 × Name)}
      {request : Request} (other : program ∉ synopses)
      (read : getopt initctlOptions permutes arguments = .ok (options, operands))
      (words : request.Words operands) :
      Asks permutes endpointsRoot program arguments
        ((options.getLast?.map Prod.snd).getD endpointsRoot) request

variable {platform : Platform} {permutes : Bool} {endpointsRoot endpoint program : Name}
  {arguments words : List Name} {request : Request}

/-- A loop that forgets what was before ends with what its last element gives. -/
theorem foldl_last {α β : Type} (f : β → α → β) (g : α → β) (l : List α)
    (hf : ∀ b, ∀ a ∈ l, f b a = g a) (b : β) :
    l.foldl f b = (l.getLast?.map g).getD b := by
  induction l generalizing b with
  | nil => rfl
  | cons a l ih =>
    rw [List.foldl_cons, hf b a (List.mem_cons_self ..),
      ih fun b a ha => hf b a (List.mem_cons_of_mem _ ha)]
    cases l with
    | nil => rfl
    | cons a' l =>
      rw [List.getLast?_cons_cons, List.getLast?_eq_getLast_of_ne_nil (List.cons_ne_nil a' l)]
      rfl

/-- `initctl_main` behind a command about a daemon. -/
theorem initctlCommand_daemon (action : DaemonAction) (arguments : List Name) :
    initctlCommand platform endpoint (action.word :: arguments) =
      if arguments.length + 1 ≠ 2 then .usage (ascii "Unexpected arguments for daemon command")
      else .send endpoint (initctlDaemon (commandOf action.capability) (arguments.headD [])) := by
  have hid : initctlCommandId action.word = commandOf action.capability := by
    cases action <;> decide
  have hcreate : commandOf action.capability ≠ commandOf capabilityEndpointCreate := by
    cases action <;> decide
  have hle : commandOf action.capability ≤ commandOf capabilityDaemonEnd := by
    cases action <;> decide
  simp only [initctlCommand, hid, if_neg hcreate, if_pos hle]

/-- `initctl_main` behind a command about the system. -/
theorem initctlCommand_system (howto : Howto) (arguments : List Name) :
    initctlCommand platform endpoint (howto.word :: arguments) =
      if arguments.length + 1 ≠ 1 then .usage (ascii "Unexpected arguments for system command")
      else .send endpoint (initctlSystem (commandOf howto.capability)) := by
  have hid : initctlCommandId howto.word = commandOf howto.capability := by
    cases howto <;> decide
  have hcreate : commandOf howto.capability ≠ commandOf capabilityEndpointCreate := by
    cases howto <;> decide
  have hend : ¬ commandOf howto.capability ≤ commandOf capabilityDaemonEnd := by
    cases howto <;> decide
  have hle : commandOf howto.capability ≤ commandOf capabilitySystemSuspend := by
    cases howto <;> decide
  simp only [initctlCommand, hid, if_neg hcreate, if_neg hend, if_pos hle]

/-- A command is sent as what it asks for. -/
theorem Request.Words.sends (h : request.Words words) :
    initctlCommand platform endpoint words = .send endpoint request.message := by
  cases h with
  | endpointCreate name command commands known =>
    rcases initctlCommand_create platform endpoint (name :: command :: commands) with
      ⟨_, _, heq, -, -, hsend⟩ | ⟨hfew | ⟨word, hmem, hnot⟩, -⟩
    · cases heq
      rw [hsend, initctlEndpointCreate_eq]
      rfl
    · simp at hfew
    · exact absurd (known word hmem) hnot
  | daemon action name =>
    rw [initctlCommand_daemon]
    rfl
  | system howto =>
    rw [initctlCommand_system]
    rfl

/-- The commands of the table. -/
theorem initctlCommands_cases {command : Name} (h : command ∈ initctlCommands) :
    command = createEndpoint ∨ (∃ action : DaemonAction, command = action.word) ∨
      ∃ howto : Howto, command = howto.word := by
  simp only [initctlCommands, List.mem_cons, List.not_mem_nil, or_false] at h
  rcases h with rfl | rfl | rfl | rfl | rfl | rfl | rfl | rfl | rfl
  · exact Or.inl rfl
  · exact Or.inr (Or.inl ⟨.daemonStart, rfl⟩)
  · exact Or.inr (Or.inl ⟨.daemonStop, rfl⟩)
  · exact Or.inr (Or.inl ⟨.daemonReload, rfl⟩)
  · exact Or.inr (Or.inl ⟨.daemonEnd, rfl⟩)
  · exact Or.inr (Or.inr ⟨.powerOff, rfl⟩)
  · exact Or.inr (Or.inr ⟨.haltSystem, rfl⟩)
  · exact Or.inr (Or.inr ⟨.autoboot, rfl⟩)
  · exact Or.inr (Or.inr ⟨.swSuspend, rfl⟩)

/-- Words either are a command, or end with the usage. -/
theorem initctlCommand_words (platform : Platform) (endpoint : Name) (words : List Name) :
    (∃ request : Request, request.Words words) ∨
      ∃ warning, initctlCommand platform endpoint words = .usage warning := by
  cases words with
  | nil => exact Or.inr ⟨_, rfl⟩
  | cons command arguments =>
    by_cases hmem : command ∈ initctlCommands
    · rcases initctlCommands_cases hmem with rfl | ⟨action, rfl⟩ | ⟨howto, rfl⟩
      · rcases initctlCommand_create platform endpoint arguments with
          ⟨name, commands, rfl, hne, hall, -⟩ | ⟨-, husage⟩
        · obtain ⟨command, commands, rfl⟩ := List.exists_cons_of_ne_nil hne
          exact Or.inl ⟨_, .endpointCreate name command commands hall⟩
        · exact Or.inr husage
      · rw [initctlCommand_daemon]
        by_cases hlen : arguments.length + 1 = 2
        · obtain ⟨name, rfl⟩ := List.length_eq_one_iff.mp (Nat.succ.inj hlen)
          exact Or.inl ⟨_, .daemon action name⟩
        · exact Or.inr ⟨_, if_pos hlen⟩
      · rw [initctlCommand_system]
        by_cases hlen : arguments.length + 1 = 1
        · obtain rfl := List.length_eq_zero_iff.mp (Nat.succ.inj hlen)
          exact Or.inl ⟨_, .system howto⟩
        · exact Or.inr ⟨_, if_pos hlen⟩
    · obtain ⟨i, -, -, hget⟩ | ⟨hid, -⟩ := initctlCommandId_cases command
      · exact absurd (List.mem_of_getElem? hget) hmem
      · refine Or.inr ⟨ascii "Invalid command '" ++ command ++ ascii "'", ?_⟩
        simp only [initctlCommand, hid]
        rfl

/-- An option of `shutdown` forgets the ones before it. -/
theorem shutdownOption_eq {option : UInt8 × Name} (h : (shutdownOptions option.1).isSome)
    (id : UInt8) :
    shutdownOption id option = commandOf (shutdownHowto (some option.1)).capability := by
  obtain ⟨letter, argument⟩ := option
  have hletter : letter = 72 ∨ letter = 80 ∨ letter = 114 := by
    by_contra hnot
    simp [shutdownOptions, hnot] at h
  rcases hletter with rfl | rfl | rfl <;> rfl

/-- `shutdown_main` sends what the last option asks for. -/
theorem shutdownMain_options {operands : List Name} {options : List (UInt8 × Name)}
    (h : getopt shutdownOptions permutes arguments = .ok (options, operands)) :
    shutdownMain permutes endpointsRoot arguments = .initctl (.send endpointsRoot
      (Request.system (shutdownHowto (options.getLast?.map Prod.fst))).message) := by
  obtain ⟨hknown, -⟩ := getopt_known h
  have hlast := foldl_last shutdownOption
    (fun option => commandOf (shutdownHowto (some option.1)).capability) options
    (fun id option hmem => shutdownOption_eq (hknown option hmem) id)
    (commandOf capabilitySystemPoweroff)
  rw [shutdownMain, h]
  simp only [hlast]
  cases options.getLast? <;> rfl

/-- Under any other name, the program is `initctl`. -/
theorem synopses_other {name : Name} (h : name ∉ synopses) :
    synopses.findIdx (· == name) = 5 := by
  have hlength : synopses.findIdx (· == name) = synopses.length := by
    rw [List.findIdx_eq_length]
    intro synopsis hmem
    simp only [beq_eq_false_iff_ne, ne_eq]
    rintro rfl
    exact h hmem
  exact hlength

/-- The endpoint of `initctl` is the last one given. -/
theorem foldl_endpoint (options : List (UInt8 × Name)) :
    options.foldl (fun _ option => option.2) endpointsRoot =
      (options.getLast?.map Prod.snd).getD endpointsRoot :=
  foldl_last _ Prod.snd options (fun _ _ _ => rfl) endpointsRoot

/-- What is asked for is sent. -/
theorem cyberctlMain_asks
    (h : Asks permutes endpointsRoot (basename program) arguments endpoint request) :
    cyberctlMain platform permutes endpointsRoot program arguments =
      .ok (.initctl (.send endpoint request.message)) := by
  rw [cyberctlMain]
  generalize basename program = name at h
  cases h with
  | system howto =>
    cases howto <;> rfl
  | shutdown read =>
    have hindex : synopses.findIdx (· == ascii "shutdown") = 4 := by decide
    simp only [hindex, shutdownMain_options read]
  | command other read words =>
    simp only [synopses_other other, initctlMain, read, foldl_endpoint, words.sends]

/-- What nobody asks for ends with a warning, and nothing aborts. -/
theorem cyberctlMain_cases (platform : Platform) (permutes : Bool)
    (endpointsRoot program : Name) (arguments : List Name) :
    (∃ endpoint request, Asks permutes endpointsRoot (basename program) arguments endpoint
      request) ∨
    ∃ warning,
      cyberctlMain platform permutes endpointsRoot program arguments = .ok (.warned warning) ∨
      cyberctlMain platform permutes endpointsRoot program arguments =
        .ok (.initctl (.usage warning)) := by
  rw [cyberctlMain]
  generalize basename program = name
  by_cases hmem : name ∈ synopses
  · simp only [synopses, List.mem_cons, List.not_mem_nil, or_false] at hmem
    rcases hmem with rfl | rfl | rfl | rfl | rfl
    · exact Or.inl ⟨_, _, .system .haltSystem arguments⟩
    · exact Or.inl ⟨_, _, .system .autoboot arguments⟩
    · exact Or.inl ⟨_, _, .system .swSuspend arguments⟩
    · exact Or.inl ⟨_, _, .system .powerOff arguments⟩
    · cases hread : getopt shutdownOptions permutes arguments with
      | ok result => exact Or.inl ⟨_, _, .shutdown hread⟩
      | error e =>
        have hindex : synopses.findIdx (· == ascii "shutdown") = 4 := by decide
        exact Or.inr ⟨shutdownWarning e, Or.inl (by simp only [hindex, shutdownMain, hread])⟩
  · cases hread : getopt initctlOptions permutes arguments with
    | error e =>
      refine Or.inr ⟨initctlWarning e, Or.inr ?_⟩
      simp only [synopses_other hmem, initctlMain, hread]
    | ok result =>
      obtain ⟨options, operands⟩ := result
      rcases initctlCommand_words platform
          (options.foldl (fun _ option => option.2) endpointsRoot) operands with
        ⟨request, hwords⟩ | ⟨warning, husage⟩
      · exact Or.inl ⟨_, request, .command hmem hread hwords⟩
      · refine Or.inr ⟨warning, Or.inr ?_⟩
        simp only [synopses_other hmem, initctlMain, hread, husage]

end Cyberd
