import Cyberd.Ctl.Initctl

/-!
# Requests to create an endpoint

The loop over the capability words starts at the name of the endpoint. A name
that is no command is refused as one, and a name that is one adds its bit to the
set, so that only a name among the words asked for gives the set asked for.
-/

namespace Cyberd

open Library

/-- The union of the capability bits of the command words. -/
def capsetUnion (commands : List Name) : Capset :=
  commands.foldr (fun command capabilities => initctlCapability command ||| capabilities) 0

/-- Intersection distributes over the union of two sets. -/
theorem capset_or_and (a b c : Capset) : (a ||| b) &&& c = a &&& c ||| b &&& c := by
  apply UInt32.toBitVec_inj.mp
  ext i hi
  simp [Bool.and_or_distrib_right]

/-- A capability is in a union when one side has it. -/
theorem capsetHas_or (a b c : Capset) :
    capsetHas (a ||| b) c = true ↔ capsetHas a c = true ∨ capsetHas b c = true := by
  simp only [capsetHas, bne_iff_ne, ne_eq, capset_or_and, UInt32.or_eq_zero_iff]
  tauto

/-- A command has its place in the table for identifier, everything else the end. -/
theorem initctlCommandId_cases (command : Name) :
    (∃ i, i < 9 ∧ initctlCommandId command = UInt8.ofNat i ∧
      initctlCommands[i]? = some command) ∨
    initctlCommandId command = 9 ∧ command ∉ initctlCommands := by
  by_cases hmem : command ∈ initctlCommands
  · have hlt : initctlCommands.findIdx (· == command) < initctlCommands.length :=
      List.findIdx_lt_length_of_exists ⟨command, hmem, by simp⟩
    refine Or.inl ⟨_, hlt, rfl, ?_⟩
    rw [List.getElem?_eq_getElem hlt]
    have hfound := List.findIdx_getElem (w := hlt)
    simpa using hfound
  · refine Or.inr ⟨?_, hmem⟩
    have hend : initctlCommands.findIdx (· == command) = initctlCommands.length := by
      rw [List.findIdx_eq_length]
      intro c hc
      simp only [beq_eq_false_iff_ne, ne_eq]
      rintro rfl
      exact hmem hc
    rw [initctlCommandId, hend]
    rfl

/-- The test of the loop refuses what is no command. -/
theorem initctlCapability_all (command : Name) :
    initctlCapability command &&& capsetAll = 0 ↔ command ∉ initctlCommands := by
  unfold initctlCapability
  rcases initctlCommandId_cases command with ⟨i, hi, hid, hget⟩ | ⟨hid, hnot⟩
  · rw [hid]
    refine iff_of_false ?_ (not_not_intro (List.mem_of_getElem? hget))
    interval_cases i <;> decide
  · rw [hid]
    exact iff_of_true (by decide) hnot

/-- The bits of two commands only meet when the commands are the same. -/
theorem initctlCapability_has {a b : Name} (ha : a ∈ initctlCommands) (hb : b ∈ initctlCommands) :
    capsetHas (initctlCapability a) (initctlCapability b) = true ↔ a = b := by
  rcases initctlCommandId_cases a with ⟨i, hi, hida, hgeta⟩ | ⟨-, hnot⟩
  · rcases initctlCommandId_cases b with ⟨j, hj, hidb, hgetb⟩ | ⟨-, hnot⟩
    · have hbits : capsetHas (initctlCapability a) (initctlCapability b) = true ↔ i = j := by
        rw [initctlCapability, initctlCapability, hida, hidb]
        clear hida hidb hgeta hgetb
        interval_cases i <;> interval_cases j <;> decide
      rw [hbits]
      constructor
      · rintro rfl
        exact Option.some.inj (hgeta.symm.trans hgetb)
      · rintro rfl
        rw [hida] at hidb
        have hnat := congrArg UInt8.toNat hidb
        rw [UInt8.toNat_ofNat', UInt8.toNat_ofNat'] at hnat
        omega
    · exact absurd hb hnot
  · exact absurd ha hnot

/-- The union has the bit of a command exactly when the command is in the list. -/
theorem capsetUnion_has {commands : List Name} {command : Name}
    (hall : ∀ c ∈ commands, c ∈ initctlCommands) (hcommand : command ∈ initctlCommands) :
    capsetHas (capsetUnion commands) (initctlCapability command) = true ↔ command ∈ commands := by
  induction commands with
  | nil => simp [capsetUnion, capsetHas]
  | cons c commands ih =>
    have hrest := ih fun d hd => hall d (List.mem_cons_of_mem _ hd)
    rw [capsetUnion, List.foldr_cons, capsetHas_or,
      initctlCapability_has (hall c (List.mem_cons_self ..)) hcommand, List.mem_cons]
    exact or_congr eq_comm hrest

/-- A set is included in its union with any other. -/
theorem capset_included_or (a b : Capset) : Capset.Included a (a ||| b) := by
  unfold Capset.Included
  apply UInt32.toBitVec_inj.mp
  ext i hi
  simp only [UInt32.toBitVec_and, UInt32.toBitVec_or, BitVec.getElem_and, BitVec.getElem_or]
  cases a.toBitVec[i] <;> rfl

/-- A union is included in what both of its sides are included in. -/
theorem capset_or_included {a b c : Capset} :
    Capset.Included (a ||| b) c ↔ Capset.Included a c ∧ Capset.Included b c := by
  constructor
  · intro h
    refine ⟨(capset_included_or a b).trans h, ?_⟩
    rw [UInt32.or_comm] at h
    exact (capset_included_or b a).trans h
  · rintro ⟨ha, hb⟩
    unfold Capset.Included at ha hb ⊢
    rw [capset_or_and, ha, hb]

/-- Sets that include each other are the same. -/
theorem Capset.Included.antisymm {a b : Capset} (hab : Capset.Included a b)
    (hba : Capset.Included b a) : a = b := by
  unfold Included at hab hba
  rw [← hab, UInt32.and_comm, hba]

/-- The union is the least set that includes the bit of every command. -/
theorem capsetUnion_included {commands : List Name} {c : Capset} :
    Capset.Included (capsetUnion commands) c ↔
      ∀ command ∈ commands, Capset.Included (initctlCapability command) c := by
  induction commands with
  | nil => simp [capsetUnion, Capset.Included]
  | cons command commands ih =>
    rw [capsetUnion, List.foldr_cons, capset_or_included, List.forall_mem_cons]
    exact and_congr_right fun _ => ih

/-- The union only depends on which commands are in the list. -/
theorem capsetUnion_congr {commands commands' : List Name}
    (h : ∀ command, command ∈ commands ↔ command ∈ commands') :
    capsetUnion commands = capsetUnion commands' := by
  have hle : ∀ {l l' : List Name}, (∀ command ∈ l, command ∈ l') →
      Capset.Included (capsetUnion l) (capsetUnion l') := fun hsub =>
    capsetUnion_included.mpr fun command hmem =>
      capsetUnion_included.mp (.refl _) command (hsub command hmem)
  exact (hle fun c hc => (h c).mp hc).antisymm (hle fun c hc => (h c).mpr hc)

/-- The loop collects the bits of the words up to the first that is no command. -/
theorem initctlCapabilities_spec (commands : List Name) (capabilities : Capset) :
    (∀ command ∈ commands, command ∈ initctlCommands) ∧
      initctlCapabilities commands capabilities = .ok (capabilities ||| capsetUnion commands) ∨
    (∃ command ∈ commands, command ∉ initctlCommands) ∧
      ∃ warning, initctlCapabilities commands capabilities = .error warning := by
  induction commands generalizing capabilities with
  | nil => exact Or.inl ⟨by simp, by simp [initctlCapabilities, capsetUnion]⟩
  | cons command commands ih =>
    rw [initctlCapabilities]
    by_cases hcommand : command ∈ initctlCommands
    · rw [if_neg fun h => (initctlCapability_all command).mp h hcommand]
      rcases ih (capabilities ||| initctlCapability command) with ⟨hall, hok⟩ | ⟨hbad, herror⟩
      · refine Or.inl ⟨List.forall_mem_cons.mpr ⟨hcommand, hall⟩, ?_⟩
        rw [hok, UInt32.or_assoc]
        rfl
      · obtain ⟨c, hc, hnot⟩ := hbad
        exact Or.inr ⟨⟨c, List.mem_cons_of_mem _ hc, hnot⟩, herror⟩
    · rw [if_pos ((initctlCapability_all command).mpr hcommand)]
      exact Or.inr ⟨⟨command, List.mem_cons_self .., hcommand⟩, _, rfl⟩

/-- `"create-endpoint"` -/
def createEndpoint : Name := ascii "create-endpoint"

/-- `initctl_main` behind the command that creates an endpoint: a request is sent
exactly for two command words or more, the first of which is its name as well. -/
theorem initctlCommand_create (platform : Platform) (endpoint : Name) (arguments : List Name) :
    (∃ name commands, arguments = name :: commands ∧ commands ≠ [] ∧
      (∀ command ∈ arguments, command ∈ initctlCommands) ∧
      initctlCommand platform endpoint (createEndpoint :: arguments) =
        .send endpoint (initctlEndpointCreate platform (commandOf capabilityEndpointCreate)
          (capsetUnion arguments) name)) ∨
    (arguments.length < 2 ∨ ∃ command ∈ arguments, command ∉ initctlCommands) ∧
      ∃ warning, initctlCommand platform endpoint (createEndpoint :: arguments) =
        .usage warning := by
  have hid : initctlCommandId createEndpoint = commandOf capabilityEndpointCreate := by decide
  rw [initctlCommand]
  simp only [hid, if_true]
  rcases arguments with _ | ⟨name, _ | ⟨command, commands⟩⟩
  · exact Or.inr ⟨Or.inl (by simp), _, rfl⟩
  · exact Or.inr ⟨Or.inl (by simp), _, rfl⟩
  · rw [if_neg (by simp)]
    rcases initctlCapabilities_spec (name :: command :: commands) 0 with
      ⟨hall, hok⟩ | ⟨hbad, warning, herror⟩
    · refine Or.inl ⟨name, command :: commands, rfl, by simp, hall, ?_⟩
      rw [hok, UInt32.zero_or]
      rfl
    · exact Or.inr ⟨Or.inr hbad, warning, by rw [herror]⟩

/-- The request to create an endpoint on the wire, in network order. -/
def endpointMessage (capabilities : Capset) (name : Name) : List UInt8 :=
  0 :: (bigEndian capabilities ++ (name ++ [0]))

/-- The message determines what was encoded. -/
theorem endpointMessage_inj {c c' : Capset} {name name' : Name}
    (h : endpointMessage c name = endpointMessage c' name') : c = c' ∧ name = name' := by
  obtain ⟨hword, hname⟩ := List.append_inj (List.cons.inj h).2 rfl
  refine ⟨?_, List.append_cancel_right hname⟩
  rw [← wordOf_bigEndian c, hword, wordOf_bigEndian]

/-- What `create-endpoint NAME CMD...` asks for: the message with the name and the bits of
the commands, in any order and however often, and none when some word is no command. -/
def EndpointRequested (platform : Platform) (permutes : Bool) (endpointsRoot name : Name)
    (commands : List Name) : Prop :=
  ((∀ command ∈ commands, command ∈ initctlCommands) →
    ∀ asked, (∀ command, command ∈ asked ↔ command ∈ commands) →
      initctlMain platform permutes endpointsRoot (createEndpoint :: name :: commands) =
        .send endpointsRoot (endpointMessage (capsetUnion asked) name)) ∧
  ((∃ command ∈ commands, command ∉ initctlCommands) →
    ∃ warning, initctlMain platform permutes endpointsRoot (createEndpoint :: name :: commands) =
      .usage warning)

/-- The options that are taken out of the words leave two commands or more. -/
def CommandsLeft (permutes : Bool) (words : List Name) : Prop :=
  ∃ options name commands, getopt initctlOptions permutes (createEndpoint :: words) =
      .ok (options, createEndpoint :: name :: commands) ∧
    commands ≠ [] ∧ ∀ command ∈ name :: commands, command ∈ initctlCommands

variable {platform : Platform} {permutes : Bool} {endpointsRoot name : Name}
  {commands words : List Name}

/-- The message of the source is the one on the wire. -/
theorem initctlEndpointCreate_eq (c : Capset) :
    initctlEndpointCreate platform (commandOf capabilityEndpointCreate) c name =
      endpointMessage c name := by
  have hid : commandOf capabilityEndpointCreate = 0 := by decide
  rw [initctlEndpointCreate, platform.wordBytes_htonl, hid, endpointMessage]

/-- No command looks like an option. -/
theorem isOption_command {command : Name} (h : command ∈ initctlCommands) :
    isOption command = false := by
  have htable : ∀ command ∈ initctlCommands, isOption command = false := by decide
  exact htable command h

/-- Commands alone are what is left of them. -/
theorem getopt_commands (h : ∀ command ∈ commands, command ∈ initctlCommands) :
    getopt initctlOptions permutes (createEndpoint :: commands) =
      .ok ([], createEndpoint :: commands) := by
  refine getopt_operands (List.forall_mem_cons.mpr ⟨by decide, ?_⟩)
  exact fun command hmem => isOption_command (h command hmem)

/-- A request is sent when commands are left, otherwise the usage is shown. -/
theorem initctlMain_create (platform : Platform) (permutes : Bool) (endpointsRoot : Name)
    (words : List Name) :
    (∃ options name commands, getopt initctlOptions permutes (createEndpoint :: words) =
        .ok (options, createEndpoint :: name :: commands) ∧ commands ≠ [] ∧
      (∀ command ∈ name :: commands, command ∈ initctlCommands) ∧
      initctlMain platform permutes endpointsRoot (createEndpoint :: words) =
        .send (options.foldl (fun _ option => option.2) endpointsRoot)
          (endpointMessage (capsetUnion (name :: commands)) name)) ∨
    ¬ CommandsLeft permutes words ∧
      ∃ warning, initctlMain platform permutes endpointsRoot (createEndpoint :: words) =
        .usage warning := by
  rw [initctlMain, CommandsLeft]
  cases hgetopt : getopt initctlOptions permutes (createEndpoint :: words) with
  | error e => exact Or.inr ⟨by simp, _, rfl⟩
  | ok result =>
    obtain ⟨options, operands⟩ := result
    obtain ⟨arguments, rfl⟩ := getopt_operand (by decide) hgetopt
    simp only
    rcases initctlCommand_create platform
      (options.foldl (fun _ option => option.2) endpointsRoot) arguments with
      ⟨name, commands, rfl, hne, hall, hsend⟩ | ⟨hfew, husage⟩
    · refine Or.inl ⟨options, name, commands, rfl, hne, hall, ?_⟩
      rw [hsend, initctlEndpointCreate_eq]
    · refine Or.inr ⟨?_, husage⟩
      rintro ⟨_, name, commands, heq, hne, hall⟩
      cases heq
      rcases hfew with hlen | ⟨command, hmem, hnot⟩
      · have hpos := List.length_pos_of_ne_nil hne
        rw [List.length_cons] at hlen
        omega
      · exact hnot (hall command hmem)

/-- A request with command words only is the one asked for exactly when the name is one
of these words; one with another word is refused unless an option hides it. -/
theorem initctlMain_endpointRequested_iff (hne : commands ≠ []) :
    EndpointRequested platform permutes endpointsRoot name commands ↔
      (∀ command ∈ commands, command ∈ initctlCommands) ∧ name ∈ commands ∨
      (∃ command ∈ commands, command ∉ initctlCommands) ∧
        ¬ CommandsLeft permutes (name :: commands) := by
  have hmain := initctlMain_create platform permutes endpointsRoot (name :: commands)
  by_cases hall : ∀ command ∈ commands, command ∈ initctlCommands
  · have hnone : ¬ ∃ command ∈ commands, command ∉ initctlCommands := by
      rintro ⟨command, hmem, hnot⟩
      exact hnot (hall command hmem)
    simp only [EndpointRequested, hnone, false_and, or_false, false_implies, and_true]
    constructor
    · intro hasked
      refine ⟨hall, ?_⟩
      have hsent := hasked hall commands fun _ => Iff.rfl
      rcases hmain with ⟨options, name', commands', hgetopt, -, hall', hsend⟩ | ⟨-, w, husage⟩
      · rw [hsent] at hsend
        obtain ⟨hunion, rfl⟩ := endpointMessage_inj (InitctlEnd.send.inj hsend).2
        have hname : name ∈ initctlCommands := hall' name (List.mem_cons_self ..)
        rw [getopt_commands (List.forall_mem_cons.mpr ⟨hname, hall⟩)] at hgetopt
        obtain rfl : commands = commands' := by
          cases hgetopt
          rfl
        rw [← capsetUnion_has hall hname, hunion, capsetUnion_has hall' hname]
        exact List.mem_cons_self ..
      · rw [hsent] at husage
        cases husage
    · rintro ⟨-, hmem⟩ - asked hsame
      have hall' : ∀ command ∈ name :: commands, command ∈ initctlCommands :=
        List.forall_mem_cons.mpr ⟨hall name hmem, hall⟩
      have hleft : getopt initctlOptions permutes (createEndpoint :: name :: commands) =
          .ok ([], createEndpoint :: name :: commands) := getopt_commands hall'
      rcases hmain with ⟨options, name', commands', hgetopt, -, -, hsend⟩ | ⟨hnot, -⟩
      · rw [hleft] at hgetopt
        cases hgetopt
        have hunion : capsetUnion (name :: commands) = capsetUnion asked := by
          apply capsetUnion_congr
          intro command
          rw [hsame, List.mem_cons]
          exact or_iff_right_of_imp fun heq => heq ▸ hmem
        rw [hsend, hunion]
        rfl
      · exact absurd ⟨_, _, _, hleft, hne, hall'⟩ hnot
  · have hsome : ∃ command ∈ commands, command ∉ initctlCommands := by
      push Not at hall
      exact hall
    simp only [EndpointRequested, hall, hsome, false_implies, true_and, true_implies, false_and,
      false_or]
    rcases hmain with ⟨options, name', commands', hgetopt, hne', hall', hsend⟩ | ⟨hnot, husage⟩
    · have hleft : CommandsLeft permutes (name :: commands) :=
        ⟨options, name', commands', hgetopt, hne', hall'⟩
      simp [hsend, hleft]
    · exact iff_of_true husage hnot

/-- A name that is one of the commands asked for, which come in any order. -/
theorem initctlMain_endpointRequested_iff_same :
    EndpointRequested ⟨.little, true⟩ true (ascii "initctl") (ascii "stop")
        [ascii "start", ascii "stop", ascii "start", ascii "halt"] ∧
      initctlMain ⟨.little, true⟩ true (ascii "initctl")
        (createEndpoint :: ascii "stop" ::
          [ascii "start", ascii "stop", ascii "start", ascii "halt"]) =
        .send (ascii "initctl")
          (endpointMessage (capsetUnion [ascii "halt", ascii "stop", ascii "start"])
            (ascii "stop")) := by
  have hrequested : EndpointRequested ⟨.little, true⟩ true (ascii "initctl") (ascii "stop")
      [ascii "start", ascii "stop", ascii "start", ascii "halt"] :=
    (initctlMain_endpointRequested_iff (by decide)).mpr (Or.inl ⟨by decide, by decide⟩)
  refine ⟨hrequested, hrequested.1 (by decide) _ fun command => ?_⟩
  simp only [List.mem_cons, List.not_mem_nil, or_false]
  tauto

/-- An ordinary name is refused as a capability word, and the name of another command
adds its bit to the set. -/
theorem initctlMain_endpointRequested_fails :
    (¬ EndpointRequested ⟨.little, true⟩ true (ascii "initctl") (ascii "foo") [ascii "start"] ∧
      initctlMain ⟨.little, true⟩ true (ascii "initctl")
        [createEndpoint, ascii "foo", ascii "start"] =
          .usage (ascii "Invalid capability command 'foo'")) ∧
    ¬ EndpointRequested ⟨.little, true⟩ true (ascii "initctl") (ascii "stop") [ascii "start"] ∧
      initctlMain ⟨.little, true⟩ true (ascii "initctl")
        [createEndpoint, ascii "stop", ascii "start"] =
          .send (ascii "initctl") (endpointMessage 6 (ascii "stop")) := by
  have hfoo : initctlMain ⟨.little, true⟩ true (ascii "initctl")
      [createEndpoint, ascii "foo", ascii "start"] =
        .usage (ascii "Invalid capability command 'foo'") := by decide +kernel
  have hstop : initctlMain ⟨.little, true⟩ true (ascii "initctl")
      [createEndpoint, ascii "stop", ascii "start"] =
        .send (ascii "initctl") (endpointMessage 6 (ascii "stop")) := by decide +kernel
  refine ⟨⟨?_, hfoo⟩, ?_, hstop⟩
  · rintro ⟨hsent, -⟩
    have h := hsent (by decide) [ascii "start"] fun _ => Iff.rfl
    rw [hfoo] at h
    cases h
  · rintro ⟨hsent, -⟩
    have h := hsent (by decide) [ascii "start"] fun _ => Iff.rfl
    rw [hstop] at h
    revert h
    decide

/-- Without permutation, nothing hides a word. -/
theorem commandsLeft_false_iff :
    CommandsLeft false words ↔
      2 ≤ words.length ∧ ∀ command ∈ words, command ∈ initctlCommands := by
  have hgetopt : getopt initctlOptions false (createEndpoint :: words) =
      .ok ([], createEndpoint :: words) := rfl
  rw [CommandsLeft, hgetopt]
  constructor
  · rintro ⟨options, name, commands, heq, hne, hall⟩
    cases heq
    have hpos := List.length_pos_of_ne_nil hne
    exact ⟨by rw [List.length_cons]; omega, hall⟩
  · rintro ⟨hlen, hall⟩
    rcases words with _ | ⟨name, _ | ⟨command, commands⟩⟩
    · simp at hlen
    · simp at hlen
    · exact ⟨_, name, command :: commands, rfl, by simp, hall⟩

/-- A request sends a part of its message, all of it when the process exits with success. -/
theorem InitctlEnd.exit_send (endpointsPath : Name) (sunPathSize : Nat)
    (answers : InitctlAnswers) (endpoint : Name) (message : List UInt8) :
    ((InitctlEnd.send endpoint message).exit endpointsPath sunPathSize answers).sent <+: message ∧
      (((InitctlEnd.send endpoint message).exit endpointsPath sunPathSize answers).error = none →
        ((InitctlEnd.send endpoint message).exit endpointsPath sunPathSize answers).sent =
          message) := by
  simp only [exit]
  cases initctlOpen endpointsPath sunPathSize answers endpoint with
  | error text => exact ⟨List.nil_prefix, fun h => by cases h⟩
  | ok path =>
    simp only
    split
    · exact ⟨List.take_prefix .., fun h => by cases h⟩
    · exact ⟨List.prefix_rfl, fun _ => rfl⟩

end Cyberd
