import Cyberd.Ctl.Requests
import Cyberd.Main.Requests

/-!
# Calls of cyberctl

From the words of a call to what the daemons and the system see of it: the request that
the words ask for is written as a whole or not at all, and the connection that reads it
has performed it before it goes on with anything else.
-/

namespace Cyberd

open Library

/-- A call of the program, with what the system answers. -/
structure CyberctlCall where
  /-- `getopt(3)` goes on behind operands. -/
  permutes : Bool
  /-- `CONFIG_SOCKET_ENDPOINTS_PATH` -/
  endpointsPath : Name
  /-- `CONFIG_SOCKET_ENDPOINTS_ROOT` -/
  endpointsRoot : Name
  /-- The size of `sun_path`. -/
  sunPathSize : Nat
  /-- The answers to the calls of `initctl_open` and to the write. -/
  answers : InitctlAnswers
  /-- The name under which the program is called. -/
  program : Name
  /-- The words behind it. -/
  arguments : List { word : Name // (0 : UInt8) ∉ word }

/-- The words as they are. -/
def CyberctlCall.words (call : CyberctlCall) : List Name := call.arguments.map Subtype.val

/-- What the call asks of an endpoint. -/
def CyberctlCall.Asks (call : CyberctlCall) (endpoint : Name) (request : Request) : Prop :=
  Cyberd.Asks call.permutes call.endpointsRoot (basename call.program) call.words endpoint request

/-- The run of the program. -/
def CyberctlCall.exit (platform : Platform) (call : CyberctlCall) : Except Trap InitctlExit :=
  (cyberctlMain platform call.permutes call.endpointsRoot call.program call.words).map fun ended =>
    ended.exit call.endpointsPath call.sunPathSize call.answers

namespace Server

/-- What the first read of a request leads to on a fresh connection. -/
inductive Serves (platform : Platform) (host : Host) (answer : SocketAnswer) (a : Addr) (fd : Fd)
    (capabilities : Capset) (request : Request) (s : Server) : Server → Prop
  /-- Without its capability, or with a name that is not taken, the connection turns invalid,
  and nothing else happens. -/
  | refused (parser : Parser) (missing : ¬ request.Accepted capabilities)
      (invalid : parser.state = .invalid)
      (reboots : SocketNode.reboots platform answer
        ⟨fd, .connection (connectionParser capabilities)⟩ = []) :
      Serves platform host answer a fd capabilities request s
        (s.writeNode a ⟨fd, .connection parser⟩)
  /-- A system command queues its reboot, and nothing else happens. -/
  | queued (howto : Howto) (system : request = .system howto)
      (accepted : request.Accepted capabilities)
      (reboots : SocketNode.reboots platform answer
        ⟨fd, .connection (connectionParser capabilities)⟩ = [howto]) :
      Serves platform host answer a fd capabilities request s s
  /-- Any other request has been performed, and its effect on the nodes stays, when the
  connection operates on the daemons with the bytes that were behind it. -/
  | performed (s' : Server) (t : List CreateAnswer × Server)
      (accepted : request.Accepted capabilities)
      (first : (request.actions platform capabilities).foldlM (perform host)
        (answer.creates, s) = .ok t)
      (nodes : ∀ b, b ≠ a → ∀ node, t.2.nodes b = some node → s'.nodes b = some node)
      (after : t.2.world.Operates s'.world) :
      Serves platform host answer a fd capabilities request s s'

/-- Every connection that was just accepted and reads these bytes, with anything behind them,
serves the request, and stops at most where its parser leaves the buffer. -/
def ServedBy (platform : Platform) (host : Host) (s : Server) (sent : List UInt8)
    (request : Request) : Prop :=
  ∀ (a : Addr) (fd : Fd) (capabilities : Capset) (answer : SocketAnswer) (stale : List UInt8),
    s.nodes a = some ⟨fd, .connection (connectionParser capabilities)⟩ →
    answer.read = some (firstRead sent ++ stale, (firstRead sent).length) →
    Outcome
      (SocketNode.Overruns platform answer ⟨fd, .connection (connectionParser capabilities)⟩)
      (Serves platform host answer a fd capabilities request s)
      (socketConnectionNodeOperate platform host a (connectionParser capabilities) answer s)

end Server

variable {platform : Platform} {host : Host} {request : Request} {capabilities : Capset}

/-- The names of a request are words of the call. -/
theorem CyberctlCall.Asks.name_nul {call : CyberctlCall} {endpoint : Name}
    (h : call.Asks endpoint request) : (0 : UInt8) ∉ request.name := by
  have hwords : ∀ word ∈ call.words, (0 : UInt8) ∉ word := by
    intro word hmem
    obtain ⟨argument, -, rfl⟩ := List.mem_map.mp hmem
    exact argument.2
  rw [CyberctlCall.Asks] at h
  generalize basename call.program = program at h
  cases h with
  | system howto => exact List.not_mem_nil
  | shutdown read => exact List.not_mem_nil
  | command other read words =>
    have hsub := (getopt_known read).2
    cases words with
    | endpointCreate name command commands known => exact hwords name (hsub.subset (by simp))
    | daemon action name => exact hwords name (hsub.subset (by simp))
    | system howto => exact List.not_mem_nil

/-- On a little-endian host, no call ever asks for an endpoint that is created. -/
theorem CyberctlCall.Asks.actions_little {call : CyberctlCall} {endpoint : Name}
    (h : call.Asks endpoint request) (hlittle : platform.byteOrder = .little)
    (hall : Capset.Included capabilities capsetAll) (name : Name) (granted : Capset) :
    Action.endpointCreate name granted ∉ request.actions platform capabilities := by
  rw [CyberctlCall.Asks] at h
  generalize basename call.program = program at h
  cases h with
  | system howto => simp [Request.actions]
  | shutdown read => simp [Request.actions]
  | command other read words => exact words.actions_little hlittle hall name granted

/-- A call that asks for a request ends by sending it. -/
theorem CyberctlCall.Asks.exit {call : CyberctlCall} {endpoint : Name}
    (h : call.Asks endpoint request) : call.exit platform =
      .ok ((InitctlEnd.send endpoint request.message).exit call.endpointsPath call.sunPathSize
        call.answers) := by
  rw [CyberctlCall.exit, cyberctlMain_asks h]
  rfl

/-- A call that exits with success has written the request that it asks for, and one that asks
for nothing writes nothing. -/
theorem CyberctlCall.exit_cases (platform : Platform) (call : CyberctlCall) :
    ∃ exit, call.exit platform = .ok exit ∧
      (∀ endpoint request, call.Asks endpoint request → exit.sent <+: request.message) ∧
      ((∀ endpoint request, ¬ call.Asks endpoint request) → exit.sent = [] ∧ exit.error.isSome) ∧
      (exit.error = none → ∃ endpoint request, call.Asks endpoint request ∧
        exit.sent = request.message) := by
  have hsent : ∀ {endpoint request}, call.Asks endpoint request → ∃ exit,
      call.exit platform = .ok exit ∧ exit.sent <+: request.message ∧
        (exit.error = none → exit.sent = request.message) :=
    fun hasks => ⟨_, hasks.exit, InitctlEnd.exit_send _ _ _ _ _⟩
  rcases cyberctlMain_cases platform call.permutes call.endpointsRoot call.program call.words with
    ⟨endpoint, request, hasks⟩ | ⟨warning, hwarned⟩
  · obtain ⟨exit, hexit, -, hwhole⟩ := hsent hasks
    refine ⟨exit, hexit, ?_, fun hnot => absurd hasks (hnot endpoint request), fun herror =>
      ⟨endpoint, request, hasks, hwhole herror⟩⟩
    intro endpoint' request' hasks'
    obtain ⟨exit', hexit', hprefix, -⟩ := hsent hasks'
    cases hexit.symm.trans hexit'
    exact hprefix
  · have hexit : call.exit platform = .ok ⟨[], some warning⟩ := by
      rw [CyberctlCall.exit]
      rcases hwarned with hmain | hmain <;>
      · rw [hmain]
        rfl
    refine ⟨_, hexit, fun _ _ _ => List.nil_prefix, fun _ => ⟨rfl, rfl⟩, fun herror => ?_⟩
    cases herror

namespace Server

variable {s : Server} {a : Addr} {fd : Fd} {stale : List UInt8} {answer : SocketAnswer}

/-- A connection that reads a system command is as it was. -/
theorem writeNode_self {node : SocketNode} (ha : s.nodes a = some node) :
    s.writeNode a node = s := by
  have hnodes : (fun b => if b = a then some node else s.nodes b) = s.nodes := by
    funext b
    split
    · rename_i heq
      rw [heq, ha]
    · rfl
  rw [writeNode, hnodes]

/-- A read of a message is not the end of the connection. -/
theorem firstRead_length_ne (request : Request) : (firstRead request.message).length ≠ 0 := by
  obtain ⟨rest, hfront⟩ := request.front_eq
  rw [request.firstRead_message, hfront]
  exact Nat.succ_ne_zero _

/-- What has been performed stays when the connection goes on. -/
theorem parserFeed_performed (h : s.Invariant) {parser : Parser} {memory : List UInt8}
    {count : Nat} {creates : List CreateAnswer} {s' : Server} {actions more : List Action}
    (ha : s.nodes a = some ⟨fd, .connection parser⟩)
    (hactions : (Cyberd.parserFeed platform parser memory count).1.actions = actions ++ more)
    (hok : parserFeed platform host a parser memory count creates s = .ok s') :
    ∃ t, actions.foldlM (perform host) (creates, s) = .ok t ∧ t.2.world.Operates s'.world ∧
      ∀ b, b ≠ a → ∀ node, t.2.nodes b = some node → s'.nodes b = some node := by
  have hauth : parser.Authorized := h.authorized a _ ha
  obtain ⟨⟨-, -, new, hnew, hall⟩, -⟩ :=
    parserFeedRun_authorized platform ⟨parser, memory, count, 0, []⟩ hauth
  have hgranted : ∀ action ∈ actions ++ more, ∀ c ∈ action.granted,
      Capset.Included c capsetAll := by
    rw [← hactions]
    intro action hmem c hc
    have hsame : (Cyberd.parserFeed platform parser memory count).1.actions = new := hnew
    exact ((hall action (hsame ▸ hmem)).granted c hc).2.trans hauth.included
  obtain ⟨t, hfirst, hinv, -⟩ := @performAll_ok host (creates, s) h a actions
    fun action hmem => hgranted action (List.mem_append_left _ hmem)
  obtain ⟨t', hrest, -, -, hkeeps⟩ := @performAll_ok host t hinv a more
    fun action hmem => hgranted action (List.mem_append_right _ hmem)
  refine ⟨t, hfirst, ?_⟩
  rw [parserFeed, hactions, List.foldlM_append, hfirst, except_bind_ok, hrest,
    except_bind_ok] at hok
  obtain ⟨snode, -, hok⟩ := except_bind_eq_ok.mp hok
  have hwritten : ∃ node, s' = t'.2.writeNode a node := by
    split at hok
    · cases hok
    · exact ⟨_, (Except.ok.inj hok).symm⟩
    · exact ⟨_, (Except.ok.inj hok).symm⟩
  obtain ⟨node', rfl⟩ := hwritten
  refine ⟨performAll_operates hrest, fun b hb node hnode => ?_⟩
  rw [writeNode]
  exact (if_neg hb).trans (hkeeps b node hnode)

/-- A fresh connection serves the request of its first read, and stops at most where the bytes
behind the request leave the buffer. -/
theorem socketConnectionNodeOperate_serves (h : s.Invariant)
    (ha : s.nodes a = some ⟨fd, .connection (connectionParser capabilities)⟩)
    (hnul : (0 : UInt8) ∉ request.name)
    (hread : answer.read =
      some (firstRead request.message ++ stale, (firstRead request.message).length)) :
    Outcome (SocketNode.Overruns platform answer ⟨fd, .connection (connectionParser capabilities)⟩)
      (Serves platform host answer a fd capabilities request s)
      (socketConnectionNodeOperate platform host a (connectionParser capabilities) answer s) := by
  obtain ⟨haccepts, hrefuses⟩ := parserFeed_request platform capabilities request hnul stale
  have hne := firstRead_length_ne request
  have hoperate : socketConnectionNodeOperate platform host a (connectionParser capabilities)
      answer s = parserFeed platform host a (connectionParser capabilities)
        (firstRead request.message ++ stale) (firstRead request.message).length answer.creates
        s := by
    simp only [socketConnectionNodeOperate, hread, if_neg hne]
  have hreboots : SocketNode.reboots platform answer
      ⟨fd, .connection (connectionParser capabilities)⟩ =
        (Cyberd.parserFeed platform (connectionParser capabilities)
          (firstRead request.message ++ stale)
          (firstRead request.message).length).1.actions.filterMap Action.howto := by
    simp only [SocketNode.reboots, hread, if_neg hne]
  by_cases haccepted : request.Accepted capabilities
  · rcases request.back_cases with ⟨howto, rfl⟩ | ⟨-, -, -, -⟩
    · have hfeed := @parserFeed_system platform capabilities stale howto haccepted.1
      rw [parserFeedRun_done platform rfl] at hfeed
      rw [hfeed] at hreboots
      rw [hoperate, parserFeed, hfeed]
      simp only [List.foldlM_cons, List.foldlM_nil, perform, except_bind_ok, except_pure,
        readNode_ok ha, writeNode_self ha]
      exact .queued howto rfl haccepted hreboots
    · obtain ⟨next, hstate, hcaps, hfeed⟩ := haccepts haccepted
      have hauth : next.Authorized :=
        ⟨hcaps ▸ (h.authorized a _ ha).included, Or.inl hstate, fun hs => by
          rw [hstate] at hs
          cases hs⟩
      obtain ⟨⟨-, -, more, hmore, -⟩, -⟩ := parserFeedRun_authorized platform
        ⟨next, stale, request.overread, (firstRead request.message).length,
          request.actions platform capabilities⟩ hauth
      rw [← hfeed] at hmore
      rw [hoperate]
      apply (parserFeed_ok h ha hread).result.mono _ fun _ ht => ht
      rintro s' ⟨hok, -⟩
      obtain ⟨t, hfirst, hafter, hnodes⟩ := parserFeed_performed h ha hmore hok
      exact .performed s' t haccepted hfirst hnodes hafter
  · obtain ⟨f, hfeed, hactions, hstate, -⟩ := hrefuses haccepted
    rw [hfeed, hactions] at hreboots
    rw [hoperate, parserFeed, hfeed]
    simp only [hactions, List.foldlM_nil, except_pure, except_bind_ok, readNode_ok ha]
    exact .refused f.parser haccepted hstate hreboots

/-- In every state of every run of the program, and for every call of cyberctl: the call
writes nothing but a part of the request that its words ask for, and nothing when they ask for
none; when it exits with success, the request is written as a whole, and any connection that
was just accepted serves it. On a little-endian host, this never creates an endpoint. -/
theorem calls_over_runs (platform : Platform) (host : Host) (boot : ServerBoot)
    (events : List ServerEvent) :
    Outcome (Halts platform host boot events)
      (fun s => ∀ call : CyberctlCall, ∃ exit, call.exit platform = .ok exit ∧
        (∀ endpoint request, call.Asks endpoint request → exit.sent <+: request.message) ∧
        ((∀ endpoint request, ¬ call.Asks endpoint request) →
          exit.sent = [] ∧ exit.error.isSome) ∧
        (exit.error = none → ∃ endpoint request, call.Asks endpoint request ∧
          exit.sent = request.message ∧ s.ServedBy platform host exit.sent request ∧
          (platform.byteOrder = .little → ∀ capabilities,
            Capset.Included capabilities capsetAll → ∀ name granted,
              Action.endpointCreate name granted ∉ request.actions platform capabilities)))
      (run platform host boot events) := by
  apply (run_ok platform host boot events).mono _ fun _ ht => ht
  rintro s ⟨hinv, -⟩ call
  obtain ⟨exit, hexit, hpart, hnothing, hwhole⟩ := call.exit_cases platform
  refine ⟨exit, hexit, hpart, hnothing, fun herror => ?_⟩
  obtain ⟨endpoint, request, hasks, hsent⟩ := hwhole herror
  refine ⟨endpoint, request, hasks, hsent, ?_,
    fun hlittle _ hall => hasks.actions_little hlittle hall⟩
  intro a fd capabilities answer stale ha hread
  rw [hsent] at hread
  exact socketConnectionNodeOperate_serves hinv ha hasks.name_nul hread

end Server

end Cyberd
