import Cyberd.Connection.Authority

/-!
# Confinement of the capabilities

The endpoints and the connections of `socket_switch.c`, each one with the node it
comes from. Connections that hung up are kept, so that the ancestors of an
endpoint remain known. The bytes a parser looks at are arbitrary memory, and a
read may be larger than it.
-/

namespace Cyberd

/-- `struct socket_endpoint_node` -/
structure SocketEndpointNode where
  /-- Associated capabilities. -/
  capabilities : Capset
  /-- The connection that had it created, none for the root endpoint. -/
  creator : Option Nat
  deriving DecidableEq, Repr

/-- `struct socket_connection_node` -/
structure SocketConnectionNode where
  /-- The endpoint that accepted it. -/
  endpoint : Nat
  /-- The message parser. -/
  parser : Parser
  /-- It is still in the switch. -/
  connected : Bool
  deriving DecidableEq, Repr

/-- The nodes of the switch in the order of their creation. -/
structure SocketSwitch where
  /-- The endpoints. -/
  endpoints : List SocketEndpointNode
  /-- The connections, past ones included. -/
  connections : List SocketConnectionNode
  /-- What was executed through which connection. -/
  executed : List (Nat × Action)
  deriving DecidableEq, Repr

/-- `socket_switch_setup`, when the root endpoint can be created. -/
def socketSwitchSetup : SocketSwitch := ⟨[⟨capsetAll, none⟩], [], []⟩

/-- `socket_endpoint_node_operate`, when a connection can be accepted. -/
def socketEndpointNodeOperate (s : SocketSwitch) (endpoint : Nat) : SocketSwitch :=
  match s.endpoints[endpoint]? with
  | none => s
  | some node =>
    { s with connections :=
        s.connections ++ [⟨endpoint, connectionParser node.capabilities, true⟩] }

/-- The endpoints inserted by the actions of a read. Each creation succeeds or not,
as the outcomes say. -/
def createdEndpoints (connection : Nat) : List Action → List Bool → List SocketEndpointNode
  | [], _ => []
  | .endpointCreate _ capabilities :: actions, true :: outcomes =>
    ⟨capabilities, some connection⟩ :: createdEndpoints connection actions outcomes
  | .endpointCreate _ _ :: actions, outcomes =>
    createdEndpoints connection actions outcomes.tail
  | .daemon _ _ :: actions, outcomes => createdEndpoints connection actions outcomes
  | .queueReboot _ :: actions, outcomes => createdEndpoints connection actions outcomes

/-- The read of a connection of `socket_connection_node_operate`. -/
def socketConnectionNodeRead (platform : Platform) (s : SocketSwitch) (connection : Nat)
    (memory : List UInt8) (count : Nat) (outcomes : List Bool) : SocketSwitch :=
  match s.connections[connection]? with
  | none => s
  | some node =>
    if node.connected then
      let f := (parserFeed platform node.parser memory count).1
      { endpoints := s.endpoints ++ createdEndpoints connection f.actions outcomes
        connections := s.connections.set connection { node with parser := f.parser }
        executed := s.executed ++ f.actions.map fun action => (connection, action) }
    else s

/-- The end of a connection of `socket_connection_node_operate`. -/
def socketConnectionNodeRemove (s : SocketSwitch) (connection : Nat) : SocketSwitch :=
  match s.connections[connection]? with
  | none => s
  | some node =>
    { s with connections := s.connections.set connection { node with connected := false } }

/-- What `socket_switch_operate` finds ready. -/
inductive SocketEvent
  /-- A client connects to an endpoint. -/
  | accept (endpoint : Nat)
  /-- A connection has bytes: the memory from the read buffer on, how many bytes of
  it were read, and which endpoint creations succeed. -/
  | read (connection : Nat) (memory : List UInt8) (count : Nat) (outcomes : List Bool)
  /-- A connection is over. -/
  | hangUp (connection : Nat)

/-- One operation of the switch. -/
def SocketSwitch.step (platform : Platform) (s : SocketSwitch) : SocketEvent → SocketSwitch
  | .accept endpoint => socketEndpointNodeOperate s endpoint
  | .read connection memory count outcomes =>
    socketConnectionNodeRead platform s connection memory count outcomes
  | .hangUp connection => socketConnectionNodeRemove s connection

/-- A run of the switch. -/
def SocketSwitch.run (platform : Platform) (s : SocketSwitch) (events : List SocketEvent) :
    SocketSwitch :=
  events.foldl (SocketSwitch.step platform) s

/-- The first endpoint accepted a connection which had the second one created, or is
such an ancestor of an ancestor of it. -/
inductive SocketSwitch.Ancestor (s : SocketSwitch) : Nat → Nat → Prop
  | creator {child connection : Nat} {node : SocketEndpointNode} {client : SocketConnectionNode}
      (hnode : s.endpoints[child]? = some node) (hcreator : node.creator = some connection)
      (hclient : s.connections[connection]? = some client) : Ancestor s client.endpoint child
  | trans {first second third : Nat} (h : Ancestor s first second)
      (h' : Ancestor s second third) : Ancestor s first third

/-- The invariant of the nodes. -/
structure SocketSwitch.Invariant (s : SocketSwitch) : Prop where
  /-- A connection is authorized, with the capabilities of its endpoint. -/
  connection : ∀ (i : Nat) node, s.connections[i]? = some node → node.parser.Authorized ∧
    ∃ endpoint, s.endpoints[node.endpoint]? = some endpoint ∧
      node.parser.capabilities = endpoint.capabilities
  /-- An endpoint has capabilities only, a non-empty part of those of its creator. -/
  endpoint : ∀ (i : Nat) node, s.endpoints[i]? = some node →
    node.capabilities ≠ 0 ∧ Capset.Included node.capabilities capsetAll ∧
    ∀ creator, node.creator = some creator → ∃ client, s.connections[creator]? = some client ∧
      Capset.Included node.capabilities client.parser.capabilities
  /-- An executed action was covered by the capabilities of its connection. -/
  executed : ∀ entry ∈ s.executed, ∃ client, s.connections[entry.1]? = some client ∧
    entry.2.Authorized client.parser.capabilities

/-- What confinement promises of the nodes of a switch. -/
structure SocketSwitch.Confined (platform : Platform) (s : SocketSwitch) : Prop where
  /-- A connection has the capabilities of the endpoint that accepted it. -/
  accepted : ∀ (i : Nat) client, s.connections[i]? = some client →
    ∃ endpoint, s.endpoints[client.endpoint]? = some endpoint ∧
      client.parser.capabilities = endpoint.capabilities
  /-- A created endpoint has a non-empty part of the capabilities of its creator. -/
  created : ∀ (i : Nat) node creator, s.endpoints[i]? = some node → node.creator = some creator →
    ∃ client, s.connections[creator]? = some client ∧ node.capabilities ≠ 0 ∧
      Capset.Included node.capabilities client.parser.capabilities
  /-- All of its ancestors have its capabilities. -/
  ancestors : ∀ (i j : Nat) ancestor node, s.Ancestor i j → s.endpoints[i]? = some ancestor →
    s.endpoints[j]? = some node → Capset.Included node.capabilities ancestor.capabilities
  /-- No endpoint has more than the capabilities there are. -/
  all : ∀ (i : Nat) node, s.endpoints[i]? = some node →
    Capset.Included node.capabilities capsetAll
  /-- What is executed is covered by the capabilities of its connection. -/
  executed : ∀ (connection : Nat) action, (connection, action) ∈ s.executed →
    ∃ client, s.connections[connection]? = some client ∧
      capsetHas client.parser.capabilities action.capability = true
  /-- No read on any connection aborts, and none runs forever. -/
  abort : ∀ (i : Nat) client, s.connections[i]? = some client → ∀ memory count,
    (parserFeed platform client.parser memory count).2 ≠ .trapped .abort ∧
    (parserFeed platform client.parser memory count).2 ≠ .running

/-- A run goes on with the next operations. -/
theorem SocketSwitch.run_append (platform : Platform) (s : SocketSwitch)
    (events events' : List SocketEvent) :
    s.run platform (events ++ events') = (s.run platform events).run platform events' :=
  List.foldl_append

/-- An inserted endpoint was granted by one of the actions. -/
theorem createdEndpoints_mem {connection : Nat} {actions : List Action} {outcomes : List Bool}
    {node : SocketEndpointNode} (h : node ∈ createdEndpoints connection actions outcomes) :
    node.creator = some connection ∧ ∃ action ∈ actions, node.capabilities ∈ action.granted := by
  induction actions, outcomes using createdEndpoints.induct with
  | case1 outcomes => simp [createdEndpoints] at h
  | case2 name capabilities actions outcomes ih =>
    rw [createdEndpoints] at h
    rcases List.mem_cons.mp h with rfl | h
    · exact ⟨rfl, _, List.mem_cons_self .., List.mem_singleton.mpr rfl⟩
    · obtain ⟨hc, action, hmem, hgranted⟩ := ih h
      exact ⟨hc, action, List.mem_cons_of_mem _ hmem, hgranted⟩
  | case3 name capabilities actions outcomes hne ih =>
    rw [createdEndpoints] at h
    · obtain ⟨hc, action, hmem, hgranted⟩ := ih h
      exact ⟨hc, action, List.mem_cons_of_mem _ hmem, hgranted⟩
    · exact hne
  | case4 action name actions outcomes ih =>
    rw [createdEndpoints] at h
    obtain ⟨hc, action, hmem, hgranted⟩ := ih h
    exact ⟨hc, action, List.mem_cons_of_mem _ hmem, hgranted⟩
  | case5 howto actions outcomes ih =>
    rw [createdEndpoints] at h
    obtain ⟨hc, action, hmem, hgranted⟩ := ih h
    exact ⟨hc, action, List.mem_cons_of_mem _ hmem, hgranted⟩

/-- The switch starts with the root endpoint, which has every capability. -/
theorem socketSwitchSetup_invariant : socketSwitchSetup.Invariant := by
  refine ⟨by simp [socketSwitchSetup], fun i node h => ?_, by simp [socketSwitchSetup]⟩
  have hmem := List.mem_of_getElem? h
  rw [socketSwitchSetup, List.mem_singleton] at hmem
  subst hmem
  exact ⟨by decide, by decide, by simp⟩

/-- Replacing a connection by one of the same endpoint and capabilities keeps the
invariant of all nodes. -/
theorem SocketSwitch.Invariant.set {s : SocketSwitch} (h : s.Invariant) {connection : Nat}
    {client client' : SocketConnectionNode} (hclient : s.connections[connection]? = some client)
    (hauth : client'.parser.Authorized) (hendpoint : client'.endpoint = client.endpoint)
    (hcap : client'.parser.capabilities = client.parser.capabilities) :
    { s with connections := s.connections.set connection client' }.Invariant := by
  -- a client found before is found again, with the same capabilities
  have hkeep : ∀ (i : Nat) node, s.connections[i]? = some node →
      ∃ node', (s.connections.set connection client')[i]? = some node' ∧
        node'.parser.capabilities = node.parser.capabilities := by
    intro i node hi
    by_cases heq : connection = i
    · subst heq
      rw [hclient] at hi
      cases hi
      have hlt := (List.getElem?_eq_some_iff.mp hclient).1
      exact ⟨client', List.getElem?_set_self hlt, hcap⟩
    · exact ⟨node, by rw [List.getElem?_set_ne heq]; exact hi, rfl⟩
  refine ⟨fun i node hi => ?_, fun i node hi => ?_, fun entry hentry => ?_⟩
  · rw [List.getElem?_set] at hi
    split at hi
    · split at hi
      · cases hi
        rw [hendpoint, hcap]
        exact ⟨hauth, (h.connection connection client hclient).2⟩
      · cases hi
    · exact h.connection i node hi
  · obtain ⟨hne, hall, hcreator⟩ := h.endpoint i node hi
    refine ⟨hne, hall, fun creator hc => ?_⟩
    obtain ⟨old, hold, hinc⟩ := hcreator creator hc
    obtain ⟨new, hnew, heq⟩ := hkeep creator old hold
    exact ⟨new, hnew, heq ▸ hinc⟩
  · obtain ⟨old, hold, hauth⟩ := h.executed entry hentry
    obtain ⟨new, hnew, heq⟩ := hkeep entry.1 old hold
    exact ⟨new, hnew, heq ▸ hauth⟩

/-- An accepted connection keeps the invariant. -/
theorem socketEndpointNodeOperate_invariant {s : SocketSwitch} (h : s.Invariant)
    (endpoint : Nat) : (socketEndpointNodeOperate s endpoint).Invariant := by
  unfold socketEndpointNodeOperate
  cases hnode : s.endpoints[endpoint]? with
  | none => exact h
  | some node =>
    have hold : ∀ {i : Nat} {client}, s.connections[i]? = some client →
        (s.connections ++ [⟨endpoint, connectionParser node.capabilities, true⟩])[i]? =
          some client := by
      intro i client hi
      rw [List.getElem?_append_left (List.getElem?_eq_some_iff.mp hi).1]
      exact hi
    refine ⟨fun i client hi => ?_, fun i e hi => ?_, fun entry hentry => ?_⟩
    · rw [List.getElem?_append] at hi
      split at hi
      · exact h.connection i client hi
      · have hmem := List.mem_of_getElem? hi
        rw [List.mem_singleton] at hmem
        subst hmem
        exact ⟨connectionParser_authorized (h.endpoint endpoint node hnode).2.1,
          node, hnode, rfl⟩
    · obtain ⟨hne, hall, hcreator⟩ := h.endpoint i e hi
      refine ⟨hne, hall, fun creator hc => ?_⟩
      obtain ⟨client, hclient, hinc⟩ := hcreator creator hc
      exact ⟨client, hold hclient, hinc⟩
    · obtain ⟨client, hclient, hauth⟩ := h.executed entry hentry
      exact ⟨client, hold hclient, hauth⟩

/-- Endpoints granted by a connection, and actions it is authorized for, keep the
invariant. -/
theorem SocketSwitch.Invariant.execute {s : SocketSwitch} (h : s.Invariant) {connection : Nat}
    {client : SocketConnectionNode} (hclient : s.connections[connection]? = some client)
    {actions : List Action} (hactions : ∀ a ∈ actions, a.Authorized client.parser.capabilities)
    (outcomes : List Bool) :
    { s with
      endpoints := s.endpoints ++ createdEndpoints connection actions outcomes
      executed := s.executed ++ actions.map fun action => (connection, action) }.Invariant := by
  obtain ⟨hauth, parent, hparent, hsame⟩ := h.connection connection client hclient
  refine ⟨fun i node hi => ?_, fun i node hi => ?_, fun entry hentry => ?_⟩
  · obtain ⟨hnode, endpoint, hendpoint, hcap⟩ := h.connection i node hi
    refine ⟨hnode, endpoint, ?_, hcap⟩
    rw [List.getElem?_append_left (List.getElem?_eq_some_iff.mp hendpoint).1]
    exact hendpoint
  · rw [List.getElem?_append] at hi
    split at hi
    · exact h.endpoint i node hi
    · obtain ⟨hcreator, action, hmem, hgranted⟩ := createdEndpoints_mem (List.mem_of_getElem? hi)
      obtain ⟨hne, hinc⟩ := (hactions action hmem).granted _ hgranted
      refine ⟨hne, hinc.trans hauth.included, fun creator hc => ?_⟩
      rw [hcreator] at hc
      cases hc
      exact ⟨client, hclient, hinc⟩
  · rcases List.mem_append.mp hentry with hentry | hentry
    · exact h.executed entry hentry
    · obtain ⟨action, hmem, rfl⟩ := List.mem_map.mp hentry
      exact ⟨client, hclient, hactions action hmem⟩

/-- A read keeps the invariant, whatever memory it looks at. -/
theorem socketConnectionNodeRead_invariant (platform : Platform) {s : SocketSwitch}
    (h : s.Invariant) (connection : Nat) (memory : List UInt8) (count : Nat)
    (outcomes : List Bool) :
    (socketConnectionNodeRead platform s connection memory count outcomes).Invariant := by
  unfold socketConnectionNodeRead
  cases hclient : s.connections[connection]? with
  | none => exact h
  | some client =>
    by_cases hconn : client.connected = true
    · simp only [if_pos hconn]
      obtain ⟨⟨hauth, hcap, new, hnew, hall⟩, -⟩ := parserFeedRun_authorized platform
        ⟨client.parser, memory, count, 0, []⟩ (h.connection connection client hclient).1
      have hactions : (parserFeed platform client.parser memory count).1.actions = new := hnew
      have hexec := h.execute hclient hall outcomes
      rw [hactions]
      exact SocketSwitch.Invariant.set hexec hclient hauth rfl hcap
    · simp only [if_neg hconn]
      exact h

/-- Every operation keeps the invariant. -/
theorem SocketSwitch.step_invariant (platform : Platform) {s : SocketSwitch} (h : s.Invariant)
    (event : SocketEvent) : (s.step platform event).Invariant := by
  cases event with
  | accept endpoint => exact socketEndpointNodeOperate_invariant h endpoint
  | read connection memory count outcomes =>
    exact socketConnectionNodeRead_invariant platform h connection memory count outcomes
  | hangUp connection =>
    change (socketConnectionNodeRemove s connection).Invariant
    unfold socketConnectionNodeRemove
    cases hclient : s.connections[connection]? with
    | none => exact h
    | some client =>
      exact h.set hclient (h.connection connection client hclient).1 rfl rfl

/-- Every run keeps the invariant. -/
theorem SocketSwitch.run_invariant (platform : Platform) {s : SocketSwitch} (h : s.Invariant)
    (events : List SocketEvent) : (s.run platform events).Invariant := by
  induction events generalizing s with
  | nil => exact h
  | cons event events ih => exact ih (s.step_invariant platform h event)

/-- Capabilities only get fewer from an ancestor to an endpoint. -/
theorem SocketSwitch.Invariant.ancestor {s : SocketSwitch} (h : s.Invariant) {i j : Nat}
    (hij : s.Ancestor i j) {node : SocketEndpointNode} (hnode : s.endpoints[j]? = some node) :
    ∃ ancestor, s.endpoints[i]? = some ancestor ∧
      Capset.Included node.capabilities ancestor.capabilities := by
  induction hij generalizing node with
  | @creator child connection node' client hnode' hcreator hclient =>
    rw [hnode'] at hnode
    cases hnode
    obtain ⟨-, -, hc⟩ := h.endpoint child node' hnode'
    obtain ⟨client', hclient', hinc⟩ := hc connection hcreator
    rw [hclient] at hclient'
    cases hclient'
    obtain ⟨-, endpoint, hendpoint, hcap⟩ := h.connection connection client hclient
    exact ⟨endpoint, hendpoint, hcap ▸ hinc⟩
  | trans _ _ ih ih' =>
    obtain ⟨middle, hmiddle, hinc'⟩ := ih' hnode
    obtain ⟨ancestor, hancestor, hinc⟩ := ih hmiddle
    exact ⟨ancestor, hancestor, hinc'.trans hinc⟩

/-- The invariant of the nodes confines their capabilities. -/
theorem SocketSwitch.Invariant.confined {s : SocketSwitch} (h : s.Invariant)
    (platform : Platform) : s.Confined platform := by
  refine
    { accepted := fun i client hi => (h.connection i client hi).2
      created := fun i node creator hi hc => ?_
      ancestors := fun i j ancestor node hij hi hj => ?_
      all := fun i node hi => (h.endpoint i node hi).2.1
      executed := fun connection action hmem => ?_
      abort := fun i client hi memory count => ?_ }
  · obtain ⟨hne, -, hcreator⟩ := h.endpoint i node hi
    obtain ⟨client, hclient, hinc⟩ := hcreator creator hc
    exact ⟨client, hclient, hne, hinc⟩
  · obtain ⟨ancestor', hancestor', hinc⟩ := h.ancestor hij hj
    rw [hi] at hancestor'
    cases hancestor'
    exact hinc
  · obtain ⟨client, hclient, hauth⟩ := h.executed _ hmem
    exact ⟨client, hclient, hauth.has⟩
  · exact ⟨(parserFeedRun_authorized platform _ (h.connection i client hi).1).2,
      parserFeedRun_ends platform _⟩

/-- From the root endpoint on, capabilities are confined in every run. -/
theorem socketSwitch_confined (platform : Platform) (events : List SocketEvent) :
    (socketSwitchSetup.run platform events).Confined platform :=
  (SocketSwitch.run_invariant platform socketSwitchSetup_invariant events).confined platform

end Cyberd
