import Cyberd.Connection.Confinement
import Cyberd.Server.Runs

/-!
# Confinement of the connections of the program

The nodes of the program are those of a switch that numbers the endpoints and the connections
in the order of their creation. Each operation of a node is one of this switch on its number,
with the same bytes, so that the capabilities are confined in every run of the program.
-/

namespace Cyberd

open Library

namespace Server

-- The loop over all of the descriptors is not to be unrolled.
attribute [local irreducible] fdSetSize

/-- The nodes of the program are endpoints and connections of the switch, at these numbers. -/
structure Entered (s : Server) (switch : SocketSwitch) (entry : Addr → Nat) : Prop where
  /-- An endpoint has the same capabilities. -/
  endpoint : ∀ a fd capabilities, s.nodes a = some ⟨fd, .endpoint capabilities⟩ →
    ∃ creator, switch.endpoints[entry a]? = some ⟨capabilities, creator⟩
  /-- A connection has the same parser. -/
  connection : ∀ a fd parser, s.nodes a = some ⟨fd, .connection parser⟩ →
    ∃ endpoint, switch.connections[entry a]? = some ⟨endpoint, parser, true⟩
  /-- Two connections have two numbers. -/
  unique : ∀ a b fd fd' parser parser', s.nodes a = some ⟨fd, .connection parser⟩ →
    s.nodes b = some ⟨fd', .connection parser'⟩ → entry a = entry b → a = b
  /-- The connections that are left have a node. -/
  connected : ∀ (i : Nat) client, switch.connections[i]? = some client →
    client.connected = true →
    ∃ a fd, s.nodes a = some ⟨fd, .connection client.parser⟩ ∧ entry a = i

/-- What the operation of a node is in the switch. -/
inductive Matched (s : Server) (answers : Fd → SocketAnswer) (entry : Addr → Nat) :
    Fd × Addr → List SocketEvent → Prop
  /-- No connection of an endpoint could be accepted. -/
  | refuse (a : Addr) (fd : Fd) (capabilities : Capset)
      (ha : s.nodes a = some ⟨fd, .endpoint capabilities⟩) : Matched s answers entry (fd, a) []
  /-- An endpoint has accepted a connection. -/
  | accept (a : Addr) (fd : Fd) (capabilities : Capset)
      (ha : s.nodes a = some ⟨fd, .endpoint capabilities⟩) :
      Matched s answers entry (fd, a) [.accept (entry a)]
  /-- A connection has read these bytes. -/
  | read (a : Addr) (fd : Fd) (parser : Parser) (memory : List UInt8) (count : Nat)
      (outcomes : List Bool) (ha : s.nodes a = some ⟨fd, .connection parser⟩)
      (hread : (answers fd).read = some (memory, count)) (hcount : count ≠ 0) :
      Matched s answers entry (fd, a) [.read (entry a) memory count outcomes]
  /-- A connection is over, or its read has failed. -/
  | hangUp (a : Addr) (fd : Fd) (parser : Parser)
      (ha : s.nodes a = some ⟨fd, .connection parser⟩)
      (hread : ∀ memory count, (answers fd).read = some (memory, count) → count = 0) :
      Matched s answers entry (fd, a) [.hangUp (entry a)]

/-- The connections of the program are those of a run of the switch, which is confined, and its
next round continues this run by what it operates. -/
structure Confines (platform : Platform) (host : Host) (s : Server) (events : List SocketEvent)
    (entry : Addr → Nat) : Prop where
  /-- The nodes are those of the run. -/
  entered : s.Entered (Cyberd.socketSwitchSetup.run platform events) entry
  /-- Their capabilities are confined. -/
  confined : (Cyberd.socketSwitchSetup.run platform events).Confined platform
  /-- A round goes on with the operations of the nodes it visits, in their order. -/
  round : ∀ ready answers s', s.round platform host ready answers = .ok s' →
    ∃ visits operations entry', s'.operated = s.operated ++ visits ∧
      List.Forall₂ (s.Matched answers entry) visits operations ∧
      s'.Entered (Cyberd.socketSwitchSetup.run platform (events ++ operations.flatten)) entry'

variable {s s' : Server} {a : Addr} {fd : Fd} {parser : Parser} {switch : SocketSwitch}
variable {entry entry' : Addr → Nat} {host : Host} {platform : Platform}

/-- The numbers only depend on the nodes. -/
theorem Entered.congr (h : s.Entered switch entry) (hnodes : s'.nodes = s.nodes) :
    s'.Entered switch entry := by
  constructor
  · rw [hnodes]
    exact h.endpoint
  · rw [hnodes]
    exact h.connection
  · rw [hnodes]
    exact h.unique
  · rw [hnodes]
    exact h.connected

/-- A new endpoint takes the next number of the endpoints. -/
theorem Entered.establish (h : s.Entered switch entry) (hs : s.Invariant)
    {capabilities : Capset} (hnodes : ∀ b, s'.nodes b =
      if b = s.nextNode then some ⟨fd, .endpoint capabilities⟩ else s.nodes b)
    (creator : Option Nat) :
    s'.Entered { switch with endpoints := switch.endpoints ++ [⟨capabilities, creator⟩] }
      (Function.update entry s.nextNode switch.endpoints.length) := by
  have hold : ∀ {b node}, s.nodes b = some node → b ≠ s.nextNode :=
    fun hb => (hs.fresh _ _ hb).ne
  have hconnection : ∀ {b fd' parser}, s'.nodes b = some ⟨fd', .connection parser⟩ →
      s.nodes b = some ⟨fd', .connection parser⟩ := by
    intro b fd' parser hb
    rw [hnodes] at hb
    split at hb
    · cases hb
    · exact hb
  constructor
  · intro b fd' capabilities' hb
    rw [hnodes] at hb
    split at hb
    · rename_i hnew
      cases hb
      refine ⟨creator, ?_⟩
      rw [hnew, Function.update_self]
      exact List.getElem?_concat_length
    · rename_i hne
      obtain ⟨creator', hget⟩ := h.endpoint b fd' capabilities' hb
      refine ⟨creator', ?_⟩
      rw [Function.update_of_ne hne]
      exact (List.getElem?_append_left (List.getElem?_eq_some_iff.mp hget).1).trans hget
  · intro b fd' parser hb
    have hb' := hconnection hb
    rw [Function.update_of_ne (hold hb')]
    exact h.connection b fd' parser hb'
  · intro b c fd' fd'' parser parser' hb hc heq
    have hb' := hconnection hb
    have hc' := hconnection hc
    rw [Function.update_of_ne (hold hb'), Function.update_of_ne (hold hc')] at heq
    exact h.unique b c fd' fd'' parser parser' hb' hc' heq
  · intro i client hi hconnected
    obtain ⟨b, fd', hb, hentry⟩ := h.connected i client hi hconnected
    refine ⟨b, fd', ?_, ?_⟩
    · rw [hnodes, if_neg (hold hb), hb]
    · rw [Function.update_of_ne (hold hb), hentry]

/-- A new connection takes the next number of the connections. -/
theorem Entered.connect (h : s.Entered switch entry) (hs : s.Invariant)
    (hnodes : ∀ b, s'.nodes b =
      if b = s.nextNode then some ⟨fd, .connection parser⟩ else s.nodes b)
    (endpoint : Nat) :
    s'.Entered { switch with connections := switch.connections ++ [⟨endpoint, parser, true⟩] }
      (Function.update entry s.nextNode switch.connections.length) := by
  have hold : ∀ {b node}, s.nodes b = some node → b ≠ s.nextNode :=
    fun hb => (hs.fresh _ _ hb).ne
  -- the numbers of the connections before are smaller
  have hlt : ∀ {b fd' parser'}, s.nodes b = some ⟨fd', .connection parser'⟩ →
      entry b < switch.connections.length := by
    intro b fd' parser' hb
    obtain ⟨endpoint', hget⟩ := h.connection b fd' parser' hb
    exact (List.getElem?_eq_some_iff.mp hget).1
  constructor
  · intro b fd' capabilities' hb
    rw [hnodes] at hb
    split at hb
    · cases hb
    · rename_i hne
      rw [Function.update_of_ne hne]
      exact h.endpoint b fd' capabilities' hb
  · intro b fd' parser' hb
    rw [hnodes] at hb
    split at hb
    · rename_i hnew
      cases hb
      refine ⟨endpoint, ?_⟩
      rw [hnew, Function.update_self]
      exact List.getElem?_concat_length
    · rename_i hne
      obtain ⟨endpoint', hget⟩ := h.connection b fd' parser' hb
      refine ⟨endpoint', ?_⟩
      rw [Function.update_of_ne hne]
      exact (List.getElem?_append_left (hlt hb)).trans hget
  · intro b c fd' fd'' parser' parser'' hb hc heq
    rw [hnodes] at hb hc
    split at hb
    · rename_i hbnew
      split at hc
      · rename_i hcnew
        rw [hbnew, hcnew]
      · rename_i hcne
        rw [hbnew, Function.update_self, Function.update_of_ne hcne] at heq
        exact absurd heq.symm (hlt hc).ne
    · rename_i hbne
      split at hc
      · rename_i hcnew
        rw [hcnew, Function.update_self, Function.update_of_ne hbne] at heq
        exact absurd heq (hlt hb).ne
      · rename_i hcne
        rw [Function.update_of_ne hbne, Function.update_of_ne hcne] at heq
        exact h.unique b c fd' fd'' parser' parser'' hb hc heq
  · intro i client hi hconnected
    rw [List.getElem?_append] at hi
    split at hi
    · obtain ⟨b, fd', hb, hentry⟩ := h.connected i client hi hconnected
      refine ⟨b, fd', ?_, ?_⟩
      · rw [hnodes, if_neg (hold hb), hb]
      · rw [Function.update_of_ne (hold hb), hentry]
    · rename_i hge
      obtain ⟨hlast, hclient⟩ := List.getElem?_eq_some_iff.mp hi
      rw [List.length_singleton] at hlast
      have heq : i = switch.connections.length := by omega
      subst heq
      simp only [Nat.sub_self, List.getElem_cons_zero] at hclient
      subst hclient
      refine ⟨s.nextNode, fd, ?_, Function.update_self ..⟩
      rw [hnodes, if_pos rfl]

/-- The connection of a node changes with the node. -/
theorem Entered.change (h : s.Entered switch entry)
    (ha : s.nodes a = some ⟨fd, .connection parser⟩) {client client' : SocketConnectionNode}
    (hclient : switch.connections[entry a]? = some client)
    (hother : ∀ b, b ≠ a → s'.nodes b = s.nodes b)
    (hnode : s'.nodes a =
      if client'.connected = true then some ⟨fd, .connection client'.parser⟩ else none) :
    s'.Entered
      { switch with connections := switch.connections.set (entry a) client' } entry := by
  have hlt := (List.getElem?_eq_some_iff.mp hclient).1
  constructor
  · intro b fd' capabilities hb
    by_cases hba : b = a
    · rw [hba, hnode] at hb
      split at hb <;> cases hb
    · rw [hother b hba] at hb
      exact h.endpoint b fd' capabilities hb
  · intro b fd' parser' hb
    by_cases hba : b = a
    · rw [hba, hnode] at hb
      split at hb
      · rename_i hconnected
        cases hb
        refine ⟨client'.endpoint, ?_⟩
        change (switch.connections.set (entry a) client')[entry b]? = _
        rw [hba, List.getElem?_set_self hlt, ← hconnected]
      · cases hb
    · rw [hother b hba] at hb
      obtain ⟨endpoint, hget⟩ := h.connection b fd' parser' hb
      have hne : entry a ≠ entry b :=
        fun heq => hba (h.unique a b fd fd' parser parser' ha hb heq).symm
      exact ⟨endpoint, (List.getElem?_set_ne hne).trans hget⟩
  · have hbefore : ∀ {b fd' parser'}, s'.nodes b = some ⟨fd', .connection parser'⟩ →
        ∃ fd'' parser'', s.nodes b = some ⟨fd'', .connection parser''⟩ := by
      intro b fd' parser' hb
      by_cases hba : b = a
      · exact ⟨fd, parser, hba ▸ ha⟩
      · exact ⟨fd', parser', (hother b hba).symm.trans hb⟩
    intro b c fd' fd'' parser' parser'' hb hc heq
    obtain ⟨fdb, parserb, hb'⟩ := hbefore hb
    obtain ⟨fdc, parserc, hc'⟩ := hbefore hc
    exact h.unique b c fdb fdc parserb parserc hb' hc' heq
  · intro i client₁ hi hconnected
    by_cases hia : entry a = i
    · subst hia
      have hi' := (List.getElem?_set_self hlt).symm.trans hi
      cases hi'
      exact ⟨a, fd, by rw [hnode, if_pos hconnected], rfl⟩
    · have hi' := (List.getElem?_set_ne hia).symm.trans hi
      obtain ⟨b, fd', hb, hentry⟩ := h.connected i client₁ hi' hconnected
      refine ⟨b, fd', ?_, hentry⟩
      have hba : b ≠ a := by
        rintro rfl
        exact hia hentry
      rw [hother b hba, hb]

/-- What matches depends on the node that is operated only, and on its number. -/
theorem Matched.congr {answers : Fd → SocketAnswer} {events : List SocketEvent}
    (h : s.Matched answers entry (fd, a) events) (hnode : s'.nodes a = s.nodes a)
    (hentry : entry' a = entry a) : s'.Matched answers entry' (fd, a) events := by
  cases h with
  | refuse a fd capabilities ha => exact .refuse a fd capabilities (hnode.trans ha)
  | accept a fd capabilities ha =>
    rw [← hentry]
    exact .accept a fd capabilities (hnode.trans ha)
  | read a fd parser memory count outcomes ha hread hcount =>
    rw [← hentry]
    exact .read a fd parser memory count outcomes (hnode.trans ha) hread hcount
  | hangUp a fd parser ha hread =>
    rw [← hentry]
    exact .hangUp a fd parser (hnode.trans ha) hread

/-- The numbers of the addresses before the next one are kept, of which none is used again. -/
def KeepsEntries (s s' : Server) (entry entry' : Addr → Nat) : Prop :=
  s.nextNode ≤ s'.nextNode ∧ ∀ b, b < s.nextNode → entry' b = entry b

theorem KeepsEntries.refl (s : Server) (entry : Addr → Nat) : s.KeepsEntries s entry entry :=
  ⟨le_rfl, fun _ _ => rfl⟩

theorem KeepsEntries.trans {s'' : Server} {entry'' : Addr → Nat}
    (h : s.KeepsEntries s' entry entry') (h' : s'.KeepsEntries s'' entry' entry'') :
    s.KeepsEntries s'' entry entry'' :=
  ⟨h.1.trans h'.1, fun b hb => (h'.2 b (hb.trans_le h.1)).trans (h.2 b hb)⟩

/-- A new node takes a number of its own. -/
theorem keepsEntries_update (hnext : s'.nextNode = s.nextNode + 1) (number : Nat) :
    s.KeepsEntries s' entry (Function.update entry s.nextNode number) :=
  ⟨(Nat.le_succ _).trans hnext.ge, fun _ hb => Function.update_of_ne hb.ne _ _⟩

/-- An endpoint creation adds no node, or the one of an endpoint. -/
theorem socketEndpointNodeCreate_nodes (h : s.Invariant) (answer : CreateAnswer) (name : Name)
    {capabilities : Capset} (hinc : Capset.Included capabilities capsetAll) :
    (∃ s', socketEndpointNodeCreate answer name capabilities s = (none, s') ∧
      s'.nodes = s.nodes ∧ s'.nextNode = s.nextNode) ∨
    ∃ snode s₁ s' fd, socketEndpointNodeCreate answer name capabilities s = (some snode, s₁) ∧
      socketSwitchInsert snode s₁ = .ok s' ∧ s'.nextNode = s.nextNode + 1 ∧ ∀ b, s'.nodes b =
        if b = s.nextNode then some ⟨fd, .endpoint capabilities⟩ else s.nodes b := by
  rcases socketEndpointNodeCreate_cases answer name capabilities s with
    ⟨-, heq⟩ | ⟨-, heq⟩ | ⟨-, hpath, fd, hsocket, heq⟩
  · exact Or.inl ⟨s, heq, rfl, rfl⟩
  · exact Or.inl ⟨_, heq, rfl, rfl⟩
  · obtain ⟨hlt, hfree⟩ := takeSocket_some hsocket
    have hp := placed_establish s fd (endpointPath s.socketEndpointsPath name) capabilities
    obtain ⟨snodes, activeset, hinsert, -⟩ :=
      socketSwitchInsert_ok h hp hlt hfree ⟨_, rfl⟩ hinc
    exact Or.inr ⟨_, _, _, fd, heq, hinsert, hp.nextNode, hp.nodes⟩

/-- An action enters the endpoint that it creates, if any. -/
theorem perform_entered {t t' : List CreateAnswer × Server} (hs : t.2.Invariant)
    (h : t.2.Entered switch entry) (connection : Nat) {action : Action}
    (hinc : ∀ c ∈ action.granted, Capset.Included c capsetAll)
    (hperform : perform host t action = .ok t') :
    ∃ created outcome entry', (∀ actions outcomes,
        createdEndpoints connection (action :: actions) (outcome ++ outcomes) =
          created ++ createdEndpoints connection actions outcomes) ∧
      t'.2.Entered { switch with endpoints := switch.endpoints ++ created } entry' ∧
      t.2.KeepsEntries t'.2 entry entry' := by
  -- without an endpoint, the nodes are the same ones
  have hsame : ∀ {s'}, s'.nodes = t.2.nodes → s'.nextNode = t.2.nextNode →
      s'.Entered { switch with endpoints := switch.endpoints ++ [] } entry ∧
        t.2.KeepsEntries s' entry entry := by
    intro s' hnodes hnext
    rw [List.append_nil]
    exact ⟨h.congr hnodes, hnext.ge, fun _ _ => rfl⟩
  cases action with
  | endpointCreate name capabilities =>
    have hinc' := hinc capabilities (List.mem_singleton_self _)
    rw [perform] at hperform
    rcases socketEndpointNodeCreate_nodes hs (t.1.headD ⟨false, none, false, false⟩) name hinc'
      with ⟨s', heq, hnodes, hnext⟩ | ⟨snode, s₁, s', fd, heq, hinsert, hnext, hnodes⟩
    · simp only [heq] at hperform
      cases hperform
      exact ⟨[], [false], entry, fun _ _ => rfl, hsame hnodes hnext⟩
    · simp only [heq, hinsert, except_bind_ok, except_pure] at hperform
      cases hperform
      exact ⟨[⟨capabilities, some connection⟩], [true], _, fun _ _ => rfl,
        h.establish hs hnodes (some connection), keepsEntries_update hnext _⟩
  | daemon action name =>
    obtain ⟨w, hw, -⟩ := @command_ok host _ hs.world action name
    rw [perform, hw, except_bind_ok] at hperform
    cases hperform
    exact ⟨[], [], entry, fun _ _ => rfl, hsame rfl rfl⟩
  | queueReboot howto =>
    cases hperform
    exact ⟨[], [], entry, fun _ _ => rfl, hsame rfl rfl⟩

/-- So do all of the actions of a read, in their order. -/
theorem performAll_entered {t t' : List CreateAnswer × Server} (hs : t.2.Invariant)
    (h : t.2.Entered switch entry) (connection : Nat) {actions : List Action}
    (hinc : ∀ action ∈ actions, ∀ c ∈ action.granted, Capset.Included c capsetAll)
    (hperform : actions.foldlM (perform host) t = .ok t') :
    ∃ outcomes entry', t'.2.Entered { switch with
        endpoints := switch.endpoints ++ createdEndpoints connection actions outcomes } entry' ∧
      t.2.KeepsEntries t'.2 entry entry' := by
  induction actions generalizing t switch entry with
  | nil =>
    cases hperform
    refine ⟨[], entry, ?_, .refl ..⟩
    rw [createdEndpoints, List.append_nil]
    exact h
  | cons action actions ih =>
    obtain ⟨t₁, hfirst, hinv, -⟩ :=
      @perform_ok host t hs 0 action (hinc action List.mem_cons_self)
    rw [List.foldlM_cons, hfirst, except_bind_ok] at hperform
    obtain ⟨created, outcome, entry₁, hcreated, hentered, hkeeps⟩ :=
      perform_entered hs h connection (hinc action List.mem_cons_self) hfirst
    obtain ⟨outcomes, entry', hentered', hkeeps'⟩ :=
      ih hinv hentered (fun action hmem => hinc action (List.mem_cons_of_mem _ hmem)) hperform
    refine ⟨outcome ++ outcomes, entry', ?_, hkeeps.trans hkeeps'⟩
    rw [hcreated, ← List.append_assoc]
    exact hentered'

/-- `parser_feed` on a connection is the read of the switch. -/
theorem parserFeed_entered (hs : s.Invariant) (h : s.Entered switch entry)
    (ha : s.nodes a = some ⟨fd, .connection parser⟩) {memory : List UInt8} {count : Nat}
    {creates : List CreateAnswer}
    (hfeed : parserFeed platform host a parser memory count creates s = .ok s') :
    ∃ outcomes entry', s'.Entered
        (switch.step platform (.read (entry a) memory count outcomes)) entry' ∧
      s.KeepsEntries s' entry entry' := by
  have hauth : parser.Authorized := hs.authorized a _ ha
  obtain ⟨⟨-, -, new, hnew, hall⟩, -⟩ :=
    parserFeedRun_authorized platform ⟨parser, memory, count, 0, []⟩ hauth
  have hactions : (Cyberd.parserFeed platform parser memory count).1.actions = new := hnew
  have hinc : ∀ action ∈ new, ∀ c ∈ action.granted, Capset.Included c capsetAll :=
    fun action hmem c hc => ((hall action hmem).granted c hc).2.trans hauth.included
  obtain ⟨t', hperform, -, -, hkeeps⟩ := @performAll_ok host (creates, s) hs a new hinc
  have ha' := hkeeps a _ ha
  obtain ⟨outcomes, entry', hentered, hentries⟩ :=
    performAll_entered hs h (entry a) hinc hperform
  have hstored : s' = t'.2.writeNode a
      ⟨fd, .connection (Cyberd.parserFeed platform parser memory count).1.parser⟩ := by
    simp only [parserFeed, hactions, hperform, except_bind_ok, readNode_ok ha'] at hfeed
    split at hfeed
    · cases hfeed
    · cases hfeed
      rfl
    · cases hfeed
      rfl
  obtain ⟨endpoint, hclient⟩ := h.connection a fd parser ha
  have hentry : entry' a = entry a := hentries.2 a (hs.fresh a _ ha)
  refine ⟨outcomes, entry', ?_, hentries.1.trans (le_of_eq (by rw [hstored]; rfl)), hentries.2⟩
  rw [SocketSwitch.step, socketConnectionNodeRead, hclient]
  simp only [if_true, hactions]
  have hchange := @Entered.change _ s' _ _ _ _ _ hentered ha'
    ⟨endpoint, parser, true⟩
    ⟨endpoint, (Cyberd.parserFeed platform parser memory count).1.parser, true⟩
    (by rw [hentry]; exact hclient) (fun b hb => by rw [hstored]; exact if_neg hb)
    (by rw [hstored]; exact if_pos rfl)
  rw [hentry] at hchange
  exact ⟨hchange.1, hchange.2, hchange.3, hchange.4⟩

/-- A connection that is removed is over in the switch. -/
theorem socketSwitchRemove_entered (platform : Platform) (hs : s.Invariant)
    (h : s.Entered switch entry) (ha : s.nodes a = some ⟨fd, .connection parser⟩)
    (hremove : socketSwitchRemove a s = .ok s') :
    s'.Entered (switch.step platform (.hangUp (entry a))) entry ∧
      s.KeepsEntries s' entry entry := by
  obtain ⟨snodes, activeset, heq, -⟩ := socketSwitchRemove_ok hs ha
  rw [heq] at hremove
  cases hremove
  obtain ⟨endpoint, hclient⟩ := h.connection a fd parser ha
  refine ⟨?_, le_rfl, fun _ _ => rfl⟩
  rw [SocketSwitch.step, socketConnectionNodeRemove, hclient]
  exact h.change ha hclient (fun b hb => if_neg hb) (if_pos rfl)

/-- The operation of a connection is its read or its end. -/
theorem socketConnectionNodeOperate_entered {answers : Fd → SocketAnswer} (hs : s.Invariant)
    (h : s.Entered switch entry) (ha : s.nodes a = some ⟨fd, .connection parser⟩)
    (hoperate : socketConnectionNodeOperate platform host a parser (answers fd) s = .ok s') :
    ∃ events entry', s.Matched answers entry (fd, a) events ∧
      s'.Entered (switch.run platform events) entry' ∧ s.KeepsEntries s' entry entry' := by
  rw [socketConnectionNodeOperate] at hoperate
  split at hoperate
  · rename_i hread
    refine ⟨_, entry, .hangUp a fd parser ha ?_,
      socketSwitchRemove_entered platform hs h ha hoperate⟩
    intro memory count hsome
    rw [hread] at hsome
    cases hsome
  · rename_i memory count hread
    split at hoperate
    · rename_i hcount
      refine ⟨_, entry, .hangUp a fd parser ha ?_,
        socketSwitchRemove_entered platform hs h ha hoperate⟩
      intro memory' count' hsome
      rw [hread] at hsome
      cases hsome
      exact hcount
    · rename_i hcount
      obtain ⟨outcomes, entry', hentered, hkeeps⟩ := parserFeed_entered hs h ha hoperate
      exact ⟨_, entry', .read a fd parser memory count outcomes ha hread hcount, hentered, hkeeps⟩

/-- The operation of an endpoint accepts a connection in the switch, or nothing. -/
theorem socketEndpointNodeOperate_entered {answers : Fd → SocketAnswer} (hs : s.Invariant)
    (h : s.Entered switch entry) {capabilities : Capset}
    (ha : s.nodes a = some ⟨fd, .endpoint capabilities⟩)
    (hoperate : socketEndpointNodeOperate capabilities (answers fd) s = .ok s') :
    ∃ events entry', s.Matched answers entry (fd, a) events ∧
      s'.Entered (switch.run platform events) entry' ∧ s.KeepsEntries s' entry entry' := by
  rcases socketEndpointNodeOperate_cases capabilities (answers fd) s with
    heq | ⟨fd', hlt, hfree, heq⟩
  · rw [heq] at hoperate
    cases hoperate
    exact ⟨[], entry, .refuse a fd capabilities ha, h, .refl ..⟩
  · have hp := placed_connect s fd' (connectionParser capabilities)
    obtain ⟨snodes, activeset, hinsert, -⟩ := socketSwitchInsert_ok hs hp hlt hfree rfl
      (connectionParser_authorized (hs.authorized a _ ha))
    rw [heq, hinsert] at hoperate
    cases hoperate
    obtain ⟨creator, hendpoint⟩ := h.endpoint a fd capabilities ha
    refine ⟨_, _, .accept a fd capabilities ha, ?_,
      keepsEntries_update hp.nextNode switch.connections.length⟩
    change Entered _ (Cyberd.socketEndpointNodeOperate switch (entry a)) _
    rw [Cyberd.socketEndpointNodeOperate, hendpoint]
    exact (h.connect hs hp.nodes (entry a)).congr rfl

/-- The operation of the node of a descriptor is one of the switch. -/
theorem socketNodeOperate_entered {answers : Fd → SocketAnswer} {node : SocketNode}
    (hs : s.Invariant) (h : s.Entered switch entry) (ha : s.nodes a = some node)
    (hoperate : socketNodeOperate platform host answers node.fd s = .ok s') :
    ∃ events entry', s.Matched answers entry (node.fd, a) events ∧
      s'.Entered (switch.run platform events) entry' ∧ s.KeepsEntries s' entry entry' := by
  have hinv : Invariant { s with operated := s.operated ++ [(node.fd, a)] } :=
    hs.congr hs.world rfl rfl rfl rfl rfl
  have hentered : Entered { s with operated := s.operated ++ [(node.fd, a)] } switch entry :=
    h.congr rfl
  rw [socketNodeOperate, hs.find ha, except_bind_ok] at hoperate
  simp only [readNode_ok ha, except_bind_ok] at hoperate
  obtain ⟨fd, nodeClass⟩ := node
  cases nodeClass with
  | endpoint capabilities =>
    obtain ⟨events, entry', hm, hrest⟩ :=
      socketEndpointNodeOperate_entered hinv hentered ha hoperate
    exact ⟨events, entry', hm.congr rfl rfl, hrest⟩
  | connection parser =>
    obtain ⟨events, entry', hm, hrest⟩ :=
      socketConnectionNodeOperate_entered hinv hentered ha hoperate
    exact ⟨events, entry', hm.congr rfl rfl, hrest⟩

/-- The loop of `socket_switch_operate` operates the nodes of the state it begins with. -/
theorem socketSwitchOperateFrom_entered {s₀ : Server} {entry₀ : Addr → Nat}
    {answers : Fd → SocketAnswer} (hs₀ : s₀.Invariant) {fds : List Fd} (hnodup : fds.Nodup)
    (nfds : Nat) (hs : s.Invariant) (hleft : Left s₀ s fds) (h : s.Entered switch entry)
    (hentry : s₀.KeepsEntries s entry₀ entry)
    (hoperate : socketSwitchOperateFrom platform host answers fds nfds s = .ok s') :
    ∃ visits operations entry', s'.operated = s.operated ++ visits ∧
      List.Forall₂ (s₀.Matched answers entry₀) visits operations ∧
      s'.Entered (switch.run platform operations.flatten) entry' := by
  induction fds generalizing nfds s switch entry with
  | nil =>
    cases hoperate
    exact ⟨[], [], entry, (List.append_nil _).symm, .nil, h⟩
  | cons fd fds ih =>
    obtain ⟨hfd, hnodup'⟩ := List.nodup_cons.mp hnodup
    have hrest : Left s₀ s fds := fun fd hmem => hleft fd (List.mem_cons_of_mem _ hmem)
    rw [socketSwitchOperateFrom] at hoperate
    split at hoperate
    · cases hoperate
      exact ⟨[], [], entry, (List.append_nil _).symm, .nil, h⟩
    split at hoperate
    · rename_i hready
      obtain ⟨a, node, ha₀, rfl, ha⟩ := hleft fd List.mem_cons_self hready
      have hnode := @socketNodeOperate_ok _ _ _ host platform hs ha answers
      cases hfirst : socketNodeOperate platform host answers node.fd s with
      | error trap =>
        rw [hfirst] at hoperate
        cases hoperate
      | ok s₁ =>
        rw [hfirst] at hnode hoperate
        obtain ⟨hinv, hchanges⟩ := hnode
        obtain ⟨-, hoperated⟩ := changes_selected hchanges
        obtain ⟨events, entry₁, hm, hentered, hkeeps⟩ := socketNodeOperate_entered hs h ha hfirst
        obtain ⟨visits, operations, entry', hvisits, hall, hentered'⟩ :=
          ih hnodup' (nfds - 1) hinv (hleft.rest hfd ha hchanges) hentered (hentry.trans hkeeps)
            hoperate
        refine ⟨(node.fd, a) :: visits, events :: operations, entry', ?_, .cons ?_ hall, ?_⟩
        · rw [hvisits, hoperated, List.append_assoc]
          rfl
        · have hsame : entry₀ a = entry a := (hentry.2 a (hs₀.fresh a node ha₀)).symm
          exact hm.congr (ha₀.trans ha.symm) hsame
        · rw [List.flatten_cons, SocketSwitch.run_append]
          exact hentered'
    · exact ih hnodup' nfds hs hrest h hentry hoperate

/-- A round operates the nodes that are there when it begins. -/
theorem round_entered {ready : Fd → Bool} {answers : Fd → SocketAnswer} (hs : s.Invariant)
    (h : s.Entered switch entry) (hround : s.round platform host ready answers = .ok s') :
    ∃ visits operations entry', s'.operated = s.operated ++ visits ∧
      List.Forall₂ (s.Matched answers entry) visits operations ∧
      s'.Entered (switch.run platform operations.flatten) entry' := by
  obtain ⟨readset, hsub, heq⟩ := @round_eq s host platform answers hs ready
  rw [heq] at hround
  have hinv : Invariant { s with readset := readset } := hs.congr hs.world rfl rfl rfl rfl rfl
  have hleft := hs.left (fun fd hselected => (hsub fd hselected).1) (List.range fdSetSize)
  have hentered : Entered { s with readset := readset } switch entry := h.congr rfl
  exact @socketSwitchOperateFrom_entered { s with readset := readset } s' switch entry host
    platform s entry answers hs _ List.nodup_range _ hinv hleft hentered
    ⟨le_rfl, fun _ _ => rfl⟩ hround

/-- Children are forked without a node. -/
theorem Forks.entered {given : Descriptors → Prop} (h : s.Entered switch entry)
    (hforks : s.Forks given s') : s'.Entered switch entry := by
  obtain ⟨w, new, rfl, -⟩ := hforks
  exact h.congr rfl

/-- The nodes of a sound state, in a run of the switch, are confined. -/
theorem Entered.confines {events : List SocketEvent} (hs : s.Invariant)
    (h : s.Entered (Cyberd.socketSwitchSetup.run platform events) entry) :
    s.Confines platform host events entry := by
  have hinv := SocketSwitch.run_invariant platform socketSwitchSetup_invariant events
  refine ⟨h, hinv.confined platform, fun ready answers s' hround => ?_⟩
  obtain ⟨visits, operations, entry', hvisits, hall, hentered⟩ := round_entered hs h hround
  refine ⟨visits, operations, entry', hvisits, hall, ?_⟩
  rw [SocketSwitch.run_append]
  exact hentered

/-- There is no node before the root endpoint. -/
theorem start_entered (boot : ServerBoot) (endpoints : List SocketEndpointNode)
    (entry : Addr → Nat) : (start boot).Entered ⟨endpoints, [], []⟩ entry := by
  constructor
  · rintro a fd capabilities ⟨⟩
  · rintro a fd parser ⟨⟩
  · rintro a b fd fd' parser parser' ⟨⟩
  · intro i client hi
    rw [List.getElem?_nil] at hi
    cases hi

/-- The root endpoint, if it can be created, is the first one of the switch. -/
theorem socketSwitchSetup_entered (boot : ServerBoot)
    (hsetup : (openlog boot).socketSwitchSetup boot.path boot.root boot.mkdir boot.create =
      .ok s) : ∃ entry, s.Entered Cyberd.socketSwitchSetup entry := by
  have hstart := start_invariant boot
  have hroot := start_entered boot [⟨capsetAll, none⟩] fun _ => 0
  unfold socketSwitchSetup at hsetup
  simp only at hsetup
  split at hsetup
  · cases hsetup
    exact ⟨_, hroot⟩
  rcases socketEndpointNodeCreate_nodes hstart boot.create boot.root (.refl capsetAll) with
    ⟨s₁, heq, hnodes, -⟩ | ⟨snode, s₁, s', fd, heq, hinsert, -, hnodes⟩
  · rw [start] at heq
    simp only [heq] at hsetup
    cases hsetup
    exact ⟨_, hroot.congr hnodes⟩
  · rw [start] at heq
    simp only [heq, hinsert] at hsetup
    cases hsetup
    have hcreated := (start_entered boot [] fun _ => 0).establish hstart hnodes none
    exact ⟨_, hcreated⟩

/-- After the first load, the nodes are those of the switch. -/
theorem setup_entered (boot : ServerBoot) (hsetup : setup host boot = .ok s) :
    ∃ entry, s.Entered Cyberd.socketSwitchSetup entry := by
  obtain ⟨s₀, hs₀, -⟩ := socketSwitchSetup_ok boot
  obtain ⟨entry, hentered⟩ := socketSwitchSetup_entered boot hs₀
  rw [setup, hs₀, except_bind_ok] at hsetup
  have hfollows := @configurationLoad_follows host boot.load s₀ boot.boot.dirp
  rw [hsetup] at hfollows
  obtain ⟨w, -, -, hforks⟩ := hfollows.of_ok
  exact ⟨entry, hforks.entered hentered⟩

/-- Every event goes on with operations of the switch. -/
theorem step_entered (hs : s.Invariant) (h : s.Entered switch entry) (event : ServerEvent)
    (hstep : s.step platform host event = .ok s') :
    ∃ events entry', s'.Entered (switch.run platform events) entry' := by
  -- an event of the daemons changes no node
  have hrecord : ∀ event, (do
      let w ← s.world.step host event
      return s.record w : Except Trap Server) = .ok s' → s'.Entered switch entry := by
    intro event hok
    cases hworld : s.world.step host event with
    | error trap =>
      rw [hworld] at hok
      cases hok
    | ok w =>
      rw [hworld] at hok
      cases hok
      exact (forks_step hworld).entered h
  cases event with
  | round ready answers =>
    obtain ⟨visits, operations, entry', -, -, hentered⟩ := round_entered hs h hstep
    exact ⟨operations.flatten, entry', hentered⟩
  | reload dirp answer =>
    have hfollows := @configurationReload_follows host answer s dirp
    have hreload : s.configurationReload host dirp answer = .ok s' := hstep
    rw [hreload] at hfollows
    obtain ⟨w, -, -, hforks⟩ := hfollows.of_ok
    exact ⟨[], entry, hforks.entered h⟩
  | reap infos => exact ⟨[], entry, hrecord (.reap infos) hstep⟩
  | adopt pid => exact ⟨[], entry, hrecord (.adopt pid) hstep⟩

/-- As long as the program runs, its nodes are those of a run of the switch. -/
theorem run_entered (platform : Platform) (host : Host) (boot : ServerBoot)
    (events : List ServerEvent) :
    Outcome (fun _ => True)
      (fun s => s.Invariant ∧ ∃ operations entry,
        s.Entered (Cyberd.socketSwitchSetup.run platform operations) entry)
      (run platform host boot events) := by
  apply ((setup_ok host boot).result.mono (fun _ hs => hs) fun _ _ => trivial).bind
  rintro s₀ ⟨hsetup, hinv₀, -⟩
  obtain ⟨entry₀, hentered₀⟩ := setup_entered boot hsetup
  apply Outcome.foldlM (fun (_ : List ServerEvent) (s : Server) => s.Invariant ∧
    ∃ operations entry, s.Entered (Cyberd.socketSwitchSetup.run platform operations) entry)
    ⟨hinv₀, [], entry₀, hentered₀⟩
  rintro - event - s - ⟨hinv, operations, entry, hentered⟩
  apply (step_ok hinv event).result.mono _ fun _ _ => trivial
  rintro s' ⟨hstep, hinv', -⟩
  obtain ⟨operations', entry', hentered'⟩ := step_entered hinv hentered event hstep
  refine ⟨hinv', operations ++ operations', entry', ?_⟩
  rw [SocketSwitch.run_append]
  exact hentered'

/-- In every run of the program, the nodes are those of a run of the switch, whose capabilities
are confined and which goes on with what the next round operates. -/
theorem confined_over_runs (platform : Platform) (host : Host) (boot : ServerBoot)
    (events : List ServerEvent) :
    Outcome (Halts platform host boot events)
      (fun s => ∃ operations entry, s.Confines platform host operations entry)
      (run platform host boot events) := by
  apply ((run_ok platform host boot events).and (run_entered platform host boot events)).mono _
    fun _ ht => ht
  rintro s ⟨⟨hinv, -⟩, -, operations, entry, hentered⟩
  exact ⟨operations, entry, hentered.confines hinv⟩

end Server

end Cyberd
