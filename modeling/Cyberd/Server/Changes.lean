import Cyberd.Server.Invariant

/-!
# What an operation changes

The operation of a node goes through a few kinds of changes only, and keeps the invariant of
the switch. It only stops when the parser of a connection leaves the memory of its read.
-/

namespace Cyberd

open Library

/-- The node is a connection, and its parser leaves the memory of the read. -/
def SocketNode.Overruns (platform : Platform) (answer : SocketAnswer) (node : SocketNode)
    (trap : Trap) : Prop :=
  trap = .outOfBounds ∧ ∃ parser memory count, node.nodeClass = .connection parser ∧
    answer.read = some (memory, count) ∧
    (parserFeed platform parser memory count).2 = .trapped .outOfBounds

namespace Server

/-- A creation reaches `bind(2)`. -/
def ReachesBind (s : Server) (answer : CreateAnswer) (name : Name) : Prop :=
  answer.malloc = true ∧ (s.takeSocket answer.socket).isSome ∧
    (endpointPath s.socketEndpointsPath name).length < sockaddrUnMaxlen

/-- The path is unlinked after its `bind(2)` or `listen(2)` has failed. -/
def refuse (s : Server) (path : Name) : Server :=
  { s.unlink path with binds := s.binds ++ [⟨path, s.pathExists path⟩] }

/-- An endpoint is bound, and its node is allocated. -/
def establish (s : Server) (fd : Fd) (path : Name) (capabilities : Capset) : Server :=
  mallocNode
    { s with
      fds := s.fds.install fd ⟨.socket (some path), true⟩
      paths := s.resolve path :: s.paths
      binds := s.binds ++ [⟨path, false⟩] }
    ⟨fd, .endpoint capabilities⟩

/-- A connection is accepted, and its node is allocated. -/
def connect (s : Server) (fd : Fd) (parser : Parser) : Server :=
  (s.install fd ⟨.connection, true⟩).mallocNode ⟨fd, .connection parser⟩

/-- A child may be given the open descriptors, or those of a configuration that is read and
of its directory with them. -/
def Gives (s : Server) (fds : Descriptors) : Prop :=
  fds = s.fds ∨ ∃ dirfd fd name, s.fds dirfd = none ∧ fds =
    (s.fds.install dirfd ⟨.directory, true⟩).install fd ⟨.configuration name, false⟩

/-- The daemons and the processes change, and children are forked with such descriptors. -/
def Forks (given : Descriptors → Prop) (s s' : Server) : Prop :=
  ∃ w new, s' = { s with world := w, inherited := s.inherited ++ new } ∧
    w.forks = s.world.forks ++ new.map Inheritance.fork ∧
    ∀ inheritance ∈ new, given inheritance.fds

/-- The kinds of changes that the operation of a node goes through. -/
inductive Change (a : Addr) (s : Server) : Server → Prop
  /-- A path could not be bound or listened to. -/
  | refused (path : Name) : Change a s (s.refuse path)
  /-- An endpoint is inserted. -/
  | created (fd : Fd) (path : Name) (capabilities : Capset) (snodes : TreeNode Addr)
      (activeset : Fd → Bool) (hfree : s.fds fd = none) (hpath : s.resolve path ∉ s.paths) :
      Change a s { s.establish fd path capabilities with
        snodes := snodes, activeset := activeset }
  /-- A connection is inserted. -/
  | accepted (fd : Fd) (parser : Parser) (snodes : TreeNode Addr) (activeset : Fd → Bool)
      (hfree : s.fds fd = none) :
      Change a s { s.connect fd parser with snodes := snodes, activeset := activeset }
  /-- The node is a connection that is removed. -/
  | removed (fd : Fd) (parser : Parser) (snodes : TreeNode Addr) (activeset : Fd → Bool)
      (ha : s.nodes a = some ⟨fd, .connection parser⟩) :
      Change a s { (s.close fd).freeNode a with snodes := snodes, activeset := activeset }
  /-- The node is a connection whose parser has read. -/
  | parsed (fd : Fd) (parser parser' : Parser) (ha : s.nodes a = some ⟨fd, .connection parser⟩) :
      Change a s (s.writeNode a ⟨fd, .connection parser'⟩)
  /-- The daemons and the processes change, and children are forked. -/
  | forked (s' : Server) (hforks : s.Forks s.Gives s') : Change a s s'

/-- Some changes of sound states, one after the other. -/
abbrev Changes (a : Addr) : Server → Server → Prop :=
  Relation.ReflTransGen fun s s' => s.Invariant ∧ Change a s s'

/-- What an operation, or the selection of descriptors, changes. -/
inductive Move (s : Server) : Server → Prop
  /-- A node is operated. -/
  | change (a : Addr) (s' : Server) (h : Change a s s') : Move s s'
  /-- Descriptors are selected, or the operation of a node begins. -/
  | select (readset : Fd → Bool) (operated : List (Fd × Addr)) :
      Move s { s with readset := readset, operated := operated }

/-- Some moves of sound states, one after the other. -/
abbrev Moves : Server → Server → Prop := Relation.ReflTransGen fun s s' => s.Invariant ∧ Move s s'

variable {s s' s'' : Server} {a b : Addr} {fd : Fd} {node : SocketNode}
variable {host : Host} {platform : Platform}

/-- A socket takes a descriptor that is not open. -/
theorem takeSocket_some {answer : Option Fd} (h : s.takeSocket answer = some fd) :
    fd < fdSetSize ∧ s.fds fd = none := by
  obtain ⟨-, hfd⟩ := Option.filter_eq_some_iff.mp h
  exact of_decide_eq_true hfd

/-- Closing what was opened leaves the state as it was. -/
theorem close_install (hfree : s.fds fd = none) (descriptor : Descriptor) :
    (s.install fd descriptor).close fd = s := by
  change { s with fds := (s.fds.install fd descriptor).close fd } = s
  rw [Descriptors.close_install hfree]

/-- `socket_endpoint_node_operate` accepts nothing, or inserts a new connection. -/
theorem socketEndpointNodeOperate_cases (capabilities : Capset) (answer : SocketAnswer)
    (s : Server) :
    socketEndpointNodeOperate capabilities answer s = .ok s ∨
    ∃ fd, fd < fdSetSize ∧ s.fds fd = none ∧
      socketEndpointNodeOperate capabilities answer s =
        socketSwitchInsert s.nextNode (s.connect fd (connectionParser capabilities)) := by
  rw [socketEndpointNodeOperate]
  cases haccept : s.takeSocket answer.accept with
  | none => exact Or.inl rfl
  | some fd =>
    obtain ⟨hlt, hfree⟩ := takeSocket_some haccept
    have hcloexec : (s.install fd ⟨.connection, false⟩).install fd ⟨.connection, true⟩ =
        s.install fd ⟨.connection, true⟩ := by
      change { s with fds := (s.fds.install fd _).install fd _ } = _
      rw [Descriptors.install_install]
      rfl
    simp only [hcloexec, close_install hfree]
    split
    · exact Or.inl rfl
    · split
      · exact Or.inl rfl
      · exact Or.inr ⟨fd, hlt, hfree, rfl⟩

/-- `socket_endpoint_node_create` fails before `bind(2)`, or fails after it, or establishes
an endpoint on a new path. -/
theorem socketEndpointNodeCreate_cases (answer : CreateAnswer) (name : Name)
    (capabilities : Capset) (s : Server) :
    (¬ s.ReachesBind answer name ∧
      socketEndpointNodeCreate answer name capabilities s = (none, s)) ∨
    (s.ReachesBind answer name ∧ socketEndpointNodeCreate answer name capabilities s =
      (none, s.refuse (endpointPath s.socketEndpointsPath name))) ∨
    (s.ReachesBind answer name ∧
      s.resolve (endpointPath s.socketEndpointsPath name) ∉ s.paths ∧
      ∃ fd, s.takeSocket answer.socket = some fd ∧
        socketEndpointNodeCreate answer name capabilities s =
          (some s.nextNode,
            s.establish fd (endpointPath s.socketEndpointsPath name) capabilities)) := by
  unfold socketEndpointNodeCreate
  by_cases hmalloc : answer.malloc = false
  · rw [if_pos hmalloc]
    refine Or.inl ⟨fun hreach => ?_, rfl⟩
    rw [hreach.1] at hmalloc
    cases hmalloc
  rw [if_neg hmalloc]
  cases hsocket : s.takeSocket answer.socket with
  | none =>
    refine Or.inl ⟨fun hreach => ?_, rfl⟩
    have hsome := hreach.2.1
    rw [hsocket] at hsome
    cases hsome
  | some fd =>
    obtain ⟨-, hfree⟩ := takeSocket_some hsocket
    have hpath : (s.install fd ⟨.socket none, true⟩).socketEndpointsPath =
        s.socketEndpointsPath := rfl
    have hexists : (s.install fd ⟨.socket none, true⟩).pathExists = s.pathExists := rfl
    simp only [hpath, hexists]
    generalize hname : endpointPath s.socketEndpointsPath name = path
    by_cases hlong : sockaddrUnMaxlen ≤ path.length
    · rw [if_pos hlong, close_install hfree]
      refine Or.inl ⟨fun hreach => ?_, rfl⟩
      have hshort := hreach.2.2
      rw [hname] at hshort
      exact absurd hlong (Nat.not_le.mpr hshort)
    rw [if_neg hlong]
    right
    have hreach : s.ReachesBind answer name := by
      refine ⟨by simpa using hmalloc, by rw [hsocket]; rfl, ?_⟩
      rw [hname]
      exact Nat.not_le.mp hlong
    by_cases hbind : answer.bind = false ∨ s.pathExists path = true
    · left
      refine ⟨hreach, ?_⟩
      rw [if_pos hbind]
      change (none, { s.refuse path with
        fds := (s.fds.install fd ⟨.socket none, true⟩).close fd }) = _
      rw [Descriptors.close_install hfree]
      rfl
    rw [if_neg hbind]
    have hnew : s.resolve path ∉ s.paths := fun hmem => hbind (Or.inr (decide_eq_true hmem))
    by_cases hlisten : answer.listen = false
    · left
      refine ⟨hreach, ?_⟩
      rw [if_pos hlisten]
      change (none, { s.refuse path with
        fds := ((s.fds.install fd ⟨.socket none, true⟩).install fd
          ⟨.socket (some path), true⟩).close fd
        paths := (s.resolve path :: s.paths).filter fun file => file ≠ s.resolve path }) = _
      rw [Descriptors.install_install, Descriptors.close_install hfree,
        List.filter_cons_of_neg (by simp)]
      rfl
    · right
      refine ⟨hreach, hnew, fd, rfl, ?_⟩
      rw [if_neg hlisten, establish]
      change (some s.nextNode, mallocNode { s with
        fds := (s.fds.install fd ⟨.socket none, true⟩).install fd ⟨.socket (some path), true⟩
        paths := s.resolve path :: s.paths
        binds := s.binds ++ [⟨path, s.pathExists path⟩] } _) = _
      rw [Descriptors.install_install, show s.pathExists path = false from decide_eq_false hnew]

/-- What was not allocated is placed at the next address. -/
theorem placed_mallocNode (s : Server) (descriptor : Descriptor) (node : SocketNode) (s₁ : Server)
    (hworld : s₁.world = s.world) (hfds : s₁.fds = s.fds.install node.fd descriptor)
    (hnodes : s₁.nodes = s.nodes) (hnext : s₁.nextNode = s.nextNode)
    (hsnodes : s₁.snodes = s.snodes) (hactive : s₁.activeset = s.activeset) :
    s.Placed descriptor node (s₁.mallocNode node) := by
  refine ⟨hworld, hfds, fun b => ?_, congrArg (· + 1) hnext, hsnodes, hactive⟩
  change (if b = s₁.nextNode then some node else s₁.nodes b) = _
  rw [hnodes, hnext]

/-- So is an endpoint that is established. -/
theorem placed_establish (s : Server) (fd : Fd) (path : Name) (capabilities : Capset) :
    s.Placed ⟨.socket (some path), true⟩ ⟨fd, .endpoint capabilities⟩
      (s.establish fd path capabilities) :=
  placed_mallocNode s _ _ _ rfl rfl rfl rfl rfl rfl

/-- So is a connection that is accepted. -/
theorem placed_connect (s : Server) (fd : Fd) (parser : Parser) :
    s.Placed ⟨.connection, true⟩ ⟨fd, .connection parser⟩ (s.connect fd parser) :=
  placed_mallocNode s _ _ _ rfl rfl rfl rfl rfl rfl

/-- What an operation keeps of the nodes of the others. -/
def Keeps (s s' : Server) : Prop := ∀ b node, s.nodes b = some node → s'.nodes b = some node

/-- A new address is the one of no node. -/
theorem Invariant.keeps (h : s.Invariant) {descriptor : Descriptor}
    (hp : s.Placed descriptor node s') : s.Keeps s' := by
  intro b node' hb
  rw [hp.nodes, if_neg (h.fresh b node' hb).ne, hb]

/-- A creation that fails leaves the switch sound, and one that succeeds inserts its node. -/
theorem socketEndpointNodeCreate_ok (h : s.Invariant) (a : Addr) (answer : CreateAnswer)
    (name : Name) {capabilities : Capset} (hinc : Capset.Included capabilities capsetAll) :
    (∃ s', socketEndpointNodeCreate answer name capabilities s = (none, s') ∧
      s'.world = s.world ∧ s'.Invariant ∧ Changes a s s' ∧ s.Keeps s') ∨
    ∃ snode s₁ s', socketEndpointNodeCreate answer name capabilities s = (some snode, s₁) ∧
      socketSwitchInsert snode s₁ = .ok s' ∧ s'.world = s.world ∧ s'.Invariant ∧
      Changes a s s' ∧ s.Keeps s' := by
  rcases socketEndpointNodeCreate_cases answer name capabilities s with
    ⟨-, heq⟩ | ⟨-, heq⟩ | ⟨-, hpath, fd, hsocket, heq⟩
  · exact Or.inl ⟨s, heq, rfl, h, .refl, fun _ _ hb => hb⟩
  · have hrefused : (s.refuse (endpointPath s.socketEndpointsPath name)).Invariant :=
      h.congr h.world rfl rfl rfl rfl rfl
    exact Or.inl ⟨_, heq, rfl, hrefused, .single ⟨h, .refused _⟩, fun _ _ hb => hb⟩
  · obtain ⟨hlt, hfree⟩ := takeSocket_some hsocket
    have hp := placed_establish s fd (endpointPath s.socketEndpointsPath name) capabilities
    obtain ⟨snodes, activeset, hinsert, hinv⟩ :=
      socketSwitchInsert_ok h hp hlt hfree ⟨_, rfl⟩ hinc
    have hkeeps := h.keeps hp
    refine Or.inr ⟨_, _, _, heq, hinsert, rfl, hinv, .single ⟨h, ?_⟩, ?_⟩
    · exact .created fd _ capabilities snodes activeset hfree hpath
    · exact fun b node hb => hkeeps b node hb

/-- Nothing but the world changes without a child. -/
theorem Forks.of_world {given : Descriptors → Prop} {w : World} (hw : w.forks = s.world.forks) :
    s.Forks given { s with world := w } := by
  refine ⟨w, [], ?_, ?_, ?_⟩
  · rw [List.append_nil]
  · rw [List.map_nil, List.append_nil, hw]
  · simp

theorem Forks.refl (given : Descriptors → Prop) (s : Server) : s.Forks given s := .of_world rfl

theorem Forks.trans {given : Descriptors → Prop} (h : s.Forks given s')
    (h' : s'.Forks given s'') : s.Forks given s'' := by
  obtain ⟨w, new, rfl, hforks, hgiven⟩ := h
  obtain ⟨w', new', rfl, hforks', hgiven'⟩ := h'
  refine ⟨w', new ++ new', by simp, ?_, ?_⟩
  · rw [hforks', List.map_append, ← List.append_assoc]
    exact congrArg (· ++ _) hforks
  · intro inheritance hmem
    rcases List.mem_append.mp hmem with hmem | hmem
    · exact hgiven inheritance hmem
    · exact hgiven' inheritance hmem

/-- Other descriptors may be described. -/
theorem Forks.mono {given given' : Descriptors → Prop} (h : s.Forks given s')
    (himp : ∀ fds, given fds → given' fds) : s.Forks given' s' := by
  obtain ⟨w, new, rfl, hforks, hgiven⟩ := h
  exact ⟨w, new, rfl, hforks, fun inheritance hmem => himp _ (hgiven inheritance hmem)⟩

/-- Children are given the open descriptors. -/
theorem Forks.record {given : Descriptors → Prop} {w : World} (hw : s.world.Extends w)
    (hgiven : given s.fds) : s.Forks given (s.record w) := by
  refine ⟨w, (w.forks.drop s.world.forks.length).map fun fork => ⟨fork, s.fds⟩, rfl, ?_, ?_⟩
  · rw [List.map_map]
    exact hw.forks_eq.trans (by simp [Function.comp_def])
  · intro inheritance hmem
    obtain ⟨fork, -, rfl⟩ := List.mem_map.mp hmem
    exact hgiven

/-- The children of an event are given the open descriptors. -/
theorem forks_step {w : World} {event : Event} (hw : s.world.step host event = .ok w) :
    s.Forks s.Gives (s.record w) := .record (World.step_extends hw) (Or.inl rfl)

/-- An action of a parser keeps the switch sound, and the nodes that there are. -/
theorem perform_ok (t : List CreateAnswer × Server) (h : t.2.Invariant) (a : Addr)
    {action : Action} (hinc : ∀ c ∈ action.granted, Capset.Included c capsetAll) :
    ∃ t', perform host t action = .ok t' ∧ t'.2.Invariant ∧ Changes a t.2 t'.2 ∧
      t.2.Keeps t'.2 := by
  cases action with
  | endpointCreate name capabilities =>
    have hinc' := hinc capabilities (List.mem_singleton_self _)
    rw [perform]
    rcases socketEndpointNodeCreate_ok h a (t.1.headD ⟨false, none, false, false⟩) name hinc' with
      ⟨s', heq, -, hs'⟩ | ⟨snode, s₁, s', heq, hinsert, -, hs'⟩
    · simp only [heq]
      exact ⟨_, rfl, hs'⟩
    · simp only [heq, hinsert, except_bind_ok, except_pure]
      exact ⟨_, rfl, hs'⟩
  | daemon action name =>
    obtain ⟨w', hw', hinv, -⟩ := @command_ok host _ h.world action name
    rw [perform, hw', except_bind_ok]
    exact ⟨_, rfl, h.congr hinv rfl rfl rfl rfl rfl, .single ⟨h, .forked _ (forks_step hw')⟩,
      fun _ _ hb => hb⟩
  | queueReboot howto => exact ⟨t, rfl, h, .refl, fun _ _ hb => hb⟩

/-- So do all of the actions of a read. -/
theorem performAll_ok (t : List CreateAnswer × Server) (h : t.2.Invariant) (a : Addr)
    {actions : List Action}
    (hinc : ∀ action ∈ actions, ∀ c ∈ action.granted, Capset.Included c capsetAll) :
    ∃ t', actions.foldlM (perform host) t = .ok t' ∧ t'.2.Invariant ∧ Changes a t.2 t'.2 ∧
      t.2.Keeps t'.2 := by
  induction actions generalizing t with
  | nil => exact ⟨t, rfl, h, .refl, fun _ _ hb => hb⟩
  | cons action actions ih =>
    obtain ⟨t₁, hperform, hinv, hchanges, hkeeps⟩ :=
      @perform_ok host t h a action (hinc action List.mem_cons_self)
    obtain ⟨t', hrest, hinv', hchanges', hkeeps'⟩ :=
      ih t₁ hinv fun action hmem => hinc action (List.mem_cons_of_mem _ hmem)
    refine ⟨t', ?_, hinv', hchanges.trans hchanges', fun b node hb => hkeeps' b node ?_⟩
    · rw [List.foldlM_cons, hperform, except_bind_ok, hrest]
    · exact hkeeps b node hb

/-- The only trap of an authorized parser is a read outside of its memory. -/
theorem parserFeedRun_trapped {f : Feed} {trap : Trap} (h : f.parser.Authorized)
    (hend : (parserFeedRun platform f).2 = .trapped trap) : trap = .outOfBounds := by
  induction f using parserFeedRun_induction platform with
  | done f hc =>
    rw [parserFeedRun_done platform hc] at hend
    cases hend
  | trap f t hc hf =>
    rw [parserFeedRun_trap hc hf] at hend
    cases hend
    exact parserFeedStep_error hc h hf
  | step f f' hc hf ih =>
    rw [parserFeedRun_step hc hf] at hend
    exact ih (parserFeedStep_authorized hc h hf).parser hend

/-- `parser_feed` on a connection performs the actions and keeps the parser. -/
theorem parserFeed_ok (h : s.Invariant) {parser : Parser}
    (ha : s.nodes a = some ⟨fd, .connection parser⟩) {memory : List UInt8} {count : Nat}
    {answer : SocketAnswer} (hread : answer.read = some (memory, count)) :
    Outcome (SocketNode.Overruns platform answer ⟨fd, .connection parser⟩)
      (fun s' => s'.Invariant ∧ Changes a s s')
      (parserFeed platform host a parser memory count answer.creates s) := by
  have hauth : parser.Authorized := h.authorized a _ ha
  obtain ⟨⟨hp, hcap, new, hnew, hall⟩, -⟩ :=
    parserFeedRun_authorized platform ⟨parser, memory, count, 0, []⟩ hauth
  have hactions : (Cyberd.parserFeed platform parser memory count).1.actions = new := hnew
  obtain ⟨t', hperform, hinv, hchanges, hkeeps⟩ := @performAll_ok host (answer.creates, s) h a new
    fun action hmem c hc => ((hall action hmem).granted c hc).2.trans hauth.included
  have ha' := hkeeps a _ ha
  simp only [parserFeed, hactions, hperform, except_bind_ok, readNode_ok ha']
  have hstored : Invariant (t'.2.writeNode a ⟨fd, .connection
      (Cyberd.parserFeed platform parser memory count).1.parser⟩) := hinv.writeNode ha' hp
  cases hend : (Cyberd.parserFeed platform parser memory count).2 with
  | returned => exact ⟨hstored, hchanges.tail ⟨hinv, .parsed fd parser _ ha'⟩⟩
  | running => exact ⟨hstored, hchanges.tail ⟨hinv, .parsed fd parser _ ha'⟩⟩
  | trapped trap =>
    have htrap : trap = .outOfBounds := parserFeedRun_trapped hauth hend
    subst htrap
    exact ⟨rfl, parser, memory, count, rfl, hread, hend⟩

/-- `socket_connection_node_operate` removes the connection, or feeds its parser. -/
theorem socketConnectionNodeOperate_ok (h : s.Invariant) {parser : Parser}
    (ha : s.nodes a = some ⟨fd, .connection parser⟩) (answer : SocketAnswer) :
    Outcome (SocketNode.Overruns platform answer ⟨fd, .connection parser⟩)
      (fun s' => s'.Invariant ∧ Changes a s s')
      (socketConnectionNodeOperate platform host a parser answer s) := by
  have hremove : Outcome (SocketNode.Overruns platform answer ⟨fd, .connection parser⟩)
      (fun s' => s'.Invariant ∧ Changes a s s') (socketSwitchRemove a s) := by
    obtain ⟨snodes, activeset, hremove, hinv⟩ := socketSwitchRemove_ok h ha
    rw [hremove]
    exact ⟨hinv, .single ⟨h, .removed fd parser snodes activeset ha⟩⟩
  rw [socketConnectionNodeOperate]
  split
  · exact hremove
  · rename_i memory count hread
    split
    · exact hremove
    · exact parserFeed_ok h ha hread

/-- `socket_endpoint_node_operate` inserts the connection that is accepted, if any. -/
theorem socketEndpointNodeOperate_ok (h : s.Invariant) (a : Addr) {capabilities : Capset}
    (hinc : Capset.Included capabilities capsetAll) (answer : SocketAnswer) :
    ∃ s', socketEndpointNodeOperate capabilities answer s = .ok s' ∧ s'.Invariant ∧
      Changes a s s' := by
  rcases socketEndpointNodeOperate_cases capabilities answer s with heq | ⟨fd, hlt, hfree, heq⟩
  · exact ⟨s, heq, h, .refl⟩
  · obtain ⟨snodes, activeset, hinsert, hinv⟩ :=
      socketSwitchInsert_ok h (placed_connect s fd (connectionParser capabilities)) hlt hfree rfl
        (connectionParser_authorized hinc)
    exact ⟨_, heq.trans hinsert, hinv, .single ⟨h, .accepted fd _ snodes activeset hfree⟩⟩

/-- The node of a descriptor is found and operated. -/
theorem socketNodeOperate_ok (h : s.Invariant) (ha : s.nodes a = some node)
    (answers : Fd → SocketAnswer) :
    Outcome (node.Overruns platform (answers node.fd))
      (fun s' => s'.Invariant ∧
        Changes a { s with operated := s.operated ++ [(node.fd, a)] } s')
      (socketNodeOperate platform host answers node.fd s) := by
  have hinv : Invariant { s with operated := s.operated ++ [(node.fd, a)] } :=
    h.congr h.world rfl rfl rfl rfl rfl
  rw [socketNodeOperate, h.find ha, except_bind_ok]
  simp only [readNode_ok ha, except_bind_ok]
  obtain ⟨fd, nodeClass⟩ := node
  cases nodeClass with
  | endpoint capabilities =>
    obtain ⟨s', hoperate, hs'⟩ :=
      socketEndpointNodeOperate_ok hinv a (h.authorized a _ ha) (answers fd)
    simp only
    rw [hoperate]
    exact hs'
  | connection parser => exact socketConnectionNodeOperate_ok hinv ha (answers fd)

end Server

end Cyberd
