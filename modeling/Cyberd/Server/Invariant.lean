import Cyberd.Daemon.Forks
import Cyberd.Daemon.Signals
import Cyberd.Server.Switch
import Cyberd.Tree.Index

/-!
# The invariant of the switch

The tree of the switch is the index of the allocated nodes by their descriptors, each of
which is open for its node, and the active set is the set of these descriptors. Insertions
and removals are described by their effect on a state of this kind.
-/

namespace Cyberd

open Library

/-- The descriptor is the one of a node of this class. -/
def SocketNodeClass.Fits (nodeClass : SocketNodeClass) (descriptor : Descriptor) : Prop :=
  match nodeClass with
  | .endpoint _ => ∃ path, descriptor = ⟨.socket (some path), true⟩
  | .connection _ => descriptor = ⟨.connection, true⟩

/-- The capabilities of the node are capabilities. -/
def SocketNodeClass.Authorized (nodeClass : SocketNodeClass) : Prop :=
  match nodeClass with
  | .endpoint capabilities => Capset.Included capabilities capsetAll
  | .connection parser => parser.Authorized

/-- The invariant of the program between two operations of the switch. -/
structure Server.Invariant (s : Server) : Prop where
  /-- The daemons and the processes are sound. -/
  world : s.world.Invariant
  /-- Nodes are at addresses that were allocated. -/
  fresh : ∀ a node, s.nodes a = some node → a < s.nextNode
  /-- The tree is ordered by descriptor. -/
  wellFormed : s.snodes.WellFormed compareBySub s.nodeFd
  /-- It holds the allocated nodes. -/
  mem : ∀ a, a ∈ s.snodes.toList ↔ ∃ node, s.nodes a = some node
  /-- The descriptor of a node is open for it. -/
  opened : ∀ a node, s.nodes a = some node → node.fd < fdSetSize ∧
    ∃ descriptor, s.fds node.fd = some descriptor ∧ node.nodeClass.Fits descriptor
  /-- The active set is the set of these descriptors. -/
  active : ∀ fd, s.activeset fd = true ↔ ∃ a node, s.nodes a = some node ∧ node.fd = fd
  /-- No node has more than the capabilities there are. -/
  authorized : ∀ a node, s.nodes a = some node → node.nodeClass.Authorized

namespace Server

/-- A node is placed at the next address, with an open descriptor. -/
structure Placed (s : Server) (descriptor : Descriptor) (node : SocketNode) (s' : Server) :
    Prop where
  /-- The daemons and the processes are the same. -/
  world : s'.world = s.world
  /-- Its descriptor is open. -/
  fds : s'.fds = s.fds.install node.fd descriptor
  /-- The node is allocated. -/
  nodes : ∀ b, s'.nodes b = if b = s.nextNode then some node else s.nodes b
  /-- Addresses are not used again. -/
  nextNode : s'.nextNode = s.nextNode + 1
  /-- It is not in the tree yet. -/
  snodes : s'.snodes = s.snodes
  /-- It is not active yet. -/
  activeset : s'.activeset = s.activeset

variable {s s' : Server} {a b : Addr} {node : SocketNode} {descriptor : Descriptor}

theorem nodeFd_eq (h : s.nodes a = some node) : s.nodeFd a = node.fd := by
  simp [nodeFd, h]

theorem readNode_ok (h : s.nodes a = some node) : s.readNode a = .ok node := by
  rw [readNode, h]

/-- The nodes of the tree are allocated. -/
theorem Invariant.readNodes (h : s.Invariant) : s.readNodes = .ok () :=
  if_pos fun a ha => Option.isSome_iff_exists.mpr ((h.mem a).mp ha)

/-- What the invariant is not about may change. -/
theorem Invariant.congr (h : s.Invariant) (hworld : s'.world.Invariant) (hfds : s'.fds = s.fds)
    (hnodes : s'.nodes = s.nodes) (hnext : s'.nextNode = s.nextNode)
    (hsnodes : s'.snodes = s.snodes) (hactive : s'.activeset = s.activeset) : s'.Invariant := by
  have hindex : s'.nodeFd = s.nodeFd := by
    funext a
    rw [nodeFd, nodeFd, hnodes]
  constructor
  · exact hworld
  · rw [hnodes, hnext]
    exact h.fresh
  · rw [hsnodes, hindex]
    exact h.wellFormed
  · rw [hsnodes, hnodes]
    exact h.mem
  · rw [hnodes, hfds]
    exact h.opened
  · rw [hactive, hnodes]
    exact h.active
  · rw [hnodes]
    exact h.authorized

/-- No two nodes have one descriptor. -/
theorem Invariant.fd_inj (h : s.Invariant) {node' : SocketNode} (ha : s.nodes a = some node)
    (hb : s.nodes b = some node') (hfd : node.fd = node'.fd) : a = b := by
  apply h.wellFormed.eq_of_key ((h.mem a).mpr ⟨node, ha⟩) ((h.mem b).mpr ⟨node', hb⟩)
  rw [nodeFd_eq ha, nodeFd_eq hb, hfd]

/-- A descriptor that is not open is the one of no node. -/
theorem Invariant.fd_ne (h : s.Invariant) {fd : Fd} (hfree : s.fds fd = none)
    (ha : s.nodes a = some node) : node.fd ≠ fd := by
  rintro rfl
  obtain ⟨-, descriptor, hopen, -⟩ := h.opened a node ha
  rw [hfree] at hopen
  cases hopen

/-- A node is found by its descriptor. -/
theorem Invariant.find (h : s.Invariant) (ha : s.nodes a = some node) :
    socketSwitchFind node.fd s = .ok (some a) := by
  have hfind : treeFind compareBySub s.nodeFd node.fd s.snodes = some a := by
    rw [treeFind_key h.wellFormed]
    exact ⟨(h.mem a).mpr ⟨node, ha⟩, nodeFd_eq ha⟩
  rw [socketSwitchFind, h.readNodes, except_bind_ok, hfind]
  rfl

theorem freeNode_some :
    (s.freeNode a).nodes b = some node ↔ b ≠ a ∧ s.nodes b = some node := by
  unfold freeNode
  by_cases hb : b = a <;> simp [hb]

theorem writeNode_some {node' : SocketNode} :
    (s.writeNode a node).nodes b = some node' ↔
      b = a ∧ node' = node ∨ b ≠ a ∧ s.nodes b = some node' := by
  unfold writeNode
  by_cases hb : b = a <;> simp [hb, eq_comm]

/-- The nodes are those that were there, and the one that is placed. -/
theorem Placed.nodes_some (hp : s.Placed descriptor node s') (h : s.Invariant)
    {node' : SocketNode} :
    s'.nodes b = some node' ↔ b = s.nextNode ∧ node' = node ∨ s.nodes b = some node' := by
  rw [hp.nodes]
  by_cases hb : b = s.nextNode
  · have hnone : s.nodes b ≠ some node' := fun hb' => (h.fresh b node' hb').ne hb
    simp [hb, hb ▸ hnone, eq_comm]
  · simp [hb]

/-- The nodes of the tree are still allocated. -/
theorem Placed.readNodes (hp : s.Placed descriptor node s') (h : s.Invariant) :
    s'.readNodes = .ok () := by
  refine if_pos fun b hb => ?_
  rw [hp.snodes] at hb
  obtain ⟨node', hb'⟩ := (h.mem b).mp hb
  rw [(hp.nodes_some h).mpr (Or.inr hb')]
  rfl

/-- The nodes of the tree have the same descriptors. -/
theorem Placed.nodeFd_eq (hp : s.Placed descriptor node s') (h : s.Invariant) :
    ∀ b ∈ s.snodes.toList, s'.nodeFd b = s.nodeFd b := by
  intro b hb
  obtain ⟨node', hb'⟩ := (h.mem b).mp hb
  rw [Server.nodeFd_eq hb', Server.nodeFd_eq ((hp.nodes_some h).mpr (Or.inr hb'))]

/-- `socket_switch_insert` of a node whose descriptor was not open meets no equal one. -/
theorem socketSwitchInsert_ok (h : s.Invariant) (hp : s.Placed descriptor node s')
    (hlt : node.fd < fdSetSize) (hfree : s.fds node.fd = none)
    (hfits : node.nodeClass.Fits descriptor) (hauth : node.nodeClass.Authorized) :
    ∃ snodes activeset,
      socketSwitchInsert s.nextNode s' = .ok { s' with snodes := snodes, activeset := activeset } ∧
        Invariant { s' with snodes := snodes, activeset := activeset } := by
  have hnew : s'.nodes s.nextNode = some node := (hp.nodes_some h).mpr (Or.inl ⟨rfl, rfl⟩)
  obtain ⟨snodes, hins, hwf, hmem⟩ :=
    @treeInsert_key _ _ _ _ _ _ (h.wellFormed.congr (hp.nodeFd_eq h)) s.nextNode fun b hb => by
      obtain ⟨node', hb'⟩ := (h.mem b).mp hb
      rw [nodeFd_eq hnew, hp.nodeFd_eq h b hb, nodeFd_eq hb']
      exact_mod_cast h.fd_ne hfree hb'
  refine ⟨snodes, fun n => n == node.fd || s.activeset n, ?_, ?_⟩
  · rw [socketSwitchInsert, readNode_ok hnew, except_bind_ok, fdSet, if_pos hlt, except_bind_ok,
      hp.readNodes h, except_bind_ok, hp.snodes, hins, hp.activeset]
    rfl
  constructor
  · change s'.world.Invariant
    rw [hp.world]
    exact h.world
  · intro b node' hb
    change b < s'.nextNode
    rw [hp.nextNode]
    rcases (hp.nodes_some h).mp hb with ⟨rfl, -⟩ | hb
    · exact Nat.lt_succ_self _
    · exact Nat.lt_succ_of_lt (h.fresh b node' hb)
  · exact hwf
  · intro b
    rw [hmem, h.mem]
    constructor
    · rintro (rfl | ⟨node', hb⟩)
      · exact ⟨node, hnew⟩
      · exact ⟨node', (hp.nodes_some h).mpr (Or.inr hb)⟩
    · rintro ⟨node', hb⟩
      rcases (hp.nodes_some h).mp hb with ⟨rfl, -⟩ | hb
      · exact Or.inl rfl
      · exact Or.inr ⟨node', hb⟩
  · intro b node' hb
    change _ ∧ ∃ descriptor, s'.fds node'.fd = some descriptor ∧ _
    rw [hp.fds]
    rcases (hp.nodes_some h).mp hb with ⟨-, rfl⟩ | hb
    · exact ⟨hlt, descriptor, if_pos rfl, hfits⟩
    · obtain ⟨hlt', descriptor', hopen, hfits'⟩ := h.opened b node' hb
      refine ⟨hlt', descriptor', ?_, hfits'⟩
      rw [Descriptors.install_apply, if_neg (h.fd_ne hfree hb), hopen]
  · intro fd
    rw [Bool.or_eq_true, beq_iff_eq, h.active]
    constructor
    · rintro (rfl | ⟨b, node', hb, hfd⟩)
      · exact ⟨s.nextNode, node, hnew, rfl⟩
      · exact ⟨b, node', (hp.nodes_some h).mpr (Or.inr hb), hfd⟩
    · rintro ⟨b, node', hb, rfl⟩
      rcases (hp.nodes_some h).mp hb with ⟨-, rfl⟩ | hb
      · exact Or.inl rfl
      · exact Or.inr ⟨b, node', hb, rfl⟩
  · intro b node' hb
    rcases (hp.nodes_some h).mp hb with ⟨-, rfl⟩ | hb
    · exact hauth
    · exact h.authorized b node' hb

/-- `socket_switch_remove` of a connection finds this node, and no other one. -/
theorem socketSwitchRemove_ok (h : s.Invariant) {parser : Parser} {fd : Fd}
    (ha : s.nodes a = some ⟨fd, .connection parser⟩) :
    ∃ snodes activeset,
      socketSwitchRemove a s = .ok { (s.close fd).freeNode a with
        snodes := snodes, activeset := activeset } ∧
      Invariant { (s.close fd).freeNode a with snodes := snodes, activeset := activeset } := by
  obtain ⟨r, hrem, hwf, hfound, hmem⟩ := treeRemove_key h.wellFormed (fd : Int)
  have helement : r.element = some a := by
    rw [hfound]
    exact ⟨(h.mem a).mpr ⟨_, ha⟩, nodeFd_eq ha⟩
  have hlt := (h.opened a _ ha).1
  have hnodes : ∀ {b node'}, ((s.close fd).freeNode a).nodes b = some node' ↔
      b ≠ a ∧ s.nodes b = some node' := freeNode_some
  have hfd : ∀ {b node'}, b ≠ a → s.nodes b = some node' → node'.fd ≠ fd := by
    intro b node' hne hb heq
    exact hne (h.fd_inj hb ha heq)
  have hdestroy : ∀ s' : Server, s'.nodes a = some ⟨fd, .connection parser⟩ →
      socketNodeDestroy a s' = .ok (socketConnectionNodeDestroy a fd s') := by
    intro s' ha'
    rw [socketNodeDestroy, readNode_ok ha']
    rfl
  refine ⟨r.root, fun n => n != fd && s.activeset n, ?_, ?_⟩
  · rw [socketSwitchRemove, readNode_ok ha, except_bind_ok, h.readNodes, except_bind_ok, hrem,
      except_bind_ok, if_neg (by simp [helement]), fdClr, if_pos hlt, except_bind_ok]
    exact hdestroy _ ha
  constructor
  · exact h.world
  · intro b node' hb
    exact h.fresh b node' (hnodes.mp hb).2
  · refine hwf.congr fun b hb => ?_
    obtain ⟨hb, hne⟩ := (hmem b).mp hb
    obtain ⟨node', hb'⟩ := (h.mem b).mp hb
    have hba : b ≠ a := by
      rintro rfl
      exact hne (nodeFd_eq ha)
    rw [nodeFd_eq hb']
    exact nodeFd_eq (hnodes.mpr ⟨hba, hb'⟩)
  · intro b
    rw [hmem, h.mem]
    constructor
    · rintro ⟨⟨node', hb⟩, hne⟩
      refine ⟨node', hnodes.mpr ⟨?_, hb⟩⟩
      rintro rfl
      exact hne (nodeFd_eq ha)
    · rintro ⟨node', hb⟩
      obtain ⟨hba, hb'⟩ := hnodes.mp hb
      refine ⟨⟨node', hb'⟩, ?_⟩
      rw [nodeFd_eq hb']
      exact_mod_cast hfd hba hb'
  · intro b node' hb
    obtain ⟨hba, hb'⟩ := hnodes.mp hb
    obtain ⟨hlt', descriptor', hopen, hfits⟩ := h.opened b node' hb'
    refine ⟨hlt', descriptor', ?_, hfits⟩
    change s.fds.close fd node'.fd = some descriptor'
    rw [Descriptors.close_apply, if_neg (hfd hba hb'), hopen]
  · intro n
    rw [Bool.and_eq_true, bne_iff_ne, h.active]
    constructor
    · rintro ⟨hne, b, node', hb, rfl⟩
      refine ⟨b, node', hnodes.mpr ⟨?_, hb⟩, rfl⟩
      rintro rfl
      rw [ha] at hb
      cases hb
      exact hne rfl
    · rintro ⟨b, node', hb, rfl⟩
      obtain ⟨hba, hb'⟩ := hnodes.mp hb
      exact ⟨hfd hba hb', b, node', hb', rfl⟩
  · intro b node' hb
    exact h.authorized b node' (hnodes.mp hb).2

/-- A parser that keeps its authority is stored. -/
theorem Invariant.writeNode (h : s.Invariant) {parser parser' : Parser} {fd : Fd}
    (ha : s.nodes a = some ⟨fd, .connection parser⟩) (hauth : parser'.Authorized) :
    (s.writeNode a ⟨fd, .connection parser'⟩).Invariant := by
  have hnodes : ∀ {b node'}, (s.writeNode a ⟨fd, .connection parser'⟩).nodes b = some node' ↔
      b = a ∧ node' = ⟨fd, .connection parser'⟩ ∨ b ≠ a ∧ s.nodes b = some node' :=
    writeNode_some
  -- The node at an address is there with the same descriptor.
  have hsame : ∀ {b node'}, (s.writeNode a ⟨fd, .connection parser'⟩).nodes b = some node' →
      ∃ node, s.nodes b = some node ∧ node.fd = node'.fd := by
    intro b node' hb
    rcases hnodes.mp hb with ⟨rfl, rfl⟩ | ⟨-, hb⟩
    · exact ⟨_, ha, rfl⟩
    · exact ⟨node', hb, rfl⟩
  have hkept : ∀ {b node}, s.nodes b = some node →
      ∃ node', (s.writeNode a ⟨fd, .connection parser'⟩).nodes b = some node' ∧
        node'.fd = node.fd := by
    intro b node hb
    by_cases hba : b = a
    · subst hba
      rw [ha] at hb
      cases hb
      exact ⟨_, hnodes.mpr (Or.inl ⟨rfl, rfl⟩), rfl⟩
    · exact ⟨node, hnodes.mpr (Or.inr ⟨hba, hb⟩), rfl⟩
  constructor
  · exact h.world
  · intro b node' hb
    obtain ⟨node, hb', -⟩ := hsame hb
    exact h.fresh b node hb'
  · refine h.wellFormed.congr fun b hb => ?_
    obtain ⟨node, hb'⟩ := (h.mem b).mp hb
    obtain ⟨node', hb'', hfd⟩ := hkept hb'
    rw [nodeFd_eq hb', nodeFd_eq hb'', hfd]
  · intro b
    change b ∈ s.snodes.toList ↔ _
    rw [h.mem]
    constructor
    · rintro ⟨node, hb⟩
      obtain ⟨node', hb', -⟩ := hkept hb
      exact ⟨node', hb'⟩
    · rintro ⟨node', hb⟩
      obtain ⟨node, hb', -⟩ := hsame hb
      exact ⟨node, hb'⟩
  · intro b node' hb
    rcases hnodes.mp hb with ⟨rfl, rfl⟩ | ⟨-, hb⟩
    · obtain ⟨hlt, descriptor, hopen, hfits⟩ := h.opened b _ ha
      exact ⟨hlt, descriptor, hopen, hfits⟩
    · exact h.opened b node' hb
  · intro n
    change s.activeset n = true ↔ _
    rw [h.active]
    constructor
    · rintro ⟨b, node, hb, rfl⟩
      obtain ⟨node', hb', hfd⟩ := hkept hb
      exact ⟨b, node', hb', hfd⟩
    · rintro ⟨b, node', hb, rfl⟩
      obtain ⟨node, hb', hfd⟩ := hsame hb
      exact ⟨b, node, hb', hfd⟩
  · intro b node' hb
    rcases hnodes.mp hb with ⟨-, rfl⟩ | ⟨-, hb⟩
    · exact hauth
    · exact h.authorized b node' hb

end Server

end Cyberd
