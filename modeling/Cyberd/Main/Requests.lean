import Cyberd.Daemon.Operations
import Cyberd.Library.Schedules
import Cyberd.Main.Program
import Cyberd.Server.Runs

/-!
# What a round does to the daemons, and the reboots it queues

The functions of the switch only operate on the daemons and on the processes through the
commands of the connections. A round with the reboots that it queues is the round of the
switch, and a connection only queues the reboots that it has the capability of.
-/

namespace Cyberd

open Library

namespace Server

-- The loop over all of the descriptors is not to be unrolled.
attribute [local irreducible] fdSetSize

/-- Some ready connection of the switch queues the reboot in its read, and has the capability
of it. -/
def Grants (platform : Platform) (ready : Fd → Bool) (answers : Fd → SocketAnswer) (s : Server)
    (howto : Howto) : Prop :=
  ∃ a fd parser, s.nodes a = some ⟨fd, .connection parser⟩ ∧ ready fd = true ∧
    howto ∈ SocketNode.reboots platform (answers fd) ⟨fd, .connection parser⟩ ∧
    capsetHas parser.capabilities howto.capability = true

variable {s s' s₀ : Server} {a : Addr} {host : Host} {platform : Platform}
variable {answers : Fd → SocketAnswer}

/-- `socket_switch_insert` leaves the daemons and the processes as they are. -/
theorem socketSwitchInsert_world (h : socketSwitchInsert a s = .ok s') : s'.world = s.world := by
  simp only [socketSwitchInsert, except_bind_eq_ok] at h
  obtain ⟨snode, _, activeset, _, _, _, snodes, _, h⟩ := h
  cases h
  rfl

/-- So does the destruction of a node. -/
theorem socketNodeDestroy_world (h : socketNodeDestroy a s = .ok s') : s'.world = s.world := by
  simp only [socketNodeDestroy, except_bind_eq_ok] at h
  obtain ⟨snode, _, h⟩ := h
  split at h
  · cases h
    rw [socketEndpointNodeDestroy]
    split <;> rfl
  · cases h
    rfl

/-- `socket_switch_teardown` destroys nodes one after the other. -/
theorem socketSwitchTeardown_world (h : socketSwitchTeardown s = .ok s') : s'.world = s.world := by
  rw [socketSwitchTeardown, treeMutate_eq] at h
  apply kept_by_run (fun t => t.world = s.world) _ h rfl
  exact fun t a t' ht hworld => (socketNodeDestroy_world ht).trans hworld

/-- `socket_switch_remove` leaves the daemons and the processes as they are. -/
theorem socketSwitchRemove_world (h : socketSwitchRemove a s = .ok s') : s'.world = s.world := by
  simp only [socketSwitchRemove, except_bind_eq_ok] at h
  obtain ⟨snode, _, _, _, removal, _, h⟩ := h
  split at h
  · cases h
  · obtain ⟨activeset, _, h⟩ := except_bind_eq_ok.mp h
    have hworld := socketNodeDestroy_world h
    exact hworld

/-- `socket_endpoint_node_create` leaves the daemons and the processes as they are. -/
theorem socketEndpointNodeCreate_world (answer : CreateAnswer) (name : Name)
    (capabilities : Capset) (s : Server) :
    (socketEndpointNodeCreate answer name capabilities s).2.world = s.world := by
  rcases socketEndpointNodeCreate_cases answer name capabilities s with
    ⟨-, heq⟩ | ⟨-, heq⟩ | ⟨-, -, fd, -, heq⟩
  · rw [heq]
  · rw [heq]
    rfl
  · rw [heq]
    rfl

/-- An action of a parser operates on the daemons and on the processes. -/
theorem perform_operates {t t' : List CreateAnswer × Server} {action : Action}
    (h : perform host t action = .ok t') : t.2.world.Operates t'.2.world := by
  cases action with
  | endpointCreate name capabilities =>
    have hworld := socketEndpointNodeCreate_world (t.1.headD ⟨false, none, false, false⟩) name
      capabilities t.2
    rw [perform] at h
    split at h
    · rename_i s heq
      cases h
      rw [heq] at hworld
      exact .of_eq (congrArg World.toMachine hworld)
    · rename_i snode s heq
      obtain ⟨s₁, hinsert, h⟩ := except_bind_eq_ok.mp h
      cases h
      rw [heq] at hworld
      exact .of_eq (congrArg World.toMachine ((socketSwitchInsert_world hinsert).trans hworld))
  | daemon action name =>
    rw [perform] at h
    obtain ⟨w, hw, h⟩ := except_bind_eq_ok.mp h
    cases h
    exact command_operates hw
  | queueReboot howto =>
    cases h
    exact .refl _

/-- So do actions one after the other. -/
theorem performAll_operates {actions : List Action} {t t' : List CreateAnswer × Server}
    (h : actions.foldlM (perform host) t = .ok t') : t.2.world.Operates t'.2.world := by
  induction actions generalizing t with
  | nil =>
    cases h
    exact .refl _
  | cons action actions ih =>
    rw [List.foldlM_cons] at h
    obtain ⟨t₁, haction, hrest⟩ := except_bind_eq_ok.mp h
    exact (perform_operates haction).trans (ih hrest)

/-- `parser_feed` performs the actions of the parser. -/
theorem parserFeed_operates {parser : Parser} {memory : List UInt8} {count : Nat}
    {creates : List CreateAnswer}
    (h : parserFeed platform host a parser memory count creates s = .ok s') :
    s.world.Operates s'.world := by
  simp only [parserFeed, except_bind_eq_ok] at h
  obtain ⟨⟨left, s₁⟩, hperform, snode, _, h⟩ := h
  have hoperates := performAll_operates hperform
  split at h
  · cases h
  · cases h
    exact hoperates
  · cases h
    exact hoperates

/-- `socket_endpoint_node_operate` leaves the daemons and the processes as they are. -/
theorem socketEndpointNodeOperate_world {capabilities : Capset} {answer : SocketAnswer}
    (h : socketEndpointNodeOperate capabilities answer s = .ok s') : s'.world = s.world := by
  rcases socketEndpointNodeOperate_cases capabilities answer s with heq | ⟨fd, -, -, heq⟩
  · rw [heq] at h
    cases h
    rfl
  · rw [heq] at h
    rw [socketSwitchInsert_world h]
    rfl

/-- The operation of a node operates on the daemons and on the processes. -/
theorem socketNodeOperate_operates {fd : Fd}
    (h : socketNodeOperate platform host answers fd s = .ok s') : s.world.Operates s'.world := by
  simp only [socketNodeOperate, except_bind_eq_ok] at h
  obtain ⟨found, _, h⟩ := h
  split at h
  · cases h
  · obtain ⟨snode, _, h⟩ := except_bind_eq_ok.mp h
    -- The descriptor that the node was found by is noted before.
    generalize hs₁ : { s with operated := s.operated ++ [(fd, _)] } = s₁ at h
    have hworld : s₁.world = s.world := by rw [← hs₁]
    rw [← hworld]
    split at h
    · exact .of_eq (congrArg World.toMachine (socketEndpointNodeOperate_world h))
    · rw [socketConnectionNodeOperate] at h
      split at h
      · exact .of_eq (congrArg World.toMachine (socketSwitchRemove_world h))
      · split at h
        · exact .of_eq (congrArg World.toMachine (socketSwitchRemove_world h))
        · exact parserFeed_operates h

/-- So does the loop of `socket_switch_operate`. -/
theorem socketSwitchOperateFrom_operates {fds : List Fd} {nfds : Nat}
    (h : socketSwitchOperateFrom platform host answers fds nfds s = .ok s') :
    s.world.Operates s'.world := by
  induction fds generalizing nfds s with
  | nil =>
    cases h
    exact .refl _
  | cons fd fds ih =>
    rw [socketSwitchOperateFrom] at h
    split at h
    · cases h
      exact .refl _
    · split at h
      · obtain ⟨s₁, hoperate, hrest⟩ := except_bind_eq_ok.mp h
        exact (socketNodeOperate_operates hoperate).trans (ih hrest)
      · exact ih h

/-- So does a round. -/
theorem round_operates {ready : Fd → Bool} (h : s.round platform host ready answers = .ok s') :
    s.world.Operates s'.world := by
  simp only [round, except_bind_eq_ok] at h
  obtain ⟨⟨nfds, s₁⟩, hprepare, h⟩ := h
  have hworld : s₁.world = s.world := by
    rw [socketSwitchPrepare] at hprepare
    dsimp only at hprepare
    split at hprepare
    · cases hprepare
      rfl
    · obtain ⟨snode, _, hprepare⟩ := except_bind_eq_ok.mp hprepare
      cases hprepare
      rfl
  rw [socketSwitchOperate] at h
  have hoperates := socketSwitchOperateFrom_operates h
  rw [← hworld]
  exact hoperates

/-- So does a reload. -/
theorem configurationReload_operates {dirp : Option Directory} {answer : OpenAnswer}
    (h : s.configurationReload host dirp answer = .ok s') : s.world.Operates s'.world := by
  have hfollows := @configurationReload_follows host answer s dirp
  rw [h] at hfollows
  obtain ⟨w, hw, hworld, -⟩ := hfollows.of_ok
  rw [hworld]
  exact Cyberd.configurationReload_operates hw

/-- With the reboots that it queues, the loop is the one of the switch. -/
theorem operateRebootsFrom_snd (fds : List Fd) (nfds : Nat) (s : Server) :
    Prod.snd <$> operateRebootsFrom platform host answers fds nfds s =
      socketSwitchOperateFrom platform host answers fds nfds s := by
  induction fds generalizing nfds s with
  | nil => rfl
  | cons fd fds ih =>
    rw [operateRebootsFrom, socketSwitchOperateFrom]
    split
    · rfl
    · split
      · cases socketNodeOperate platform host answers fd s with
        | error trap => rfl
        | ok s₁ =>
          simp only [except_bind_ok, ← ih (nfds - 1) s₁]
          cases operateRebootsFrom platform host answers fds (nfds - 1) s₁ <;> rfl
      · exact ih nfds s

/-- So is the round. -/
theorem roundReboots_snd (ready : Fd → Bool) (s : Server) :
    Prod.snd <$> s.roundReboots platform host ready answers =
      s.round platform host ready answers := by
  rw [roundReboots, round]
  cases s.socketSwitchPrepare with
  | error trap => rfl
  | ok prepared => exact operateRebootsFrom_snd _ _ _

/-- A round that returns queues some reboots. -/
theorem roundReboots_ok {ready : Fd → Bool} {howtos : List Howto}
    (h : s.roundReboots platform host ready answers = .ok (howtos, s')) :
    s.round platform host ready answers = .ok s' := by
  rw [← roundReboots_snd, h]
  rfl

/-- A connection has the capability of what it queues. -/
theorem SocketNode.reboots_granted {node : SocketNode} (hauth : node.nodeClass.Authorized)
    {answer : SocketAnswer} {howto : Howto} (h : howto ∈ node.reboots platform answer) :
    ∃ parser, node.nodeClass = .connection parser ∧
      capsetHas parser.capabilities howto.capability = true := by
  obtain ⟨fd, nodeClass⟩ := node
  cases nodeClass with
  | endpoint capabilities => cases h
  | connection parser =>
    refine ⟨parser, rfl, ?_⟩
    cases hread : answer.read with
    | none =>
      rw [SocketNode.reboots, hread] at h
      cases h
    | some input =>
      obtain ⟨memory, count⟩ := input
      simp only [SocketNode.reboots, hread] at h
      split at h
      · cases h
      · obtain ⟨action, hmem, haction⟩ := List.mem_filterMap.mp h
        obtain ⟨⟨-, -, new, hnew, hall⟩, -⟩ :=
          parserFeedRun_authorized platform ⟨parser, memory, count, 0, []⟩ hauth
        have hactions : (Cyberd.parserFeed platform parser memory count).1.actions = new := hnew
        rw [hactions] at hmem
        have hhas := (hall action hmem).has
        cases action with
        | queueReboot howto' =>
          cases haction
          exact hhas
        | endpointCreate | daemon => cases haction

/-- What the loop queues was granted to connections that were there before the round. -/
theorem operateRebootsFrom_ok {fds : List Fd} {ready : Fd → Bool} (hnodup : fds.Nodup)
    (nfds : Nat) (h : s.Invariant) (hcount : (fds.filter s.readset).length ≤ nfds)
    (hleft : Left s₀ s fds) (hselects : ∀ fd, s.readset fd = true → ready fd = true) :
    Outcome (fun _ => True) (fun r => ∀ howto ∈ r.1, s₀.Grants platform ready answers howto)
      (operateRebootsFrom platform host answers fds nfds s) := by
  induction fds generalizing nfds s with
  | nil => exact fun howto hmem => by cases hmem
  | cons fd fds ih =>
    obtain ⟨hfd, hnodup'⟩ := List.nodup_cons.mp hnodup
    rw [operateRebootsFrom]
    split
    · exact fun howto hmem => by cases hmem
    · by_cases hready : s.readset fd = true
      · rw [if_pos hready]
        rw [List.filter_cons_of_pos hready, List.length_cons] at hcount
        obtain ⟨a, node, ha₀, rfl, ha⟩ := hleft fd List.mem_cons_self hready
        have hoperate := @socketNodeOperate_ok _ _ _ host platform h ha answers
        refine (hoperate.mono (fun _ ht => ht) fun _ _ => trivial).bind fun s₁ hs₁ => ?_
        obtain ⟨hinv, hchanges⟩ := hs₁
        obtain ⟨hreadset, -⟩ := changes_selected hchanges
        have hrest : Left s₀ s₁ fds := hleft.rest hfd ha hchanges
        have hcount' : (fds.filter s₁.readset).length ≤ nfds - 1 := by
          rw [hreadset]
          exact Nat.le_sub_of_add_le hcount
        refine (ih hnodup' (nfds - 1) hinv hcount' hrest (by rw [hreadset]; exact hselects)).bind
          fun r hr howto hmem => ?_
        rcases List.mem_append.mp hmem with hmem | hmem
        · have hfind := h.find ha
          rw [socketSwitchFind, h.readNodes, except_bind_ok] at hfind
          have hfound : treeFind compareBySub s.nodeFd node.fd s.snodes = some a :=
            Except.ok.inj hfind
          simp only [reboots, hfound, ha] at hmem
          obtain ⟨parser, hclass, hhas⟩ := SocketNode.reboots_granted (h.authorized a node ha) hmem
          refine ⟨a, node.fd, parser, by rw [ha₀, ← hclass], hselects _ hready, ?_, hhas⟩
          rwa [← hclass]
        · exact hr howto hmem
      · rw [if_neg hready]
        rw [List.filter_cons_of_neg hready] at hcount
        exact ih hnodup' nfds h hcount (fun fd hmem => hleft fd (List.mem_cons_of_mem _ hmem))
          hselects

/-- What a round queues was granted to connections of the switch. -/
theorem roundReboots_granted (h : s.Invariant) {ready : Fd → Bool} {howtos : List Howto}
    (hround : s.roundReboots platform host ready answers = .ok (howtos, s')) :
    ∀ howto ∈ howtos, s.Grants platform ready answers howto := by
  obtain ⟨nfds, hprepare, -⟩ := socketSwitchPrepare_ok h
  obtain ⟨readset, hsub, hselect⟩ := pselect_ok { s with readset := s.activeset } nfds ready
  rw [roundReboots, hprepare, except_bind_ok] at hround
  simp only [hselect] at hround
  have hinv : Invariant { s with readset := readset } := h.congr h.world rfl rfl rfl rfl rfl
  have hleft := h.left (fun fd hselected => (hsub fd hselected).1) (List.range fdSetSize)
  have hgranted := @operateRebootsFrom_ok _ s host platform answers _ ready List.nodup_range _ hinv
    le_rfl hleft fun fd hselected => (hsub fd hselected).2
  rw [hround] at hgranted
  exact hgranted

end Server

end Cyberd
