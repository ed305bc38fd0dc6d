import Cyberd.Server.Changes

/-!
# Rounds of the main loop

A round operates the descriptors that are ready in the order of their numbers. Whatever
the operations insert and remove, a node that was registered before the round stays so
until it is operated itself.
-/

namespace Cyberd

open Library

namespace Server

-- The loop over all of the descriptors is not to be unrolled.
attribute [local irreducible] fdSetSize

/-- The node of a visit is in the tree, for the descriptor of the visit. -/
def Registered (s : Server) (visit : Fd × Addr) : Prop :=
  visit.2 ∈ s.snodes.toList ∧ ∃ node, s.nodes visit.2 = some node ∧ node.fd = visit.1

/-- The visits of a round are those of the descriptors, each on its registered node. -/
def Visits (s₀ s s' : Server) (fds : List Fd) : Prop :=
  ∃ visits, s'.operated = s.operated ++ visits ∧ visits.map Prod.fst = fds ∧
    ∀ visit ∈ visits, s₀.Registered visit

/-- The state still has the nodes of the descriptors that are left to visit. -/
def Left (s₀ s : Server) (fds : List Fd) : Prop :=
  ∀ fd ∈ fds, s.readset fd = true →
    ∃ a node, s₀.nodes a = some node ∧ node.fd = fd ∧ s.nodes a = some node

/-- A read of a registered connection leaves its memory. -/
def Overruns (platform : Platform) (s : Server) (answers : Fd → SocketAnswer) (trap : Trap) :
    Prop :=
  ∃ a node, s.nodes a = some node ∧ node.Overruns platform (answers node.fd) trap

variable {s s' s₀ : Server} {a b : Addr} {fd : Fd} {node : SocketNode}
variable {host : Host} {platform : Platform} {answers : Fd → SocketAnswer}

/-- The operation of a node changes no other one. -/
theorem Change.keeps (h : Change a s s') (hs : s.Invariant) (hb : s.nodes b = some node)
    (hne : b ≠ a) : s'.nodes b = some node := by
  have hold : b ≠ s.nextNode := (hs.fresh b node hb).ne
  cases h with
  | refused path => exact hb
  | created fd path capabilities snodes activeset hfree hpath => exact (if_neg hold).trans hb
  | accepted fd parser snodes activeset hfree => exact (if_neg hold).trans hb
  | removed fd parser snodes activeset ha => exact (if_neg hne).trans hb
  | parsed fd parser parser' ha => exact (if_neg hne).trans hb
  | forked s' hforks =>
    obtain ⟨w, new, rfl, -⟩ := hforks
    exact hb

/-- It selects no descriptor, and operates no other node. -/
theorem Change.selected (h : Change a s s') :
    s'.readset = s.readset ∧ s'.operated = s.operated := by
  cases h with
  | forked s' hforks =>
    obtain ⟨w, new, rfl, -⟩ := hforks
    exact ⟨rfl, rfl⟩
  | _ => exact ⟨rfl, rfl⟩

/-- So do all of its changes. -/
theorem changes_keep (h : Changes a s s') (hb : s.nodes b = some node) (hne : b ≠ a) :
    s'.nodes b = some node := by
  induction h with
  | refl => exact hb
  | tail _ hstep ih => exact hstep.2.keeps hstep.1 ih hne

theorem changes_selected (h : Changes a s s') :
    s'.readset = s.readset ∧ s'.operated = s.operated := by
  induction h with
  | refl => exact ⟨rfl, rfl⟩
  | tail _ hstep ih =>
    obtain ⟨hreadset, hoperated⟩ := hstep.2.selected
    exact ⟨hreadset.trans ih.1, hoperated.trans ih.2⟩

/-- After the operation of the first node, the descriptors that are left have theirs. -/
theorem Left.rest {s₁ : Server} {fds : List Fd} {operated : List (Fd × Addr)}
    (h : Left s₀ s (node.fd :: fds)) (hfd : node.fd ∉ fds) (ha : s.nodes a = some node)
    (hchanges : Changes a { s with operated := operated } s₁) : Left s₀ s₁ fds := by
  intro fd hmem hselected
  rw [(changes_selected hchanges).1] at hselected
  obtain ⟨b, node', hb₀, rfl, hb⟩ := h fd (List.mem_cons_of_mem _ hmem) hselected
  refine ⟨b, node', hb₀, rfl, changes_keep hchanges hb ?_⟩
  rintro rfl
  rw [ha] at hb
  cases hb
  exact hfd hmem

/-- When a part of the active descriptors is selected, all of them have their nodes. -/
theorem Invariant.left (h : s.Invariant) {readset : Fd → Bool}
    (hsub : ∀ fd, readset fd = true → s.activeset fd = true) (fds : List Fd) :
    Left s { s with readset := readset } fds := by
  intro fd _ hselected
  obtain ⟨a, node, ha, hfd⟩ := (h.active fd).mp (hsub fd hselected)
  exact ⟨a, node, ha, hfd, ha⟩

/-- The changes of a node are moves of the program. -/
theorem changes_moves (h : Changes a s s') : Moves s s' :=
  Relation.ReflTransGen.mono (fun _ _ hstep => ⟨hstep.1, .change a _ hstep.2⟩) _ _ h

/-- A selection is a move of the program. -/
theorem moves_select (h : s.Invariant) (readset : Fd → Bool) (operated : List (Fd × Addr)) :
    Moves s { s with readset := readset, operated := operated } :=
  .single ⟨h, .select readset operated⟩

/-- `socket_switch_prepare` selects the descriptors of the nodes, which `nfds` exceeds. -/
theorem socketSwitchPrepare_ok (h : s.Invariant) :
    ∃ nfds, s.socketSwitchPrepare = .ok (nfds, { s with readset := s.activeset }) ∧
      ∀ a node, s.nodes a = some node → node.fd < nfds := by
  unfold socketSwitchPrepare
  cases hlast : treeLast s.snodes with
  | none =>
    refine ⟨0, by simp only [hlast]; rfl, fun a node ha => ?_⟩
    have hmem := (h.mem a).mpr ⟨node, ha⟩
    rw [treeLast_none hlast] at hmem
    cases hmem
  | some a =>
    obtain ⟨hmem, hgreatest⟩ := treeLast_some h.wellFormed hlast
    obtain ⟨last, ha⟩ := (h.mem a).mp hmem
    have hread : readNode { s with readset := s.activeset } a = .ok last := readNode_ok ha
    refine ⟨last.fd + 1, by simp only [hlast, hread]; rfl, fun b node hb => ?_⟩
    apply Nat.lt_succ_of_le
    rcases hgreatest b ((h.mem b).mpr ⟨node, hb⟩) with rfl | hlt
    · rw [ha] at hb
      cases hb
      exact le_rfl
    · rw [nodeFd_eq ha, nodeFd_eq hb, compareBySub] at hlt
      omega

/-- The loop of `socket_switch_operate` visits every selected descriptor once, as long as
there are as many as it was told. -/
theorem socketSwitchOperateFrom_ok (hs₀ : s₀.Invariant) {fds : List Fd} (hnodup : fds.Nodup)
    (nfds : Nat) (h : s.Invariant) (hcount : (fds.filter s.readset).length ≤ nfds)
    (hleft : Left s₀ s fds) :
    Outcome (s₀.Overruns platform answers)
      (fun s' => s'.Invariant ∧ Moves s s' ∧ Visits s₀ s s' (fds.filter s.readset))
      (socketSwitchOperateFrom platform host answers fds nfds s) := by
  induction fds generalizing nfds s with
  | nil => exact ⟨h, .refl, [], by simp⟩
  | cons fd fds ih =>
    obtain ⟨hfd, hnodup'⟩ := List.nodup_cons.mp hnodup
    rw [socketSwitchOperateFrom]
    by_cases hready : s.readset fd = true
    · rw [List.filter_cons_of_pos hready] at hcount ⊢
      have hpos : nfds ≠ 0 := by
        rw [List.length_cons] at hcount
        omega
      rw [if_neg hpos, if_pos hready]
      obtain ⟨a, node, ha₀, rfl, ha⟩ := hleft fd List.mem_cons_self hready
      refine Outcome.bind (@socketNodeOperate_ok _ _ _ host platform h ha answers |>.mono
        (fun _ ht => ht) fun trap ht => ⟨a, node, ha₀, ht⟩) fun s₁ ⟨hinv, hchanges⟩ => ?_
      obtain ⟨hreadset, hoperated⟩ := changes_selected hchanges
      have hrest : Left s₀ s₁ fds := hleft.rest hfd ha hchanges
      have hcount' : (fds.filter s₁.readset).length ≤ nfds - 1 := by
        rw [hreadset]
        exact Nat.le_sub_of_add_le hcount
      refine (ih hnodup' (nfds - 1) hinv hcount' hrest).mono ?_ fun _ ht => ht
      rintro s' ⟨hinv', hmoves, visits, hvisits, hfds, hall⟩
      refine ⟨hinv', ?_, (node.fd, a) :: visits, ?_, ?_, ?_⟩
      · have hselect := moves_select h s.readset (s.operated ++ [(node.fd, a)])
        exact (hselect.trans (changes_moves hchanges)).trans hmoves
      · rw [hvisits, hoperated, List.append_assoc]
        rfl
      · rw [List.map_cons, hfds, hreadset]
      · intro visit hmem
        rcases List.mem_cons.mp hmem with rfl | hmem
        · exact ⟨(hs₀.mem a).mpr ⟨node, ha₀⟩, node, ha₀, rfl⟩
        · exact hall visit hmem
    · rw [List.filter_cons_of_neg hready] at hcount ⊢
      have hrest : Left s₀ s fds := fun fd hmem => hleft fd (List.mem_cons_of_mem _ hmem)
      split
      · rename_i hzero
        rw [hzero, Nat.le_zero, List.length_eq_zero_iff] at hcount
        exact ⟨h, .refl, [], by simp [hcount]⟩
      · exact ih hnodup' nfds h hcount hrest

/-- Whatever part of the active descriptors is selected after a preparation, each of them is
visited. -/
theorem socketSwitchOperate_ok (h : s.Invariant) {readset : Fd → Bool}
    (hsub : ∀ fd, readset fd = true → s.activeset fd = true) {count size : Nat}
    (hle : count ≤ size) :
    Outcome (s.Overruns platform answers)
      (fun s' => s'.Invariant ∧ Moves s s' ∧
        Visits s s s' ((List.range count).filter readset))
      (socketSwitchOperateFrom platform host answers (List.range count)
        ((List.range size).filter readset).length { s with readset := readset }) := by
  have hcount : ((List.range count).filter readset).length ≤
      ((List.range size).filter readset).length :=
    ((List.range_sublist.mpr hle).filter readset).length_le
  have hinv : Invariant { s with readset := readset } := h.congr h.world rfl rfl rfl rfl rfl
  apply (socketSwitchOperateFrom_ok h List.nodup_range _ hinv hcount (h.left hsub _)).mono _
    fun _ ht => ht
  rintro s' ⟨hinv', hmoves, hvisits⟩
  exact ⟨hinv', (moves_select h readset s.operated).trans hmoves, hvisits⟩

/-- The number of descriptors that `pselect(2)` returns is the one of its set. -/
theorem pselect_ok (s : Server) (nfds : Nat) (ready : Fd → Bool) :
    ∃ readset, (∀ fd, readset fd = true → s.readset fd = true ∧ ready fd = true) ∧
      s.pselect nfds ready =
        (((List.range fdSetSize).filter readset).length, { s with readset := readset }) := by
  refine ⟨fun fd => decide (fd < nfds) && s.readset fd && ready fd, fun fd hselected => ?_, rfl⟩
  simp only [Bool.and_eq_true] at hselected
  exact ⟨hselected.1.2, hselected.2⟩

/-- A round operates the part of the active descriptors that is ready. -/
theorem round_eq (h : s.Invariant) (ready : Fd → Bool) :
    ∃ readset, (∀ fd, readset fd = true → s.activeset fd = true ∧ ready fd = true) ∧
      s.round platform host ready answers =
        socketSwitchOperateFrom platform host answers (List.range fdSetSize)
          ((List.range fdSetSize).filter readset).length { s with readset := readset } := by
  obtain ⟨nfds, hprepare, -⟩ := socketSwitchPrepare_ok h
  obtain ⟨readset, hsub, hselect⟩ := pselect_ok { s with readset := s.activeset } nfds ready
  refine ⟨readset, hsub, ?_⟩
  rw [round, hprepare, except_bind_ok]
  simp only [hselect]
  rw [socketSwitchOperate]

/-- A round keeps the invariant of the switch. -/
theorem round_ok (h : s.Invariant) (ready : Fd → Bool) :
    Outcome (s.Overruns platform answers) (fun s' => s'.Invariant ∧ Moves s s')
      (s.round platform host ready answers) := by
  obtain ⟨readset, hsub, hround⟩ := @round_eq s host platform answers h ready
  rw [hround]
  apply (socketSwitchOperate_ok h (fun fd hselected => (hsub fd hselected).1)
    (le_refl fdSetSize)).mono _ fun _ ht => ht
  rintro s' ⟨hinv, hmoves, -⟩
  exact ⟨hinv, hmoves⟩

end Server

end Cyberd
