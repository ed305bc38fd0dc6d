import Cyberd.Server.Endpoints

/-!
# What the program releases

Whatever descriptor is open, and whatever file is bound in the endpoints directory, was so
before the program or belongs to a node of the switch. The teardown of the switch destroys
every node, so that nothing of it is left.
-/

namespace Cyberd

open Library

namespace Server

/-- What is held beyond what the program started with belongs to its nodes. -/
structure Owned (boot : ServerBoot) (s : Server) : Prop where
  /-- Paths denote the same files. -/
  resolve : s.resolve = boot.resolve
  /-- The first descriptors are open, and no node has one. -/
  kept : ∀ fd descriptor, (openlog boot).fds fd = some descriptor → s.fds fd = some descriptor ∧
    ∀ a node, s.nodes a = some node → node.fd ≠ fd
  /-- The other ones are the descriptors of nodes. -/
  fds : ∀ fd, (openlog boot).fds fd = none → s.fds fd ≠ none →
    ∃ a node, s.nodes a = some node ∧ node.fd = fd
  /-- The files that were not there are the ones of endpoints. -/
  paths : ∀ file ∈ s.paths, file ∈ boot.paths ∨ ∃ a fd capabilities path,
    s.nodes a = some ⟨fd, .endpoint capabilities⟩ ∧ s.getsockname fd = some path ∧
      s.resolve path = file

/-- The nodes of a list are destroyed, and nothing else is. -/
structure Released (s : Server) (gone : List Addr) (s' : Server) : Prop where
  /-- The daemons and the processes are the same. -/
  world : s'.world = s.world
  /-- Paths denote the same files. -/
  resolve : s'.resolve = s.resolve
  /-- The nodes are freed. -/
  nodes : ∀ a, s'.nodes a = if a ∈ gone then none else s.nodes a
  /-- Their descriptors are closed. -/
  closed : ∀ a ∈ gone, ∀ node, s.nodes a = some node → s'.fds node.fd = none
  /-- The other ones are as they were. -/
  fds : ∀ fd, (∀ a ∈ gone, ∀ node, s.nodes a = some node → node.fd ≠ fd) → s'.fds fd = s.fds fd
  /-- Their files are unlinked. -/
  unlinked : ∀ a ∈ gone, ∀ fd capabilities path, s.nodes a = some ⟨fd, .endpoint capabilities⟩ →
    s.getsockname fd = some path → s.resolve path ∉ s'.paths
  /-- No file is bound. -/
  paths : ∀ file ∈ s'.paths, file ∈ s.paths

/-- Nothing is left that the program did not start with. -/
structure Clean (boot : ServerBoot) (s : Server) : Prop where
  /-- No node is allocated. -/
  nodes : ∀ a, s.nodes a = none
  /-- The open descriptors are the standard streams and the log. -/
  fds : s.fds = (openlog boot).fds
  /-- The endpoints directory holds no other file. -/
  paths : ∀ file ∈ s.paths, file ∈ boot.paths

variable {boot : ServerBoot} {s s' : Server} {a : Addr} {node : SocketNode} {gone : List Addr}

/-- A node that is inserted owns its descriptor, and the file that it is bound to. -/
theorem Owned.place (h : s.Owned boot) (hinv : s.Invariant) {descriptor : Descriptor}
    (hfree : s.fds node.fd = none) (hresolve : s'.resolve = s.resolve)
    (hfds : s'.fds = s.fds.install node.fd descriptor)
    (hnodes : ∀ b, s'.nodes b = if b = s.nextNode then some node else s.nodes b)
    (hpaths : ∀ file ∈ s'.paths, file ∈ s.paths ∨ ∃ capabilities path,
      node.nodeClass = .endpoint capabilities ∧ descriptor.file = .socket (some path) ∧
        s.resolve path = file) : s'.Owned boot := by
  have hnew : s'.nodes s.nextNode = some node := by rw [hnodes, if_pos rfl]
  have hold : ∀ b other, s.nodes b = some other → s'.nodes b = some other := by
    intro b other hb
    rw [hnodes, if_neg (hinv.fresh b other hb).ne]
    exact hb
  refine ⟨hresolve.trans h.resolve, fun fd d hopen => ?_, fun fd hclosed hopen => ?_,
    fun file hfile => ?_⟩
  · obtain ⟨hopen', hother⟩ := h.kept fd d hopen
    have hne : node.fd ≠ fd := by
      intro heq
      rw [heq, hopen'] at hfree
      cases hfree
    refine ⟨?_, fun b other hb => ?_⟩
    · rw [hfds, Descriptors.install_apply, if_neg (Ne.symm hne)]
      exact hopen'
    · rw [hnodes] at hb
      split at hb
      · cases hb
        exact hne
      · exact hother b other hb
  · by_cases heq : fd = node.fd
    · exact ⟨s.nextNode, node, hnew, heq.symm⟩
    · rw [hfds, Descriptors.install_apply, if_neg heq] at hopen
      obtain ⟨b, other, hb, hfd⟩ := h.fds fd hclosed hopen
      exact ⟨b, other, hold b other hb, hfd⟩
  · rcases hpaths file hfile with hfile | ⟨capabilities, path, hclass, hsocket, hpath⟩
    · refine (h.paths file hfile).imp_right ?_
      rintro ⟨b, fd, capabilities, path, hb, hname, hpath⟩
      have hne : fd ≠ node.fd := hinv.fd_ne hfree hb
      refine ⟨b, fd, capabilities, path, hold b _ hb, ?_, by rw [hresolve, hpath]⟩
      rw [getsockname_some] at hname ⊢
      obtain ⟨cloexec, hopen⟩ := hname
      exact ⟨cloexec, by rw [hfds, Descriptors.install_apply, if_neg hne, hopen]⟩
    · obtain ⟨fd, nodeClass⟩ := node
      obtain ⟨file', cloexec⟩ := descriptor
      cases hclass
      cases hsocket
      refine Or.inr ⟨s.nextNode, fd, capabilities, path, hnew, ?_, by rw [hresolve, hpath]⟩
      exact getsockname_some.mpr ⟨cloexec, by rw [hfds, Descriptors.install_apply, if_pos rfl]⟩

/-- Every move keeps what is held owned. -/
theorem Move.owned (hmove : Move s s') (hinv : s.Invariant) (h : s.Owned boot) :
    s'.Owned boot := by
  cases hmove with
  | select readset operated => exact ⟨h.resolve, h.kept, h.fds, h.paths⟩
  | change a s' hchange =>
    cases hchange with
    | refused path =>
      exact ⟨h.resolve, h.kept, h.fds, fun file hfile => h.paths file (List.mem_filter.mp hfile).1⟩
    | created fd path capabilities snodes activeset hfree hpath =>
      refine h.place hinv hfree rfl rfl (fun b => rfl) fun file hfile => ?_
      rcases List.mem_cons.mp hfile with rfl | hfile
      · exact Or.inr ⟨capabilities, path, rfl, rfl, rfl⟩
      · exact Or.inl hfile
    | accepted fd parser snodes activeset hfree =>
      exact h.place hinv hfree rfl rfl (fun b => rfl) fun file hfile => Or.inl hfile
    | removed fd parser snodes activeset ha =>
      refine ⟨h.resolve, fun n d hopen => ?_, fun n hclosed hopen => ?_, fun file hfile => ?_⟩
      · obtain ⟨hopen', hother⟩ := h.kept n d hopen
        refine ⟨?_, fun b other hb => hother b other (freeNode_some.mp hb).2⟩
        exact (if_neg (Ne.symm (hother a _ ha))).trans hopen'
      · change (s.fds.close fd) n ≠ none at hopen
        rw [Descriptors.close_apply] at hopen
        split at hopen
        · exact absurd rfl hopen
        · rename_i hne
          obtain ⟨b, other, hb, rfl⟩ := h.fds n hclosed hopen
          refine ⟨b, other, freeNode_some.mpr ⟨?_, hb⟩, rfl⟩
          rintro rfl
          rw [ha] at hb
          cases hb
          exact hne rfl
      · refine (h.paths file hfile).imp_right ?_
        rintro ⟨b, n, capabilities, path, hb, hname, hpath⟩
        have hba : b ≠ a := by
          rintro rfl
          rw [ha] at hb
          cases hb
        refine ⟨b, n, capabilities, path, freeNode_some.mpr ⟨hba, hb⟩, ?_, hpath⟩
        rw [getsockname_some] at hname ⊢
        obtain ⟨cloexec, hopen⟩ := hname
        refine ⟨cloexec, (if_neg fun heq => hba ?_).trans hopen⟩
        exact hinv.fd_inj hb ha heq
    | parsed fd parser parser' ha =>
      have hsame : ∀ b other, (s.writeNode a ⟨fd, .connection parser'⟩).nodes b = some other →
          ∃ node, s.nodes b = some node ∧ node.fd = other.fd := by
        intro b other hb
        rcases writeNode_some.mp hb with ⟨rfl, rfl⟩ | ⟨-, hb⟩
        · exact ⟨_, ha, rfl⟩
        · exact ⟨other, hb, rfl⟩
      refine ⟨h.resolve, fun n d hopen => ⟨(h.kept n d hopen).1, fun b other hb => ?_⟩,
        fun n hclosed hopen => ?_, fun file hfile => ?_⟩
      · obtain ⟨node, hb, hfd⟩ := hsame b other hb
        rw [← hfd]
        exact (h.kept n d hopen).2 b node hb
      · obtain ⟨b, other, hb, hfd⟩ := h.fds n hclosed hopen
        by_cases hba : b = a
        · subst hba
          rw [ha] at hb
          cases hb
          exact ⟨b, _, writeNode_some.mpr (Or.inl ⟨rfl, rfl⟩), hfd⟩
        · exact ⟨b, other, writeNode_some.mpr (Or.inr ⟨hba, hb⟩), hfd⟩
      · refine (h.paths file hfile).imp_right ?_
        rintro ⟨b, n, capabilities, path, hb, hname, hpath⟩
        refine ⟨b, n, capabilities, path, writeNode_some.mpr (Or.inr ⟨?_, hb⟩), hname, hpath⟩
        rintro rfl
        rw [ha] at hb
        cases hb
    | forked s' hforks =>
      obtain ⟨w, new, rfl, -⟩ := hforks
      exact ⟨h.resolve, h.kept, h.fds, h.paths⟩

/-- The program starts with nothing else. -/
theorem start_owned (boot : ServerBoot) : (start boot).Owned boot := by
  refine ⟨rfl, fun fd d hopen => ⟨hopen, fun a node ha => ?_⟩, fun fd hclosed hopen => ?_,
    fun file hfile => Or.inl hfile⟩
  · cases ha
  · exact absurd hclosed hopen

/-- The destruction of one more node. -/
theorem Released.destroy (h : s.Released gone s') (hinv : s.Invariant) (ha : s.nodes a = some node)
    (hleft : a ∉ gone) :
    ∃ s'', socketNodeDestroy a s' = .ok s'' ∧ s.Released (gone ++ [a]) s'' := by
  have ha' : s'.nodes a = some node := by rw [h.nodes, if_neg hleft, ha]
  have hopen : s'.fds node.fd = s.fds node.fd := by
    refine h.fds node.fd fun b hb other hother hfd => hleft ?_
    rw [← hinv.fd_inj hother ha hfd]
    exact hb
  have hmem : ∀ {b}, b ∈ gone ++ [a] ↔ b ∈ gone ∨ b = a := by simp
  -- Whatever files are unlinked, the node is freed and its descriptor is closed.
  have hreleased : ∀ t : Server, t.world = s'.world → t.resolve = s'.resolve →
      t.nodes = (s'.freeNode a).nodes → t.fds = s'.fds.close node.fd →
      (∀ fd capabilities path, node = ⟨fd, .endpoint capabilities⟩ →
        s.getsockname fd = some path → s.resolve path ∉ t.paths) →
      (∀ file ∈ t.paths, file ∈ s'.paths) → s.Released (gone ++ [a]) t := by
    intro t hworld hresolve hnodes hfds hunlinked hpaths
    refine
      { world := hworld.trans h.world
        resolve := hresolve.trans h.resolve
        nodes := fun b => ?_
        closed := fun b hb other hother => ?_
        fds := fun fd hfd => ?_
        unlinked := fun b hb fd capabilities path hother hname => ?_
        paths := fun file hfile => h.paths file (hpaths file hfile) }
    · rw [hnodes]
      change (if b = a then none else s'.nodes b) = _
      rw [h.nodes]
      by_cases hba : b = a <;> by_cases hgone : b ∈ gone <;> simp [hba, hgone, hmem]
    · rw [hfds, Descriptors.close_apply]
      split
      · rfl
      · rename_i hne
        rcases hmem.mp hb with hb | rfl
        · exact h.closed b hb other hother
        · rw [ha] at hother
          cases hother
          exact absurd rfl hne
    · rw [hfds, Descriptors.close_apply, if_neg (Ne.symm (hfd a (hmem.mpr (Or.inr rfl)) node ha))]
      exact h.fds fd fun b hb => hfd b (hmem.mpr (Or.inl hb))
    · rcases hmem.mp hb with hb | rfl
      · exact fun hfile => h.unlinked b hb fd capabilities path hother hname (hpaths _ hfile)
      · rw [ha] at hother
        cases hother
        exact hunlinked fd capabilities path rfl hname
  rw [socketNodeDestroy, readNode_ok ha', except_bind_ok]
  obtain ⟨fd, nodeClass⟩ := node
  cases nodeClass with
  | connection parser =>
    refine ⟨_, rfl, hreleased _ rfl rfl rfl rfl ?_ fun file hfile => hfile⟩
    rintro _ _ _ ⟨⟩
  | endpoint capabilities =>
    obtain ⟨-, descriptor, hdescriptor, path, rfl⟩ := hinv.opened a _ ha
    have hname : s'.getsockname fd = some path := by
      refine getsockname_some.mpr ⟨true, ?_⟩
      exact hopen.trans hdescriptor
    refine ⟨_, rfl, ?_⟩
    simp only [socketEndpointNodeDestroy, hname]
    apply hreleased
    · rfl
    · rfl
    · rfl
    · rfl
    · rintro _ _ path' ⟨⟩ hname'
      have hpath : s.getsockname fd = some path := getsockname_some.mpr ⟨true, hdescriptor⟩
      rw [hpath] at hname'
      cases hname'
      intro hfile
      have hne := (List.mem_filter.mp hfile).2
      rw [h.resolve] at hne
      exact of_decide_eq_true hne rfl
    · exact fun file hfile => (List.mem_filter.mp hfile).1

/-- `socket_switch_teardown` destroys the nodes of a sound state. -/
theorem socketSwitchTeardown_ok (hinv : s.Invariant) :
    ∃ s', socketSwitchTeardown s = .ok s' ∧ s.Released s.snodes.preorder s' := by
  have hnodup : s.snodes.preorder.Nodup :=
    s.snodes.preorder_perm.nodup_iff.mpr hinv.wellFormed.sorted.nodup
  have hinit : s.Released [] s := by
    constructor
    · rfl
    · rfl
    · intro a
      simp
    · simp
    · exact fun _ _ => rfl
    · simp
    · exact fun _ hfile => hfile
  have hloop : Outcome (fun _ => False) (fun s' => s.Released s.snodes.preorder s')
      (socketSwitchTeardown s) := by
    rw [socketSwitchTeardown, treeMutate_eq]
    apply Outcome.foldlM (fun gone s' => s.Released gone s') hinit
    intro gone a rest s' hl hreleased
    rw [hl] at hnodup
    have ha : a ∈ s.snodes.preorder := by
      rw [hl]
      exact List.mem_append_right _ List.mem_cons_self
    obtain ⟨node, hnode⟩ := (hinv.mem a).mp (s.snodes.preorder_perm.mem_iff.mp ha)
    have hleft : a ∉ gone := fun hmem =>
      (List.nodup_append.mp hnodup).2.2 a hmem a List.mem_cons_self rfl
    obtain ⟨s'', hdestroy, hreleased'⟩ := hreleased.destroy hinv hnode hleft
    rw [hdestroy]
    exact hreleased'
  cases hteardown : socketSwitchTeardown s with
  | ok s' =>
    rw [hteardown] at hloop
    exact ⟨s', rfl, hloop⟩
  | error trap =>
    rw [hteardown] at hloop
    exact hloop.elim

/-- Once every node is destroyed, nothing is left of what is owned. -/
theorem Owned.clean (h : s.Owned boot) (hinv : s.Invariant)
    (hreleased : s.Released s.snodes.preorder s') : s'.Clean boot := by
  have hmem : ∀ a node, s.nodes a = some node → a ∈ s.snodes.preorder := fun a node ha =>
    s.snodes.preorder_perm.mem_iff.mpr ((hinv.mem a).mpr ⟨node, ha⟩)
  refine ⟨fun a => ?_, funext fun fd => ?_, fun file hfile => ?_⟩
  · rw [hreleased.nodes]
    split
    · rfl
    · rename_i hno
      cases ha : s.nodes a with
      | none => rfl
      | some node => exact absurd (hmem a node ha) hno
  · cases hopen : (openlog boot).fds fd with
    | some descriptor =>
      obtain ⟨hkept, hother⟩ := h.kept fd descriptor hopen
      rw [hreleased.fds fd fun a _ node ha => hother a node ha, hkept]
    | none =>
      by_cases hnode : ∃ a node, s.nodes a = some node ∧ node.fd = fd
      · obtain ⟨a, node, ha, rfl⟩ := hnode
        exact hreleased.closed a (hmem a node ha) node ha
      · rw [hreleased.fds fd fun a _ node ha hfd => hnode ⟨a, node, ha, hfd⟩]
        by_contra hno
        exact hnode (h.fds fd hopen hno)
  · rcases h.paths file (hreleased.paths file hfile) with hold | hendpoint
    · exact hold
    · obtain ⟨a, fd, capabilities, path, ha, hname, rfl⟩ := hendpoint
      exact absurd hfile (hreleased.unlinked a (hmem a _ ha) fd capabilities path ha hname)

/-- What is held in a run belongs to the program or to its nodes. -/
theorem run_owned (platform : Platform) (host : Host) (boot : ServerBoot)
    (events : List ServerEvent) :
    Outcome (Halts platform host boot events) (fun s => s.Invariant ∧ s.Owned boot)
      (run platform host boot events) :=
  run_induction (fun s => s.Owned boot) platform host boot events (start_owned boot)
    fun _ _ hinv hmove h => hmove.owned hinv h

/-- From every state of every run, `socket_switch_teardown` returns and leaves nothing of the
switch: its nodes are freed, their descriptors are closed, and their files are unlinked. -/
theorem released_over_runs (platform : Platform) (host : Host) (boot : ServerBoot)
    (events : List ServerEvent) :
    Outcome (Halts platform host boot events)
      (fun s => s.Owned boot ∧ ∃ s', s.socketSwitchTeardown = .ok s' ∧ s'.Clean boot)
      (run platform host boot events) := by
  apply (run_owned platform host boot events).mono _ fun _ ht => ht
  rintro s ⟨hinv, howned⟩
  obtain ⟨s', hteardown, hreleased⟩ := socketSwitchTeardown_ok hinv
  exact ⟨howned, s', hteardown, howned.clean hinv hreleased⟩

end Server

end Cyberd
