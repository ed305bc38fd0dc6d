import Cyberd.Server.Runs

/-!
# The files of the endpoints

A creation that fails unlinks its path even when it is the one of another endpoint, which
`bind(2)` has refused. As long as no creation asks for a file that is bound, what fails is
undone and every endpoint keeps its file until it is destroyed.
-/

namespace Cyberd

open Library

namespace Server

/-- The files that are bound, the open descriptors and the switch are as before. -/
structure Undone (s s' : Server) : Prop where
  /-- The files that are bound. -/
  paths : ∀ file, file ∈ s'.paths ↔ file ∈ s.paths
  /-- The open descriptors. -/
  fds : s'.fds = s.fds
  /-- The socket nodes. -/
  nodes : s'.nodes = s.nodes
  /-- The tree of the switch. -/
  snodes : s'.snodes = s.snodes
  /-- The active descriptors. -/
  activeset : s'.activeset = s.activeset

/-- If the node is an endpoint, the file that it is bound to is there. -/
def KeepsPath (s : Server) (a : Addr) : Prop :=
  ∀ fd capabilities, s.nodes a = some ⟨fd, .endpoint capabilities⟩ →
    ∃ path, s.getsockname fd = some path ∧ s.resolve path ∈ s.paths

/-- No creation has asked for a file that was bound. -/
def Unrivalled (s : Server) : Prop := ∀ bind ∈ s.binds, bind.existed = false

/-- The files of the bound sockets are there, and no two sockets have one file. -/
structure Bound (s : Server) : Prop where
  /-- The file of a socket is there. -/
  kept : ∀ fd path, s.getsockname fd = some path → s.resolve path ∈ s.paths
  /-- It is the one of no other socket. -/
  apart : ∀ fd fd' path path', s.getsockname fd = some path → s.getsockname fd' = some path' →
    s.resolve path = s.resolve path' → fd = fd'

/-- What is left of the switch while it is destroyed. -/
structure Closing (s : Server) (left : List Addr) : Prop where
  /-- The nodes that are left are different. -/
  nodup : left.Nodup
  /-- Their descriptors are open for them. -/
  opened : ∀ a ∈ left, ∃ node, s.nodes a = some node ∧
    ∃ descriptor, s.fds node.fd = some descriptor ∧ node.nodeClass.Fits descriptor
  /-- No two of them have one descriptor. -/
  apart : ∀ a ∈ left, ∀ b ∈ left, ∀ node node', s.nodes a = some node → s.nodes b = some node' →
    node.fd = node'.fd → a = b
  /-- The bound sockets have their files. -/
  bound : s.Bound

variable {s s' : Server} {a : Addr} {fd : Fd} {path : Name}

/-- What is bound is a socket with its path. -/
theorem getsockname_some :
    s.getsockname fd = some path ↔ ∃ cloexec, s.fds fd = some ⟨.socket (some path), cloexec⟩ := by
  rw [getsockname]
  split
  · rename_i path' cloexec hopen
    rw [hopen]
    simp
  · rename_i hother
    constructor
    · rintro ⟨⟩
    · rintro ⟨cloexec, hopen⟩
      exact absurd hopen (hother _ _)

/-- Sockets may be closed, and files of no socket may be unlinked. -/
theorem Bound.mono (h : s.Bound)
    (hsockets : ∀ fd path, s'.getsockname fd = some path → s.getsockname fd = some path)
    (hresolve : s'.resolve = s.resolve)
    (hpaths : ∀ fd path, s'.getsockname fd = some path → s.resolve path ∈ s.paths →
      s.resolve path ∈ s'.paths) : s'.Bound := by
  constructor
  · intro fd path hname
    rw [hresolve]
    exact hpaths fd path hname (h.kept fd path (hsockets fd path hname))
  · intro fd fd' path path' hname hname' heq
    rw [hresolve] at heq
    exact h.apart fd fd' path path' (hsockets fd path hname) (hsockets fd' path' hname') heq

/-- A creation that fails is undone, unless it has unlinked a file that was bound. -/
theorem socketEndpointNodeCreate_undone_iff {answer : CreateAnswer} {name : Name}
    {capabilities : Capset}
    (h : socketEndpointNodeCreate answer name capabilities s = (none, s')) :
    s.Undone s' ↔ ¬ (s.ReachesBind answer name ∧
      s.resolve (endpointPath s.socketEndpointsPath name) ∈ s.paths) := by
  rcases socketEndpointNodeCreate_cases answer name capabilities s with
    ⟨hreach, heq⟩ | ⟨hreach, heq⟩ | ⟨-, -, fd, -, heq⟩
  · rw [heq] at h
    cases h
    exact iff_of_true ⟨fun _ => Iff.rfl, rfl, rfl, rfl, rfl⟩ fun hboth => hreach hboth.1
  · rw [heq] at h
    cases h
    generalize endpointPath s.socketEndpointsPath name = path
    have hpaths : ∀ file, file ∈ (s.refuse path).paths ↔
        file ∈ s.paths ∧ file ≠ s.resolve path := by
      intro file
      change file ∈ s.paths.filter (fun file => file ≠ s.resolve path) ↔ _
      rw [List.mem_filter, decide_eq_true_iff]
    constructor
    · rintro hundone ⟨-, hmem⟩
      have hgone := (hundone.paths _).mpr hmem
      exact ((hpaths _).mp hgone).2 rfl
    · intro hnew
      refine ⟨fun file => ?_, rfl, rfl, rfl, rfl⟩
      rw [hpaths]
      constructor
      · exact fun hmem => hmem.1
      · intro hmem
        refine ⟨hmem, ?_⟩
        rintro rfl
        exact hnew ⟨hreach, hmem⟩
  · rw [heq] at h
    cases h

/-- A move only adds to the calls of `bind(2)`. -/
theorem Move.binds (h : Move s s') : s.binds <+: s'.binds := by
  cases h with
  | select readset operated => exact List.prefix_rfl
  | change a s' h =>
    cases h with
    | refused path => exact List.prefix_append _ _
    | created fd path capabilities snodes activeset hfree hpath => exact List.prefix_append _ _
    | accepted fd parser snodes activeset hfree => exact List.prefix_rfl
    | removed fd parser snodes activeset ha => exact List.prefix_rfl
    | parsed fd parser parser' ha => exact List.prefix_rfl
    | forked s' hforks =>
      obtain ⟨w, new, rfl, -⟩ := hforks
      exact List.prefix_rfl

/-- Closing a descriptor binds none. -/
theorem getsockname_close (h : s'.fds = s.fds.close fd) (fd' : Fd) (path : Name)
    (hname : s'.getsockname fd' = some path) : fd' ≠ fd ∧ s.getsockname fd' = some path := by
  rw [getsockname_some, h, Descriptors.close_apply] at hname
  obtain ⟨cloexec, hopen⟩ := hname
  split at hopen
  · cases hopen
  · rename_i hne
    exact ⟨hne, getsockname_some.mpr ⟨cloexec, hopen⟩⟩

/-- Only the descriptor that is opened may be bound anew. -/
theorem getsockname_install {descriptor : Descriptor} (h : s'.fds = s.fds.install fd descriptor)
    (fd' : Fd) (path : Name) (hname : s'.getsockname fd' = some path) :
    fd' = fd ∧ descriptor.file = .socket (some path) ∨
      fd' ≠ fd ∧ s.getsockname fd' = some path := by
  rw [getsockname_some, h, Descriptors.install_apply] at hname
  obtain ⟨cloexec, hopen⟩ := hname
  split at hopen
  · rename_i heq
    cases hopen
    exact Or.inl ⟨heq, rfl⟩
  · rename_i hne
    exact Or.inr ⟨hne, getsockname_some.mpr ⟨cloexec, hopen⟩⟩

/-- The files of the sockets are kept by a move, unless a file that was bound is asked for. -/
theorem Move.bound (h : Move s s') (hs : s.Bound) (hbinds : s'.Unrivalled) : s'.Bound := by
  cases h with
  | select readset operated => exact hs.mono (fun _ _ h => h) rfl fun _ _ _ h => h
  | change a s' h =>
    cases h with
    | refused path =>
      have hnew : s.resolve path ∉ s.paths := by
        have hlast := hbinds ⟨path, s.pathExists path⟩
          (List.mem_append_right _ (List.mem_singleton_self _))
        exact of_decide_eq_false hlast
      refine hs.mono (fun _ _ h => h) rfl fun fd path' hname hmem => ?_
      refine List.mem_filter.mpr ⟨hmem, decide_eq_true ?_⟩
      intro heq
      exact hnew (heq ▸ hmem)
    | created fd path capabilities snodes activeset hfree hpath =>
      have hfds : (s.establish fd path capabilities).fds =
          s.fds.install fd ⟨.socket (some path), true⟩ := rfl
      constructor
      · intro fd' path' hname
        rcases getsockname_install hfds fd' path' hname with ⟨-, hfile⟩ | ⟨-, hname⟩
        · cases hfile
          exact List.mem_cons_self
        · exact List.mem_cons_of_mem _ (hs.kept fd' path' hname)
      · intro fd₁ fd₂ path₁ path₂ hname₁ hname₂ heq
        rcases getsockname_install hfds fd₁ path₁ hname₁ with ⟨rfl, hfile₁⟩ | ⟨-, hold₁⟩
        · cases hfile₁
          rcases getsockname_install hfds fd₂ path₂ hname₂ with ⟨rfl, -⟩ | ⟨-, hold₂⟩
          · rfl
          · have hmem := hs.kept fd₂ path₂ hold₂
            exact absurd (heq ▸ hmem) hpath
        · rcases getsockname_install hfds fd₂ path₂ hname₂ with ⟨rfl, hfile₂⟩ | ⟨-, hold₂⟩
          · cases hfile₂
            have hmem := hs.kept fd₁ path₁ hold₁
            exact absurd (heq ▸ hmem) hpath
          · exact hs.apart fd₁ fd₂ path₁ path₂ hold₁ hold₂ heq
    | accepted fd parser snodes activeset hfree =>
      have hfds : (s.connect fd parser).fds = s.fds.install fd ⟨.connection, true⟩ := rfl
      refine hs.mono (fun fd' path' hname => ?_) rfl fun _ _ _ h => h
      rcases getsockname_install hfds fd' path' hname with ⟨-, hfile⟩ | ⟨-, hold⟩
      · cases hfile
      · exact hold
    | removed fd parser snodes activeset ha =>
      exact hs.mono (fun fd' path hname => (getsockname_close rfl fd' path hname).2) rfl
        fun _ _ _ h => h
    | parsed fd parser parser' ha => exact hs.mono (fun _ _ h => h) rfl fun _ _ _ h => h
    | forked s' hforks =>
      obtain ⟨w, new, rfl, -⟩ := hforks
      exact hs.mono (fun _ _ h => h) rfl fun _ _ _ h => h

/-- The nodes of a sound state can be destroyed in any order. -/
theorem Invariant.closing (h : s.Invariant) (hbound : s.Bound) : s.Closing s.snodes.preorder := by
  have hmem : ∀ a, a ∈ s.snodes.preorder ↔ ∃ node, s.nodes a = some node := by
    intro a
    rw [s.snodes.preorder_perm.mem_iff, h.mem]
  constructor
  · exact s.snodes.preorder_perm.nodup_iff.mpr h.wellFormed.sorted.nodup
  · intro a ha
    obtain ⟨node, ha⟩ := (hmem a).mp ha
    exact ⟨node, ha, (h.opened a node ha).2⟩
  · exact fun a _ b _ node node' ha hb hfd => h.fd_inj ha hb hfd
  · exact hbound

/-- The destruction of a node leaves the other ones as they are. -/
theorem Closing.destroy {left : List Addr} (h : s.Closing (a :: left)) :
    ∃ s', socketNodeDestroy a s = .ok s' ∧ s'.Closing left := by
  obtain ⟨hnotin, hnodup⟩ := List.nodup_cons.mp h.nodup
  obtain ⟨node, ha, descriptor, hopen, hfits⟩ := h.opened a List.mem_cons_self
  -- Whatever file is unlinked, the rest of the destruction is the same.
  have hclosing : ∀ s' : Server, s'.fds = s.fds.close node.fd →
      s'.nodes = (s.freeNode a).nodes → s'.Bound → s'.Closing left := by
    intro s' hfds hnodes hbound
    have hkept : ∀ {b node'}, s'.nodes b = some node' → b ≠ a ∧ s.nodes b = some node' := by
      intro b node' hb
      rw [hnodes] at hb
      exact freeNode_some.mp hb
    constructor
    · exact hnodup
    · intro b hb
      obtain ⟨node', hb', descriptor', hopen', hfits'⟩ := h.opened b (List.mem_cons_of_mem _ hb)
      have hne : b ≠ a := fun heq => hnotin (heq ▸ hb)
      refine ⟨node', ?_, descriptor', ?_, hfits'⟩
      · rw [hnodes]
        exact freeNode_some.mpr ⟨hne, hb'⟩
      · rw [hfds, Descriptors.close_apply, if_neg, hopen']
        intro hfd
        exact hne (h.apart b (List.mem_cons_of_mem _ hb) a List.mem_cons_self node' node hb' ha hfd)
    · intro b hb c hc node₁ node₂ hb' hc' hfd
      exact h.apart b (List.mem_cons_of_mem _ hb) c (List.mem_cons_of_mem _ hc) node₁ node₂
        (hkept hb').2 (hkept hc').2 hfd
    · exact hbound
  rw [socketNodeDestroy, readNode_ok ha, except_bind_ok]
  obtain ⟨fd, nodeClass⟩ := node
  cases nodeClass with
  | connection parser =>
    refine ⟨_, rfl, hclosing _ rfl rfl (h.bound.mono ?_ rfl fun _ _ _ h => h)⟩
    exact fun fd' path hname => (getsockname_close rfl fd' path hname).2
  | endpoint capabilities =>
    obtain ⟨path, rfl⟩ := hfits
    have hname : s.getsockname fd = some path := getsockname_some.mpr ⟨true, hopen⟩
    refine ⟨_, rfl, ?_⟩
    simp only [socketEndpointNodeDestroy, hname]
    apply hclosing
    · rfl
    · rfl
    refine h.bound.mono (fun fd' path' hname' => (getsockname_close rfl fd' path' hname').2) rfl ?_
    intro fd' path' hname' hmem
    obtain ⟨hne, hold⟩ := getsockname_close rfl fd' path' hname'
    refine List.mem_filter.mpr ⟨hmem, decide_eq_true ?_⟩
    exact fun heq => hne (h.bound.apart fd' fd path' path hold hname heq)

/-- So does the one of several nodes. -/
theorem Closing.destroyAll (destroyed : List Addr) {left : List Addr}
    (h : s.Closing (destroyed ++ left)) :
    ∃ s', destroyed.foldlM (fun s a => socketNodeDestroy a s) s = .ok s' ∧ s'.Closing left := by
  induction destroyed generalizing s with
  | nil => exact ⟨s, rfl, h⟩
  | cons a destroyed ih =>
    obtain ⟨s₁, hdestroy, h₁⟩ := h.destroy
    obtain ⟨s', hrest, h'⟩ := ih h₁
    exact ⟨s', by rw [List.foldlM_cons, hdestroy, except_bind_ok, hrest], h'⟩

/-- The endpoints that are left keep their files. -/
theorem Closing.keepsPath {left : List Addr} (h : s.Closing left) (ha : a ∈ left) :
    s.KeepsPath a := by
  intro fd capabilities hnode
  obtain ⟨node, hnode', descriptor, hopen, hfits⟩ := h.opened a ha
  rw [hnode] at hnode'
  cases hnode'
  obtain ⟨path, rfl⟩ := hfits
  have hname : s.getsockname fd = some path := getsockname_some.mpr ⟨true, hopen⟩
  exact ⟨path, hname, h.bound.kept fd path hname⟩

/-- In every state a creation that fails is undone exactly when it has not reached `bind(2)` with
a file that was bound. In every run without such a creation, the endpoints of the switch have
their files, and keep them until they are destroyed by `socket_switch_teardown`. -/
theorem endpoints_over_runs (platform : Platform) (host : Host) :
    (∀ (s s' : Server) (answer : CreateAnswer) (name : Name) (capabilities : Capset),
      socketEndpointNodeCreate answer name capabilities s = (none, s') →
      (s.Undone s' ↔ ¬ (s.ReachesBind answer name ∧
        s.resolve (endpointPath s.socketEndpointsPath name) ∈ s.paths))) ∧
    ∀ (boot : ServerBoot) (events : List ServerEvent),
      Outcome (Halts platform host boot events)
        (fun s => s.Unrivalled → (∀ a ∈ s.snodes.toList, s.KeepsPath a) ∧
          ∀ destroyed left, s.snodes.preorder = destroyed ++ left →
            ∃ s', destroyed.foldlM (fun s a => socketNodeDestroy a s) s = .ok s' ∧
              ∀ a ∈ left, s'.KeepsPath a)
        (run platform host boot events) := by
  constructor
  · intro s s' answer name capabilities h
    exact socketEndpointNodeCreate_undone_iff h
  · intro boot events
    have hbound := run_induction (fun s => s.Unrivalled → s.Bound) platform host boot events ?_ ?_
    · apply hbound.mono _ fun _ ht => ht
      rintro s ⟨hinv, hbound⟩ hunrivalled
      have hclosing := hinv.closing (hbound hunrivalled)
      constructor
      · intro a ha
        exact hclosing.keepsPath (s.snodes.preorder_perm.mem_iff.mpr ha)
      · intro destroyed left hpreorder
        rw [hpreorder] at hclosing
        obtain ⟨s', hs', hleft⟩ := hclosing.destroyAll
        exact ⟨s', hs', fun a ha => hleft.keepsPath ha⟩
    · intro _
      have hunbound : ∀ fd path, (start boot).getsockname fd ≠ some path := by
        intro fd path hname
        rw [getsockname_some] at hname
        obtain ⟨cloexec, hopen⟩ := hname
        simp only [start, openlog] at hopen
        split at hopen
        · cases hopen
        · split at hopen
          · cases hopen
          · cases hopen
      constructor
      · exact fun fd path hname => absurd hname (hunbound fd path)
      · exact fun fd fd' path path' hname => absurd hname (hunbound fd path)
    · intro s s' _ hmove hbound hunrivalled
      apply hmove.bound (hbound _) hunrivalled
      intro bind hmem
      exact hunrivalled bind (hmove.binds.subset hmem)

/-- A program without any daemon, with a root endpoint `/e/r` on its descriptor 3. -/
def requestBoot : ServerBoot where
  boot := ⟨fun _ => 0, [], [], none⟩
  standard := fun _ => true
  log := none
  resolve := id
  paths := []
  path := [47, 101]
  root := [114]
  mkdir := true
  create := ⟨true, some 3, true, true⟩
  load := ⟨none, fun _ => none⟩

/-- A connection is accepted on the descriptor 4, and asks for an endpoint `r`. -/
def requestAnswer : SocketAnswer where
  accept := some 4
  fcntl := true
  malloc := true
  read := some ([0, 255, 255, 255, 255, 114, 0, 9], 7)
  creates := [⟨true, some 5, true, true⟩]

/-- A connection asks for an endpoint `q` beside the root endpoint. Both have their files, and the
new one keeps its file when the nodes before it are destroyed. -/
theorem endpoints_over_runs_request :
    ∃ s s', run ⟨.little, true⟩ bareHost requestBoot
        [.round (fun fd => fd == 3) fun _ => requestAnswer,
          .round (fun fd => fd == 4) fun _ =>
            { requestAnswer with read := some ([0, 255, 255, 255, 255, 113, 0, 9], 7) }] = .ok s ∧
      s.snodes.preorder = [1, 0, 2] ∧ s.nodes 2 = some ⟨5, .endpoint capsetAll⟩ ∧
      s.KeepsPath 0 ∧ s.KeepsPath 2 ∧
      [1, 0].foldlM (fun s a => socketNodeDestroy a s) s = .ok s' ∧ s'.KeepsPath 2 := by
  have hkeeps : ∀ events s, run ⟨.little, true⟩ bareHost requestBoot events = .ok s →
      s.Unrivalled → (∀ a ∈ s.snodes.toList, s.KeepsPath a) ∧
        ∀ destroyed left, s.snodes.preorder = destroyed ++ left →
          ∃ s', destroyed.foldlM (fun s a => socketNodeDestroy a s) s = .ok s' ∧
            ∀ a ∈ left, s'.KeepsPath a := by
    intro events s hrun hunrivalled
    have hkept := (endpoints_over_runs ⟨.little, true⟩ bareHost).2 requestBoot events
    rw [hrun] at hkept
    exact hkept hunrivalled
  have hreached : ((run ⟨.little, true⟩ bareHost requestBoot
      [.round (fun fd => fd == 3) fun _ => requestAnswer,
        .round (fun fd => fd == 4) fun _ =>
          { requestAnswer with
            read := some ([0, 255, 255, 255, 255, 113, 0, 9], 7) }]).toOption.map fun s =>
        (s.binds, s.snodes.preorder, s.nodes 2)) =
      some ([⟨[47, 101, 47, 114], false⟩, ⟨[47, 101, 47, 113], false⟩], [1, 0, 2],
        some ⟨5, .endpoint capsetAll⟩) := by decide +kernel
  obtain ⟨s, hs, heq⟩ := Option.map_eq_some_iff.mp hreached
  injection heq with hbinds heq
  injection heq with hpreorder hnode
  have hrun := ok_of_toOption hs
  have hunrivalled : s.Unrivalled := by
    rw [Unrivalled, hbinds]
    decide
  obtain ⟨hall, hdestroyed⟩ := hkeeps _ s hrun hunrivalled
  obtain ⟨s', hs', hleft⟩ := hdestroyed [1, 0] [2] hpreorder
  have hmem : ∀ a, a ∈ s.snodes.toList ↔ a ∈ [1, 0, 2] := by
    intro a
    rw [← hpreorder]
    exact s.snodes.preorder_perm.mem_iff.symm
  exact ⟨s, s', hrun, hpreorder, hnode, hall 0 ((hmem 0).mpr (by decide)),
    hall 2 ((hmem 2).mpr (by decide)), hs', hleft 2 (by decide)⟩

/-- A connection asks for the name of the root endpoint. The creation fails, and the root
endpoint has lost its file. -/
theorem endpoints_request_root_fails :
    ∃ s s', run ⟨.little, true⟩ bareHost requestBoot
        [.round (fun fd => fd == 3) fun _ => requestAnswer] = .ok s ∧
      (∃ s'', socketEndpointNodeCreate ⟨true, some 5, true, true⟩ [114] capsetAll s = (none, s'') ∧
        ¬ s.Undone s'') ∧
      run ⟨.little, true⟩ bareHost requestBoot
        [.round (fun fd => fd == 3) fun _ => requestAnswer,
          .round (fun fd => fd == 4) fun _ => requestAnswer] = .ok s' ∧
      ∃ a ∈ s'.snodes.toList, ¬ s'.KeepsPath a := by
  have hbefore : ((run ⟨.little, true⟩ bareHost requestBoot
      [.round (fun fd => fd == 3) fun _ => requestAnswer]).toOption.map fun s =>
        (s.paths, (socketEndpointNodeCreate ⟨true, some 5, true, true⟩ [114] capsetAll s).1,
          (socketEndpointNodeCreate ⟨true, some 5, true, true⟩ [114] capsetAll s).2.paths)) =
      some ([[47, 101, 47, 114]], none, []) := by decide +kernel
  have hafter : ((run ⟨.little, true⟩ bareHost requestBoot
      [.round (fun fd => fd == 3) fun _ => requestAnswer,
        .round (fun fd => fd == 4) fun _ => requestAnswer]).toOption.map fun s =>
        (s.paths, s.snodes.toList, s.nodes 0)) =
      some ([], [0, 1], some ⟨3, .endpoint capsetAll⟩) := by decide +kernel
  obtain ⟨s, hs, heq⟩ := Option.map_eq_some_iff.mp hbefore
  injection heq with hpaths heq
  injection heq with hnone hcreated
  obtain ⟨s', hs', heq'⟩ := Option.map_eq_some_iff.mp hafter
  injection heq' with hpaths' heq'
  injection heq' with hsnodes hnode
  refine ⟨s, s', ok_of_toOption hs, ⟨_, Prod.ext hnone rfl, fun hundone => ?_⟩,
    ok_of_toOption hs', 0, by rw [hsnodes]; exact List.mem_cons_self, fun hkeeps => ?_⟩
  · have hmem := (hundone.paths [47, 101, 47, 114]).mpr (by rw [hpaths]; exact List.mem_cons_self)
    rw [hcreated] at hmem
    cases hmem
  · obtain ⟨path, -, hmem⟩ := hkeeps 3 capsetAll hnode
    rw [hpaths'] at hmem
    cases hmem

end Server

end Cyberd
