import Cyberd.Daemon.Signals

/-!
# The teardown

Once the daemons are disarmed and stopped, children are waited for until there are none,
or until the alarm rings or the last daemon is gone, and then the remaining processes are
ended. The teardown is followed from one call to the next one, while processes terminate
and are adopted in any order.
-/

namespace Cyberd

open Library

/-- Where the teardown is. -/
inductive TeardownPhase
  /-- In `sigsuspend(2)`. -/
  | suspended
  /-- In `reap_children(WNOHANG)`. -/
  | reaping
  /-- In `reap_children(0)`, after `kill(-1, SIGKILL)`. -/
  | ending
  /-- At `sync(2)`, which `reboot(2)` follows. -/
  | synced
  deriving DecidableEq, Repr

/-- The teardown once `spawns_stop` has returned. -/
structure Teardown where
  /-- The storage, the memory and the processes. -/
  world : World
  /-- `sigalrm` -/
  sigalrm : Bool
  /-- Where it is. -/
  phase : TeardownPhase

/-- What happens during the teardown. -/
inductive TeardownEvent
  /-- A process becomes a child because its parent has exited. -/
  | adopt (pid : Int)
  /-- A signal is delivered, the one of the alarm or another one. -/
  | signal (alarm : Bool)
  /-- `waitid(2)` reports a terminated child. -/
  | terminated (info : Siginfo)
  /-- `waitid(2)` has nothing to report. -/
  | nothing

/-- `waitid(2)` when it has nothing to report, it only fails without any child. -/
def Machine.waitNothing (m : Machine) : Int := if m.children = [] then -1 else 0

/-- `configuration_cleanup`, the nodes of the tree are freed with its daemons. -/
def configurationCleanup (w : World) : Except Trap World := treeMutate daemonDestroy w.daemons w

namespace Teardown

/-- The end of the teardown. Nothing is cleaned up with `NDEBUG`. -/
def close (ndebug : Bool) (t : Teardown) : Except Trap Teardown :=
  if ndebug then .ok { t with phase := .synced }
  else do
    let w ← configurationCleanup t.world
    return { t with world := w, phase := .synced }

/-- The body of the loop of `reap_children`. -/
def reap (info : Siginfo) (t : Teardown) : Except Trap Teardown :=
  match t.world.waitid info.pid with
  | none => .ok t
  | some m => do
    let w ← reapChild info { t.world with toMachine := m }
    return { t with world := w }

/-- The end of the body of the waiting loop, with the value of `reap_children`. -/
def reaped (ndebug : Bool) (status : Int) (t : Teardown) : Except Trap Teardown :=
  let children : Bool := status = 0
  if children && !t.sigalrm && !spawnsEmpty t.world then .ok { t with phase := .suspended }
  else if children then .ok { t with phase := .ending }
  else t.close ndebug

/-- One more event. Signals are blocked outside of `sigsuspend(2)`, and `waitid(2)` blocks
in `reap_children(0)` as long as there are children. -/
def step (ndebug : Bool) (t : Teardown) (event : TeardownEvent) : Except Trap Teardown :=
  match t.phase with
  | .suspended =>
    match event with
    | .adopt pid => .ok { t with world := { t.world with toMachine := t.world.adopt pid } }
    | .signal alarm => .ok { t with sigalrm := t.sigalrm || alarm, phase := .reaping }
    | .terminated _ | .nothing => .ok t
  | .reaping =>
    match event with
    | .adopt pid => .ok { t with world := { t.world with toMachine := t.world.adopt pid } }
    | .signal _ => .ok t
    | .terminated info => t.reap info
    | .nothing => t.reaped ndebug t.world.waitNothing
  | .ending =>
    match event with
    | .adopt pid => .ok { t with world := { t.world with toMachine := t.world.adopt pid } }
    | .signal _ => .ok t
    | .terminated info => t.reap info
    | .nothing => if t.world.waitNothing = 0 then .ok t else t.close ndebug
  | .synced => .ok t

end Teardown

/-- `teardown`, until it has handled some events. -/
def teardown (ndebug : Bool) (w : World) (events : List TeardownEvent) : Except Trap Teardown := do
  let w ← spawnsStop w
  events.foldlM (Teardown.step ndebug) ⟨w, false, .suspended⟩

/-- No exit of the daemon starts it again. -/
def Daemon.Disarmed (daemon : Daemon) : Prop :=
  ∀ info : Siginfo, info.restarts daemon.conf.start = false

/-- The signal that finishes a daemon, if it is started. -/
def Machine.finishes (m : Machine) (a : Addr) : List Kill :=
  match m.heap a with
  | some daemon =>
    if daemon.state = .started then
      [⟨a, daemon.pid, daemon.conf.sigfinish, some ⟨daemon.pid, some (a, daemon.name)⟩⟩]
    else []
  | none => []

/-- A daemon as `spawns_stop` leaves it. -/
def Daemon.finished (daemon : Daemon) : Daemon :=
  { daemon.disarmed with state := if daemon.state = .started then .stopping else daemon.state }

/-- The state of the teardown. -/
structure Teardown.Quiet (t : Teardown) : Prop where
  /-- Daemons and processes are sound until the end. -/
  invariant : t.phase ≠ .synced → t.world.Invariant
  /-- The daemons that run are not started again. -/
  disarmed : ∀ a ∈ t.world.spawns.toList, ∃ daemon, t.world.heap a = some daemon ∧
    daemon.Disarmed
  /-- At the end no child is left, and no daemon runs. -/
  synced : t.phase = .synced → t.world.children = [] ∧ spawnsEmpty t.world = true

/-- What the teardown has done, from the state that it was entered in. -/
structure Teardown.Finishes (w : World) (t : Teardown) : Prop where
  /-- Nothing is forked. -/
  forks : t.world.forks = w.forks
  /-- The storage only loses daemons. -/
  spawns : ∀ a ∈ t.world.spawns.toList, a ∈ w.spawns.toList
  /-- A daemon that was started is signalled once, and no other one is. -/
  kills : ∃ kills, t.world.kills = w.kills ++ kills ∧
    ∀ a, kills.filter (fun k => k.daemon = a) = w.finishes a
  /-- At the end no child is left, and no daemon runs. -/
  synced : t.phase = .synced → t.world.children = [] ∧ spawnsEmpty t.world = true

/-- What later states of the teardown keep. -/
structure Teardown.Shrinks (t t' : Teardown) : Prop where
  /-- Nothing is forked. -/
  forks : t'.world.forks = t.world.forks
  /-- No daemon is signalled. -/
  kills : t'.world.kills = t.world.kills
  /-- The storage only loses daemons. -/
  spawns : ∀ a ∈ t'.world.spawns.toList, a ∈ t.world.spawns.toList

section Memory

variable {m : Machine} {a : Addr} {daemon : Daemon} {l : List Addr}

theorem Daemon.disarmed_disarmed (daemon : Daemon) : daemon.disarmed.Disarmed := by
  intro info
  cases hcode : info.code <;> simp [Siginfo.restarts, Daemon.disarmed, hcode]

theorem Daemon.finished_disarmed (daemon : Daemon) : daemon.finished.Disarmed :=
  daemon.disarmed_disarmed

/-- The end of the process of a disarmed daemon stops it. -/
theorem Machine.reaped_disarmed (info : Siginfo) (ha : m.heap a = some daemon)
    (hd : daemon.Disarmed) :
    m.reaped info (some a) = m.write a { daemon with state := .stopped } := by
  rw [reaped_some info ha, if_neg]
  rw [hd info]
  exact Bool.false_ne_true

/-- What disarming a daemon does. -/
theorem Machine.disarm_spec (hsound : m.Sound) (ha : m.heap a = some daemon) :
    (∀ b, (m.disarm a).heap b = if b = a then some daemon.finished else m.heap b) ∧
      (m.disarm a).kills = m.kills ++ m.finishes a ∧ (m.disarm a).forks = m.forks ∧
      (m.disarm a).children = m.children := by
  have hwrite : (m.write a daemon.disarmed).heap a = some daemon.disarmed := if_pos rfl
  simp only [disarm, ha, finishes]
  by_cases hs : daemon.state = .started
  · have hfind := hsound.find_process ha (by rw [hs]; decide)
    rw [stop_started hwrite hs, if_pos hs]
    refine ⟨fun b => ?_, ?_, rfl, rfl⟩
    · simp only [write_heap, kill_heap, Daemon.finished, if_pos hs]
      split <;> rfl
    · rw [← hfind]
      rfl
  · rw [stop_other hwrite hs, if_neg hs]
    refine ⟨fun b => ?_, (List.append_nil _).symm, rfl, rfl⟩
    rw [write_heap, Daemon.finished, if_neg hs]
    rfl

/-- What disarming daemons one after the other does. -/
theorem Machine.foldl_disarm_spec (hsound : m.Sound) (hnodup : l.Nodup)
    (hlive : ∀ a ∈ l, ∃ daemon, m.heap a = some daemon) :
    (∀ b, (l.foldl disarm m).heap b =
        if b ∈ l then (m.heap b).map Daemon.finished else m.heap b) ∧
      (l.foldl disarm m).kills = m.kills ++ l.flatMap m.finishes ∧
      (l.foldl disarm m).forks = m.forks ∧ (l.foldl disarm m).children = m.children := by
  induction l generalizing m with
  | nil => simp
  | cons a l ih =>
    obtain ⟨hnot, hnodup⟩ := List.nodup_cons.mp hnodup
    obtain ⟨daemon, ha⟩ := hlive a List.mem_cons_self
    obtain ⟨hheap, hkills, hforks, hchildren⟩ := disarm_spec hsound ha
    have hother : ∀ b ∈ l, (m.disarm a).heap b = m.heap b := by
      intro b hb
      rw [hheap, if_neg]
      rintro rfl
      exact hnot hb
    obtain ⟨hheap', hkills', hforks', hchildren'⟩ := ih (hsound.disarm a) hnodup fun b hb => by
      rw [hother b hb]
      exact hlive b (List.mem_cons_of_mem _ hb)
    refine ⟨fun b => ?_, ?_, hforks'.trans hforks, hchildren'.trans hchildren⟩
    · rw [List.foldl_cons, hheap', hheap]
      by_cases hb : b = a
      · subst hb
        simp [hnot, ha]
      · simp [hb]
    · have hsame : l.flatMap (m.disarm a).finishes = l.flatMap m.finishes := by
        apply List.flatMap_congr
        intro b hb
        rw [finishes, finishes, hother b hb]
      rw [List.foldl_cons, hkills', hkills, hsame, List.flatMap_cons, List.append_assoc]

/-- A daemon is only finished by its own signals. -/
theorem Machine.filter_finishes (m : Machine) (a b : Addr) :
    (m.finishes b).filter (fun k => k.daemon = a) = if b = a then m.finishes a else [] := by
  have hown : ∀ k ∈ m.finishes b, k.daemon = b := by
    intro k hk
    rw [finishes] at hk
    split at hk
    · split at hk
      · rw [List.mem_singleton.mp hk]
      · cases hk
    · cases hk
  split
  · rename_i heq
    rw [← heq]
    exact List.filter_eq_self.mpr fun k hk => by simp [hown k hk]
  · rename_i hne
    exact List.filter_eq_nil_iff.mpr fun k hk => by simp [hown k hk, hne]

/-- Each daemon of a list is only finished once. -/
theorem Machine.filter_flatMap_finishes (m : Machine) (a : Addr) (hnodup : l.Nodup) :
    (l.flatMap m.finishes).filter (fun k => k.daemon = a) =
      if a ∈ l then m.finishes a else [] := by
  induction l with
  | nil => simp
  | cons b l ih =>
    obtain ⟨hnot, hnodup⟩ := List.nodup_cons.mp hnodup
    rw [List.flatMap_cons, List.filter_append, m.filter_finishes, ih hnodup]
    by_cases hb : b = a
    · subst hb
      simp [hnot]
    · simp [hb, Ne.symm hb]

end Memory

section Steps

variable {w : World} {t t' t'' : Teardown} {ndebug : Bool} {a : Addr}

theorem Teardown.Shrinks.refl (t : Teardown) : t.Shrinks t := ⟨rfl, rfl, fun _ ha => ha⟩

theorem Teardown.Shrinks.trans (h : t.Shrinks t') (h' : t'.Shrinks t'') : t.Shrinks t'' :=
  ⟨h'.forks.trans h.forks, h'.kills.trans h.kills, fun a ha => h.spawns a (h'.spawns a ha)⟩

/-- Without any child there is no daemon that runs. -/
theorem Indexed.empty (h : Indexed w.toMachine w.spawns) (hchildren : w.children = []) :
    spawnsEmpty w = true := by
  rw [spawnsEmpty]
  cases hs : w.spawns with
  | null => rfl
  | node element left right height =>
    have hmem : element ∈ w.spawns.toList := by
      rw [hs]
      simp
    obtain ⟨daemon, hheap, hrun⟩ := (h.mem element).mp hmem
    have hchild := h.sound.running element daemon hheap hrun
    rw [hchildren] at hchild
    cases hchild

/-- Daemons are destroyed one after the other. -/
theorem Indexed.destroyEach {l : List Addr} (h : Indexed w.toMachine w.spawns)
    (hnodup : l.Nodup) (hlive : ∀ a ∈ l, ∃ daemon, w.heap a = some daemon) :
    ∃ spawns, l.foldlM (fun w a => daemonDestroy a w) w =
        .ok ⟨l.foldl Machine.free w.toMachine, w.daemons, spawns⟩ ∧
      Indexed (l.foldl Machine.free w.toMachine) spawns := by
  induction l generalizing w with
  | nil => exact ⟨w.spawns, rfl, h⟩
  | cons a l ih =>
    obtain ⟨hnot, hnodup⟩ := List.nodup_cons.mp hnodup
    obtain ⟨daemon, ha⟩ := hlive a List.mem_cons_self
    obtain ⟨spawns, hdestroy, hindexed⟩ := daemonDestroy_ok h ha
    obtain ⟨spawns', hrest, hindexed'⟩ := @ih ⟨w.free a, w.daemons, spawns⟩ hindexed hnodup
      fun b hb => by
        rw [Machine.free_heap, if_neg]
        · exact hlive b (List.mem_cons_of_mem _ hb)
        · rintro rfl
          exact hnot hb
    refine ⟨spawns', ?_, hindexed'⟩
    rw [List.foldlM_cons, hdestroy, except_bind_ok]
    exact hrest

/-- `configuration_cleanup` frees the daemons, and leaves no process behind. -/
theorem configurationCleanup_ok (h : w.Invariant) (hchildren : w.children = []) :
    ∃ w', configurationCleanup w = .ok w' ∧ w'.children = [] ∧ spawnsEmpty w' = true ∧
      w'.forks = w.forks ∧ w'.kills = w.kills := by
  have hnodup : w.daemons.preorder.Nodup :=
    w.daemons.preorder_perm.nodup_iff.mpr h.owned.wellFormed.sorted.nodup
  obtain ⟨spawns, hdestroy, hindexed⟩ := h.indexed.destroyEach hnodup fun a ha =>
    (h.owned.live a).mp (Or.inl (w.daemons.preorder_perm.mem_iff.mp ha))
  obtain ⟨-, -, hforks, hkills, hchildren'⟩ := foldl_free w.daemons.preorder w.toMachine
  rw [hchildren] at hchildren'
  rw [configurationCleanup, treeMutate_eq]
  exact ⟨_, hdestroy, hchildren', hindexed.empty hchildren', hforks, hkills⟩

/-- An empty storage holds no daemon. -/
theorem spawnsEmpty_toList (h : spawnsEmpty w = true) : w.spawns.toList = [] := by
  rw [spawnsEmpty] at h
  cases hs : w.spawns with
  | null => simp
  | node element left right height =>
    rw [hs] at h
    cases h

/-- The teardown is closed without any child. -/
theorem Teardown.Quiet.close (ht : t.Quiet) (hphase : t.phase ≠ .synced)
    (hchildren : t.world.children = []) :
    ∃ t', t.close ndebug = .ok t' ∧ t'.Quiet ∧ t.Shrinks t' := by
  have hinv := ht.invariant hphase
  have hempty := hinv.indexed.empty hchildren
  have hclosed : ∀ w', w'.children = [] → spawnsEmpty w' = true → w'.forks = t.world.forks →
      w'.kills = t.world.kills → Teardown.Quiet { t with world := w', phase := .synced } ∧
        t.Shrinks { t with world := w', phase := .synced } := by
    intro w' hchildren' hempty' hforks hkills
    have hnone : w'.spawns.toList = [] := spawnsEmpty_toList hempty'
    refine ⟨⟨fun h => absurd rfl h, ?_, fun _ => ⟨hchildren', hempty'⟩⟩, hforks, hkills, ?_⟩
    · rw [hnone]
      exact fun _ ha => nomatch ha
    · rw [hnone]
      exact fun _ ha => nomatch ha
  rw [Teardown.close]
  split
  · exact ⟨_, rfl, hclosed t.world hchildren hempty rfl rfl⟩
  · obtain ⟨w', hw', hchildren', hempty', hforks, hkills⟩ :=
      configurationCleanup_ok hinv hchildren
    rw [hw']
    exact ⟨_, rfl, hclosed w' hchildren' hempty' hforks hkills⟩

/-- Going elsewhere changes nothing else, before the end. -/
theorem Teardown.Quiet.move (ht : t.Quiet) (hphase : t.phase ≠ .synced) (sigalrm : Bool)
    {phase : TeardownPhase} (hnext : phase ≠ .synced) :
    Teardown.Quiet ⟨t.world, sigalrm, phase⟩ :=
  ⟨fun _ => ht.invariant hphase, ht.disarmed, fun h => absurd h hnext⟩

/-- An adopted process does not start any daemon. -/
theorem Teardown.Quiet.adopt (ht : t.Quiet) (hphase : t.phase ≠ .synced) (pid : Int) :
    Teardown.Quiet { t with world := { t.world with toMachine := t.world.adopt pid } } ∧
      t.Shrinks { t with world := { t.world with toMachine := t.world.adopt pid } } := by
  have hsame : (t.world.adopt pid).heap = t.world.heap ∧
      (t.world.adopt pid).forks = t.world.forks ∧ (t.world.adopt pid).kills = t.world.kills := by
    rw [Machine.adopt]
    split <;> exact ⟨rfl, rfl, rfl⟩
  refine ⟨⟨fun _ => adopt_ok (ht.invariant hphase) pid, ?_, fun h => absurd h hphase⟩,
    hsame.2.1, hsame.2.2, fun _ ha => ha⟩
  rw [hsame.1]
  exact ht.disarmed

/-- A child that is waited for does not start any daemon. -/
theorem Teardown.Quiet.reap (ht : t.Quiet) (hphase : t.phase ≠ .synced) (info : Siginfo) :
    ∃ t', t.reap info = .ok t' ∧ t'.Quiet ∧ t.Shrinks t' := by
  rw [Teardown.reap]
  cases hwait : t.world.waitid info.pid with
  | none => exact ⟨t, rfl, ht, .refl t⟩
  | some m =>
    have hinv := ht.invariant hphase
    obtain ⟨found, spawns, hreap, hindexed, hfound⟩ := reapChild_ok hinv.indexed hwait
    have hnames := (sameNames_waitid hwait).trans (Machine.sameNames_reaped m info found)
    obtain ⟨-, hm⟩ := Machine.waitid_some hwait
    have hheap : m.heap = t.world.heap := by rw [hm]
    have hforks : m.forks = t.world.forks := by rw [hm]
    have hkills : m.kills = t.world.kills := by rw [hm]
    -- The daemon whose process it was is stopped, and nothing else happens.
    have heffect : (m.reaped info found).forks = t.world.forks ∧
        (m.reaped info found).kills = t.world.kills ∧
        ∀ b, (m.reaped info found).Running b → (m.reaped info found).heap b = t.world.heap b := by
      cases found with
      | none => exact ⟨hforks, hkills, fun b _ => congrFun hheap b⟩
      | some a =>
        obtain ⟨daemon, ha, hrun, -⟩ := (hfound a).mp rfl
        obtain ⟨daemon', ha', hdisarmed⟩ :=
          ht.disarmed a ((hinv.indexed.mem a).mpr ⟨daemon, ha, hrun⟩)
        rw [← hheap] at ha'
        rw [Machine.reaped_disarmed info ha' hdisarmed]
        refine ⟨hforks, hkills, fun b hb => ?_⟩
        obtain ⟨d, hd, hrun'⟩ := hb
        rw [Machine.write_heap] at hd ⊢
        split at hd
        · cases hd
          exact absurd rfl hrun'
        · rename_i hne
          rw [if_neg hne, hheap]
    have hspawns : ∀ b ∈ spawns.toList, b ∈ t.world.spawns.toList ∧
        (m.reaped info found).heap b = t.world.heap b := by
      intro b hb
      have hrun := (hindexed.mem b).mp hb
      have hsame := heffect.2.2 b hrun
      obtain ⟨daemon, hd, hs⟩ := hrun
      rw [hsame] at hd
      exact ⟨(hinv.indexed.mem b).mpr ⟨daemon, hd, hs⟩, hsame⟩
    simp only [hreap, except_bind_ok]
    refine ⟨_, rfl, ⟨fun _ => ⟨hindexed, hinv.owned.congr hnames⟩, fun b hb => ?_,
      fun h => absurd h hphase⟩, heffect.1, heffect.2.1, fun b hb => (hspawns b hb).1⟩
    obtain ⟨hold, hsame⟩ := hspawns b hb
    obtain ⟨daemon, hd, hdisarmed⟩ := ht.disarmed b hold
    exact ⟨daemon, hsame.trans hd, hdisarmed⟩

/-- The waiting loop is only left towards the end without any child. -/
theorem Teardown.Quiet.reaped (ht : t.Quiet) (hphase : t.phase ≠ .synced) :
    ∃ t', t.reaped ndebug t.world.waitNothing = .ok t' ∧ t'.Quiet ∧ t.Shrinks t' := by
  rw [Teardown.reaped]
  by_cases hchildren : t.world.children = []
  · have hstatus : t.world.waitNothing = -1 := if_pos hchildren
    simp only [hstatus]
    exact ht.close hphase hchildren
  · have hstatus : t.world.waitNothing = 0 := if_neg hchildren
    simp only [hstatus, decide_true, Bool.true_and, if_true]
    split
    · exact ⟨_, rfl, ht.move hphase _ (by decide), rfl, rfl, fun _ ha => ha⟩
    · exact ⟨_, rfl, ht.move hphase _ (by decide), rfl, rfl, fun _ ha => ha⟩

/-- The last reaping only ends without any child. -/
theorem Teardown.Quiet.ended (ht : t.Quiet) (hphase : t.phase ≠ .synced) :
    ∃ t', (if t.world.waitNothing = 0 then .ok t else t.close ndebug) = .ok t' ∧ t'.Quiet ∧
      t.Shrinks t' := by
  split
  · exact ⟨t, rfl, ht, .refl t⟩
  · rename_i hstatus
    apply ht.close hphase
    by_contra hchildren
    exact hstatus (if_neg hchildren)

/-- Every event keeps the teardown quiet. -/
theorem Teardown.Quiet.step (ht : t.Quiet) (event : TeardownEvent) :
    ∃ t', t.step ndebug event = .ok t' ∧ t'.Quiet ∧ t.Shrinks t' := by
  have hstay : ∃ t', Except.ok t = (Except.ok t' : Except Trap Teardown) ∧ t'.Quiet ∧
      t.Shrinks t' := ⟨t, rfl, ht, .refl t⟩
  obtain ⟨w, sigalrm, phase⟩ := t
  unfold Teardown.step
  cases phase with
  | suspended =>
    have hbefore : TeardownPhase.suspended ≠ .synced := by decide
    cases event with
    | adopt pid => exact ⟨_, rfl, ht.adopt hbefore pid⟩
    | signal alarm => exact ⟨_, rfl, ht.move hbefore _ (by decide), rfl, rfl, fun _ ha => ha⟩
    | terminated info => exact hstay
    | nothing => exact hstay
  | reaping =>
    have hbefore : TeardownPhase.reaping ≠ .synced := by decide
    cases event with
    | adopt pid => exact ⟨_, rfl, ht.adopt hbefore pid⟩
    | signal alarm => exact hstay
    | terminated info => exact ht.reap hbefore info
    | nothing => exact ht.reaped hbefore
  | ending =>
    have hbefore : TeardownPhase.ending ≠ .synced := by decide
    cases event with
    | adopt pid => exact ⟨_, rfl, ht.adopt hbefore pid⟩
    | signal alarm => exact hstay
    | terminated info => exact ht.reap hbefore info
    | nothing => exact ht.ended hbefore
  | synced => exact hstay

/-- Every run of events keeps the teardown quiet. -/
theorem Teardown.Quiet.run (ht : t.Quiet) (events : List TeardownEvent) :
    ∃ t', events.foldlM (Teardown.step ndebug) t = .ok t' ∧ t'.Quiet ∧ t.Shrinks t' := by
  induction events generalizing t with
  | nil => exact ⟨t, rfl, ht, .refl t⟩
  | cons event events ih =>
    obtain ⟨t', hstep, hquiet, hshrinks⟩ := @Teardown.Quiet.step t ndebug ht event
    obtain ⟨t'', hrun, hquiet', hshrinks'⟩ := ih hquiet
    refine ⟨t'', ?_, hquiet', hshrinks.trans hshrinks'⟩
    rw [List.foldlM_cons, hstep, except_bind_ok]
    exact hrun

/-- `spawns_stop` disarms the daemons that run, and signals those that are started. -/
theorem spawnsStop_quiet (h : w.Invariant) :
    ∃ w', spawnsStop w = .ok w' ∧ Teardown.Quiet ⟨w', false, .suspended⟩ ∧
      Teardown.Finishes w ⟨w', false, .suspended⟩ := by
  have hmem : ∀ a, a ∈ w.spawns.preorder ↔ a ∈ w.spawns.toList :=
    fun a => w.spawns.preorder_perm.mem_iff
  have hnodup : w.spawns.preorder.Nodup :=
    w.spawns.preorder_perm.nodup_iff.mpr h.indexed.wellFormed.sorted.nodup
  have hlive : ∀ a ∈ w.spawns.preorder, ∃ daemon, w.heap a = some daemon := by
    intro a ha
    obtain ⟨daemon, hheap, -⟩ := (h.indexed.mem a).mp ((hmem a).mp ha)
    exact ⟨daemon, hheap⟩
  obtain ⟨hheap, hkills, hforks, -⟩ := Machine.foldl_disarm_spec h.indexed.sound hnodup hlive
  obtain ⟨m, hstop, hindexed, hsame⟩ := spawnsStop_ok h.indexed
  rw [spawnsStop_eq h.indexed] at hstop
  cases hstop
  have hinv := h.owned.congr hsame.sameNames
  refine ⟨_, spawnsStop_eq h.indexed,
    ⟨fun _ => ⟨hindexed, hinv⟩, fun a ha => ?_, fun hend => by cases hend⟩, hforks,
    fun _ ha => ha, ⟨_, hkills, fun a => ?_⟩, fun hend => by cases hend⟩
  · obtain ⟨daemon, ha'⟩ := hlive a ((hmem a).mpr ha)
    refine ⟨daemon.finished, ?_, daemon.finished_disarmed⟩
    rw [hheap, if_pos ((hmem a).mpr ha), ha', Option.map_some]
  · rw [w.filter_flatMap_finishes a hnodup, ite_eq_left_iff]
    intro hnot
    rw [hmem, h.indexed.mem] at hnot
    rw [Machine.finishes]
    split
    · rename_i daemon hd
      rw [if_neg]
      intro hs
      exact hnot ⟨daemon, hd, by rw [hs]; decide⟩
    · rfl

/-- Later states of the teardown have done the same. -/
theorem Teardown.Finishes.shrinks (h : Teardown.Finishes w t) (hs : t.Shrinks t')
    (ht : t'.Quiet) : Teardown.Finishes w t' := by
  constructor
  · rw [hs.forks]
    exact h.forks
  · exact fun a ha => h.spawns a (hs.spawns a ha)
  · rw [hs.kills]
    exact h.kills
  · exact ht.synced

/-- In every teardown of every run, whatever terminates, is adopted or rings: no process is
forked, each started daemon is signalled once, the spawns only lose daemons, and at the end
no child is left. -/
theorem teardown_over_runs (ndebug : Bool) (host : Host) (boot : Boot) (events : List Event) :
    Outcome (Unreadable (runEntries boot events))
      (fun w => ∀ before after, ∃ t t', teardown ndebug w before = .ok t ∧
        teardown ndebug w (before ++ after) = .ok t' ∧ Teardown.Finishes w t ∧ t.Shrinks t')
      (World.run host boot events) := by
  refine (World.run_ok host boot events).mono (fun w hw before after => ?_) fun _ ht => ht
  obtain ⟨w', hstop, hquiet, hfinishes⟩ := spawnsStop_quiet hw
  obtain ⟨t, hrun, ht, hshrinks⟩ := @Teardown.Quiet.run _ ndebug hquiet before
  obtain ⟨t', hrun', -, hshrinks'⟩ := @Teardown.Quiet.run _ ndebug ht after
  refine ⟨t, t', ?_, ?_, hfinishes.shrinks hshrinks ht, hshrinks'⟩
  · rw [teardown, hstop, except_bind_ok, hrun]
  · rw [teardown, hstop, except_bind_ok, List.foldlM_append, hrun, except_bind_ok, hrun']

end Steps

end Cyberd
