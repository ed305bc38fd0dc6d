import Cyberd.Main.Sound
import Cyberd.Server.Releases

/-!
# What the signals amount to

Whatever signals are sent and delivered, the main loop is a run of the server, and the
teardown is the teardown of the daemons of a state that a run has reached. The program only
stops at an event at which the run of the server that has led there stops. Once it is in its
teardown, nothing is left of the switch.
-/

namespace Cyberd

open Library

/-- Where the teardown of the daemons is. -/
def MainPhase.teardown : MainPhase → TeardownPhase
  | .sweeping => .reaping
  | .ending => .ending
  | .rebooting => .synced
  | .selecting | .interrupted | .reloading | .reaping | .leaving | .suspended | .woken =>
    .suspended

/-- The event of the server that is handled. -/
def MainEvent.served : MainEvent → Option ServerEvent
  | .adopt pid => some (.adopt pid)
  | .ready selected answers _ => some (.round selected answers)
  | .reload dirp answer => some (.reload dirp answer)
  | .reported info => some (.reap [info])
  | .terminated _ _ | .sent _ _ _ | .deliver _ | .interrupt | .failure | .nothing
  | .teardown => none

namespace Program

/-- The main loop stops at an event that can happen: a run of the server leads to the state of
its server, and stops there at the event. -/
def Stops (platform : Platform) (host : Host) (boot : ServerBoot) (p : Program)
    (event : MainEvent) (trap : Trap) : Prop :=
  p.phase.tearsDown = false ∧ p.Enabled event ∧
    ∃ happened served, event.served = some served ∧
      Server.run platform host boot happened = .ok p.server ∧
      Server.run platform host boot (happened ++ [served]) = .error trap ∧
      p.server.Stops platform served trap

/-- Why a run may stop: the server does in its first load, or the main loop does at one of the
events. -/
def Halts (platform : Platform) (host : Host) (ndebug : Bool) (boot : ServerBoot)
    (events : List MainEvent) (trap : Trap) : Prop :=
  Server.run platform host boot [] = .error trap ∧
      Unreadable ((boot.boot.dirp.map Directory.read).getD []) trap ∨
    ∃ before event after p, events = before ++ event :: after ∧
      run platform host ndebug boot before = .ok p ∧ p.Stops platform host boot event trap

/-- The teardown of the daemons. A signal is noticed when its system call returns. -/
def toTeardown (p : Program) : Teardown :=
  ⟨p.server.world, !p.phase.delivers && p.signals.sigalrm, p.phase.teardown⟩

/-- The teardown of the daemons is the one of the program, which has left nothing of the
switch. -/
def Tears (boot : ServerBoot) (t : Teardown) (p : Program) : Prop :=
  p.toTeardown = t ∧ p.phase.tearsDown = true ∧ p.server.Clean boot

/-- How the state was reached, without the signals. -/
inductive Refines (platform : Platform) (host : Host) (ndebug : Bool) (boot : ServerBoot)
    (p : Program) : Prop
  /-- The main loop has handled these events. -/
  | loop (events : List ServerEvent) (hphase : p.phase.tearsDown = false)
      (hrun : Server.run platform host boot events = .ok p.server)
  /-- The teardown has handled these events, after others of the main loop. -/
  | teardown (events : List ServerEvent) (s : Server) (happened : List TeardownEvent)
      (hphase : p.phase.tearsDown = true) (hrun : Server.run platform host boot events = .ok s)
      (hteardown : Cyberd.teardown ndebug s.world happened = .ok p.toTeardown)
      (hclean : p.server.Clean boot)

variable {platform : Platform} {host : Host} {ndebug : Bool} {boot : ServerBoot}
variable {p p' : Program} {s s' : Server}

section Loop

/-- A state that the main loop has reached is sound, and owns what it holds. -/
theorem reached_ok {events : List ServerEvent}
    (hrun : Server.run platform host boot events = .ok s) : s.Invariant ∧ s.Owned boot := by
  have howned := Server.run_owned platform host boot events
  rw [hrun] at howned
  exact howned

/-- One more event of a run of the server. -/
theorem serve_ok {events : List ServerEvent} (hrun : Server.run platform host boot events = .ok s)
    (event : ServerEvent) :
    Outcome (fun trap => Server.run platform host boot (events ++ [event]) = .error trap ∧
        s.Stops platform event trap)
      (fun s' => ∃ events, Server.run platform host boot events = .ok s')
      (s.step platform host event) := by
  have hnext : Server.run platform host boot (events ++ [event]) = s.step platform host event := by
    obtain ⟨s₀, hsetup, hevents⟩ := except_bind_eq_ok.mp hrun
    rw [Server.run, hsetup, except_bind_ok, List.foldlM_append, hevents, except_bind_ok]
    cases hstep : s.step platform host event with
    | ok s' => exact foldlM_cons_ok.mpr ⟨s', hstep, rfl⟩
    | error trap => simp only [List.foldlM_cons, hstep, except_bind_error]
  have hstep := @Server.step_ok s host platform (reached_ok hrun).1 event
  rw [hnext]
  cases hresult : s.step platform host event with
  | ok s' => exact ⟨events ++ [event], hnext.trans hresult⟩
  | error trap =>
    rw [hresult] at hstep
    exact ⟨rfl, hstep⟩

/-- The conditions of the main loop change nothing but the phase. -/
theorem loop_server (p : Program) : p.loop.server = p.server ∧ p.loop.phase.tearsDown = false := by
  rw [loop]
  split <;> exact ⟨rfl, rfl⟩

theorem checkChildren_server (p : Program) :
    p.checkChildren.server = p.server ∧ p.checkChildren.phase.tearsDown = false := by
  rw [checkChildren]
  split
  · exact ⟨rfl, rfl⟩
  · exact p.loop_server

theorem checkHangup_server (p : Program) :
    p.checkHangup.server = p.server ∧ p.checkHangup.phase.tearsDown = false := by
  rw [checkHangup]
  split
  · exact ⟨rfl, rfl⟩
  · exact p.checkChildren_server

end Loop

section Teardown

/-- The beginning of the teardown stops the daemons, and leaves nothing of the switch. -/
theorem startTeardown_ok (hinv : p.server.Invariant) (howned : p.server.Owned boot) :
    ∃ t p', p.startTeardown = .ok p' ∧ Cyberd.teardown ndebug p.server.world [] = .ok t ∧
      Tears boot t p' := by
  obtain ⟨w, hstop, hquiet, -⟩ := spawnsStop_quiet hinv.world
  have hstopped : (p.server.record w).Invariant :=
    hinv.congr (hquiet.invariant TeardownPhase.noConfusion) rfl rfl rfl rfl rfl
  have howned' : (p.server.record w).Owned boot :=
    ⟨howned.resolve, howned.kept, howned.fds, howned.paths⟩
  obtain ⟨s, hswitch, hreleased⟩ := Server.socketSwitchTeardown_ok hstopped
  have hstart : p.startTeardown = .ok
      ⟨s, p.signals.signalsAlarm.2, p.signals.signalsAlarm.1, p.zombies, .suspended⟩ := by
    rw [startTeardown, hstop, except_bind_ok, hswitch, except_bind_ok]
    rfl
  refine ⟨⟨w, false, .suspended⟩, _, hstart, ?_, ?_, rfl, howned'.clean hstopped hreleased⟩
  · rw [Cyberd.teardown, hstop, except_bind_ok]
    rfl
  · simp only [toTeardown, hreleased.world]
    rfl

/-- A teardown that goes on. -/
theorem teardown_append {w : World} {t : Teardown} {happened more : List TeardownEvent}
    (hteardown : Cyberd.teardown ndebug w happened = .ok t) :
    Cyberd.teardown ndebug w (happened ++ more) = more.foldlM (Teardown.step ndebug) t := by
  obtain ⟨w', hstop, hevents⟩ := except_bind_eq_ok.mp hteardown
  rw [Cyberd.teardown, hstop, except_bind_ok, List.foldlM_append, hevents, except_bind_ok]

/-- A teardown that was reached from a sound state is quiet. -/
theorem teardown_quiet {w : World} {t : Teardown} {happened : List TeardownEvent}
    (hw : w.Invariant) (hteardown : Cyberd.teardown ndebug w happened = .ok t) : t.Quiet := by
  obtain ⟨w', hstop, hquiet, -⟩ := spawnsStop_quiet hw
  obtain ⟨t', hrun, ht, -⟩ := @Teardown.Quiet.run _ ndebug hquiet happened
  rw [Cyberd.teardown, hstop, except_bind_ok, hrun] at hteardown
  cases hteardown
  exact ht

/-- `reap_children` on one child is one iteration of its loop. -/
theorem step_reap_eq (host : Host) (w : World) (info : Siginfo) (sigalrm : Bool)
    (phase : TeardownPhase) :
    Teardown.reap info ⟨w, sigalrm, phase⟩ = do
      let w ← w.step host (.reap [info])
      return ⟨w, sigalrm, phase⟩ := by
  simp only [Teardown.reap, World.step, reapChildren]
  cases w.waitid info.pid with
  | none => rfl
  | some m =>
    simp only
    cases reapChild info { w with toMachine := m } <;> rfl

/-- What is left of the switch stays so while children are waited for. -/
theorem clean_record (h : s.Clean boot) (w : World) : (s.record w).Clean boot :=
  ⟨h.nodes, h.fds, h.paths⟩

/-- The end of the teardown is the one of the daemons. -/
theorem close_follows (hclean : p.server.Clean boot) (sigalrm : Bool) (phase : TeardownPhase)
    (hsame : p.signals.sigalrm = sigalrm) :
    Follows (Tears boot) (Teardown.close ndebug ⟨p.server.world, sigalrm, phase⟩)
      (p.close ndebug) := by
  subst hsame
  rw [Teardown.close, close]
  split
  · exact ⟨rfl, rfl, hclean⟩
  · cases configurationCleanup p.server.world with
    | ok w => exact ⟨rfl, rfl, clean_record hclean w⟩
    | error trap => exact rfl

/-- An event of the teardown is followed by some events of the one of the daemons. -/
theorem teardown_follows (hphase : p.phase.tearsDown = true)
    (hclean : p.server.Clean boot) (event : MainEvent) :
    ∃ happened : List TeardownEvent, Follows (Tears boot)
      (happened.foldlM (Teardown.step ndebug) p.toTeardown)
      (p.step platform host ndebug event) := by
  rw [Program.step]
  split
  swap
  · exact ⟨[], rfl, hphase, hclean⟩
  rename_i hcan
  obtain ⟨hbefore, henabled⟩ := hcan
  cases event with
  | terminated info sending =>
    refine ⟨[], ?_, hphase, hclean⟩
    simp only [toTeardown, send_sigalrm]
  | sent signal siginfo sending =>
    refine ⟨[], ?_, hphase, hclean⟩
    simp only [toTeardown, send_sigalrm]
  | adopt pid =>
    refine ⟨[.adopt pid], ?_⟩
    have hadopt : Teardown.step ndebug p.toTeardown (.adopt pid) =
        .ok { p.toTeardown with
          world := { p.server.world with toMachine := p.server.world.adopt pid } } := by
      cases hp : p.phase <;> first | exact absurd hp hbefore | simp only [toTeardown, hp]; rfl
    rw [List.foldlM_cons, hadopt]
    exact ⟨rfl, hphase, clean_record hclean _⟩
  | deliver signal =>
    obtain ⟨hdelivers, hmask, hpending⟩ := henabled
    refine ⟨[], ?_, ?_, hclean⟩
    · rcases MainPhase.delivers_teardown hdelivers hphase with hp | hp <;>
      · simp only [toTeardown, hp]
        rfl
    · simp only [(MainPhase.interrupt_eq hdelivers).1, hphase]
      rfl
  | interrupt =>
    have hp : p.phase = .woken := by
      refine henabled.resolve_left fun hp => ?_
      rw [hp] at hphase
      cases hphase
    refine ⟨[.signal p.signals.sigalrm], ?_⟩
    rw [act, if_pos hp, List.foldlM_cons]
    simp only [toTeardown, hp]
    exact ⟨rfl, rfl, hclean⟩
  | reported info =>
    refine ⟨[.terminated info], ?_⟩
    have hreap : Teardown.step ndebug p.toTeardown (.terminated info) =
        p.toTeardown.reap info := by
      rcases MainPhase.reaps_teardown henabled.1 hphase with hp | hp <;>
      · simp only [toTeardown, hp]
        rfl
    rw [List.foldlM_cons, hreap, toTeardown, step_reap_eq host, act, Server.step]
    cases p.server.world.step host (.reap [info]) with
    | ok w => exact ⟨rfl, hphase, clean_record hclean w⟩
    | error trap => exact rfl
  | nothing =>
    obtain ⟨hreaps, -, hchildren⟩ := henabled
    refine ⟨[.nothing], ?_⟩
    rw [List.foldlM_cons]
    simp only [List.foldlM_nil, bind_pure, act]
    rcases MainPhase.reaps_teardown hreaps hphase with hp | hp
    · simp only [toTeardown, hp, MainPhase.delivers, MainPhase.teardown, Bool.not_false,
        Bool.true_and, Teardown.step, Teardown.reaped, swept]
      split
      · rename_i hcondition
        simp only [Bool.and_eq_true, Bool.not_eq_true'] at hcondition
        refine ⟨?_, rfl, hclean⟩
        simp only [Program.goto, toTeardown, hcondition.1.2]
        rfl
      · split
        · exact ⟨rfl, rfl, hclean⟩
        · exact close_follows hclean _ _ rfl
    · have hnone : p.server.world.waitNothing = -1 := if_pos (hchildren hp)
      simp only [toTeardown, hp, MainPhase.delivers, MainPhase.teardown, Bool.not_false,
        Bool.true_and, Teardown.step, hnone]
      exact close_follows hclean _ _ rfl
  | failure | ready | reload | teardown =>
    have hp := henabled
    simp only [Enabled] at hp
    rw [hp] at hphase
    cases hphase

end Teardown

/-- Every event refines the server, then the teardown of its daemons. -/
theorem Refines.step (h : p.Refines platform host ndebug boot) (event : MainEvent) :
    Outcome (p.Stops platform host boot event)
      (fun p' => p'.Refines platform host ndebug boot) (p.step platform host ndebug event) := by
  cases h with
  | teardown events s happened hphase hrun hteardown hclean =>
    obtain ⟨more, hfollows⟩ := @teardown_follows platform host ndebug boot p hphase hclean event
    have hquiet := teardown_quiet (reached_ok hrun).1.world hteardown
    obtain ⟨t, ht, -, -⟩ := @Teardown.Quiet.run _ ndebug hquiet more
    have hmore := (teardown_append hteardown).trans ht
    rw [ht] at hfollows
    have hquiet' : Outcome (fun _ => False) (fun t' => t' = t) (Except.ok t : Except Trap _) := rfl
    refine (hfollows.outcome hquiet').mono ?_ fun _ hno => hno.elim
    rintro p' ⟨t', rfl, rfl, hphase', hclean'⟩
    exact .teardown events s (happened ++ more) hphase' hrun hmore hclean'
  | loop events hphase hrun =>
    -- The next state of the server is the one of one more event.
    have hserved : ∀ (served : ServerEvent) (next : Server → Program),
        p.Enabled event → event.served = some served →
        (∀ s, (next s).server = s ∧ (next s).phase.tearsDown = false) →
        Outcome (p.Stops platform host boot event)
          (fun p' => p'.Refines platform host ndebug boot)
          (next <$> p.server.step platform host served) := by
      intro served next hcan hevent hnext
      have hstops := (serve_ok hrun served).mono (fun _ hs => hs)
        fun trap (ht : _ ∧ p.server.Stops platform served trap) =>
          (⟨hphase, hcan, events, served, hevent, hrun, ht⟩ : p.Stops platform host boot event trap)
      rw [← bind_pure_comp]
      refine hstops.bind fun s hs => ?_
      obtain ⟨events', hs⟩ := hs
      exact .loop events' (hnext s).2 (by rw [(hnext s).1]; exact hs)
    have hstay : ∀ q : Program, q.server = p.server → q.phase.tearsDown = false →
        q.Refines platform host ndebug boot := fun q hserver htears =>
      .loop events htears (by rw [hserver]; exact hrun)
    rw [Program.step]
    split
    swap
    · exact hstay p rfl hphase
    rename_i hcan
    obtain ⟨-, henabled⟩ := hcan
    cases event with
    | terminated info sending => exact hstay _ rfl hphase
    | sent signal siginfo sending => exact hstay _ rfl hphase
    | adopt pid =>
      have hadopt := hserved (.adopt pid) (fun s => { p with server := s }) henabled rfl
        fun s => ⟨rfl, hphase⟩
      rw [← bind_pure_comp] at hadopt
      exact hadopt
    | deliver signal =>
      refine hstay _ rfl ?_
      simp only [(MainPhase.interrupt_eq henabled.1).1, hphase]
      rfl
    | interrupt =>
      have hp : p.phase ≠ .woken := by
        intro hp
        rw [hp] at hphase
        cases hphase
      rw [act, if_neg hp]
      exact hstay _ p.checkHangup_server.1 p.checkHangup_server.2
    | failure => exact hstay _ p.loop_server.1 p.loop_server.2
    | ready ready answers queues =>
      rw [act]
      have hround := serve_ok hrun (.round ready answers)
      rw [Server.step, ← Server.roundReboots_snd] at hround
      cases hresult : p.server.roundReboots platform host ready answers with
      | error trap =>
        rw [hresult] at hround
        exact ⟨hphase, henabled, events, .round ready answers, rfl, hrun, hround⟩
      | ok result =>
        rw [hresult] at hround
        obtain ⟨events', hrun'⟩ := hround
        have hloop := loop_server
          { p with server := result.2, signals := p.signals.queueReboots result.1 queues }
        exact .loop events' hloop.2 (by rw [hloop.1]; exact hrun')
    | reload dirp answer =>
      have hreload := hserved (.reload dirp answer)
        (fun s => checkChildren { p with
          server := s, signals := { p.signals with sighup := false } })
        henabled rfl fun s => checkChildren_server _
      rw [← bind_pure_comp] at hreload
      exact hreload
    | reported info =>
      have hreported := hserved (.reap [info])
        (fun s => { p with
          server := s
          zombies := p.zombies.filter fun zombie => zombie.pid ≠ info.pid })
        henabled rfl fun s => ⟨rfl, hphase⟩
      rw [← bind_pure_comp] at hreported
      exact hreported
    | nothing =>
      have hp : p.phase = .reaping := by
        revert hphase henabled
        rw [Enabled]
        cases p.phase <;> simp [MainPhase.tearsDown, MainPhase.reaps]
      rw [act, hp]
      exact hstay _ (loop_server _).1 (loop_server _).2
    | teardown =>
      obtain ⟨hinv, howned⟩ := reached_ok hrun
      obtain ⟨t, p', hstart, hteardown, rfl, htears, hclean⟩ :=
        @startTeardown_ok ndebug boot p hinv howned
      rw [act, hstart]
      exact .teardown events p.server [] htears hrun hteardown hclean

/-- The program is set up as the server is. -/
theorem setup_refines (platform : Platform) (host : Host) (ndebug : Bool) (boot : ServerBoot) :
    Outcome (fun trap => Server.run platform host boot [] = .error trap ∧
        Unreadable ((boot.boot.dirp.map Directory.read).getD []) trap)
      (fun p => p.Sound ∧ p.Refines platform host ndebug boot) (setup host boot) := by
  have hserver := Server.setup_ok host boot
  have hsetup : setup host boot = do
      let s ← Server.setup host boot
      return ⟨s, (Signals.initial.signalsSetup).2, (Signals.initial.signalsSetup).1, [],
        .selecting⟩ := rfl
  cases hs : Server.setup host boot with
  | ok s =>
    rw [hs, except_bind_ok] at hsetup
    have hrun : Server.run platform host boot [] = .ok s := by
      rw [Server.run, hs, except_bind_ok]
      rfl
    rw [hsetup]
    exact ⟨setup_sound hsetup, .loop [] rfl hrun⟩
  | error trap =>
    rw [hs] at hserver
    rw [hsetup, hs]
    refine ⟨?_, hserver⟩
    rw [Server.run, hs, except_bind_error]

/-- Every state of a run is sound, and is a state of the server or of the teardown of its
daemons. A run only stops where the run of the server does. -/
theorem run_ok (platform : Platform) (host : Host) (ndebug : Bool) (boot : ServerBoot)
    (events : List MainEvent) :
    Outcome (Halts platform host ndebug boot events)
      (fun p => p.Sound ∧ p.Refines platform host ndebug boot)
      (run platform host ndebug boot events) := by
  apply ((setup_refines platform host ndebug boot).result.mono (fun _ hp => hp)
    fun _ ht => Or.inl ht).bind
  rintro p₀ ⟨hsetup, hp⟩
  have hrun : ∀ done, run platform host ndebug boot done =
      done.foldlM (step platform host ndebug) p₀ := by
    intro done
    rw [run, hsetup, except_bind_ok]
  refine Outcome.foldlM_reached
    (fun _ (q : Program) => q.Sound ∧ q.Refines platform host ndebug boot) hp ?_
  rintro done event rest q hevents hdone ⟨hsound, hrefines⟩
  refine (hrefines.step event).result.mono ?_ fun trap ht =>
    Or.inr ⟨done, event, rest, q, hevents, (hrun done).trans hdone, ht⟩
  rintro q' ⟨hstep, hrefines'⟩
  exact ⟨hsound.step hstep, hrefines'⟩

/-- In every run, whatever the signals, the program is where a run of the server is, or where a
teardown of the daemons of such a run is, with nothing left of the switch. It only stops at an
event at which the run of the server that it refines stops. -/
theorem refines_over_runs (platform : Platform) (host : Host) (ndebug : Bool) (boot : ServerBoot)
    (events : List MainEvent) :
    Outcome (Halts platform host ndebug boot events)
      (fun p => p.Refines platform host ndebug boot) (run platform host ndebug boot events) :=
  (run_ok platform host ndebug boot events).mono (fun _ hp => hp.2) fun _ ht => ht

end Program

end Cyberd
