import Cyberd.Main.Refinement

/-!
# What the program waits for

The program only waits in a system call when nothing is left to do: no child has terminated
that was not waited for, and no signal is pending that the call would deliver. It handles
whatever is pending in a bounded number of steps, in whatever order the system gives it.
-/

namespace Cyberd

open Library

/-- The event is taken by the program itself, from what is pending. -/
def MainEvent.internal : MainEvent → Bool
  | .deliver _ | .interrupt | .reload _ _ | .reported _ | .nothing | .teardown => true
  | .terminated _ _ | .sent _ _ _ | .adopt _ | .failure | .ready _ _ _ => false

/-- How far the phase is from the next system call that waits. -/
def MainPhase.rank : MainPhase → Nat
  | .interrupted => 11
  | .selecting | .reloading | .reaping => 10
  | .leaving => 9
  | .woken => 7
  | .sweeping => 6
  | .suspended => 5
  | .ending => 4
  | .rebooting => 3

/-- How many signals are pending. -/
def Signals.pendingCount (s : Signals) : Nat :=
  (s.pending .sigterm).length + (s.pending .sigchld).length + (s.pending .sighup).length +
    (s.pending .sigalrm).length

namespace Program

/-- The program can go on by itself. -/
def Can (p : Program) (event : MainEvent) : Prop :=
  event.internal = true ∧ p.phase ≠ .rebooting ∧ p.Enabled event

/-- The program cannot go on by itself. -/
def Asleep (p : Program) : Prop := ∀ event, ¬ p.Can event

/-- There is nothing left to do. -/
inductive Rests (p : Program) : Prop
  /-- In `pselect(2)`, without any signal. -/
  | selecting (hphase : p.phase = .selecting) (hzombies : p.zombies = [])
      (hpending : ∀ signal, p.signals.pending signal = [])
      (hhup : p.signals.sighup = false) (hreboot : p.signals.sigreboot = 0)
  /-- In `sigsuspend(2)`, neither its alarm has rung nor a child has terminated. -/
  | suspended (hphase : p.phase = .suspended) (hzombies : p.zombies = [])
      (hchld : p.signals.pending .sigchld = []) (halrm : p.signals.pending .sigalrm = [])
      (hrang : p.signals.sigalrm = false)
  /-- In `waitid(2)`, all of the children that are left are running. -/
  | ending (hphase : p.phase = .ending) (hzombies : p.zombies = [])
      (hchildren : p.server.world.children ≠ [])
  /-- At `reboot(2)`. -/
  | rebooting (hphase : p.phase = .rebooting)

/-- The schedules of the steps that the program takes by itself. -/
abbrev Proceeds (platform : Platform) (host : Host) (ndebug : Bool) :
    Program → List MainEvent → Program → Prop :=
  Schedule (step platform host ndebug) Can

/-- A bound on the steps that the program takes by itself. -/
def rank (p : Program) : Nat :=
  8 * p.signals.pendingCount + p.zombies.length + 2 * p.signals.sighup.toNat +
    2 * p.signals.sigchld.toNat + p.phase.rank

variable {platform : Platform} {host : Host} {ndebug : Bool} {boot : ServerBoot}
variable {p p' : Program} {signal : Signal} {siginfo : SignalInfo}

/-- A sound state in which the program cannot go on has nothing left to do. -/
theorem Sound.rests (h : p.Sound) (hasleep : p.Asleep) : p.Rests := by
  have hflags := h.flags
  -- Where signals are delivered, none is pending that the mask lets through.
  have hdelivered : p.phase.delivers = true → ∀ signal, p.sigmask signal = false →
      p.signals.pending signal = [] := by
    intro hphase signal hmask
    by_contra hpending
    refine hasleep (.deliver signal) ⟨rfl, ?_, hphase, hmask, hpending⟩
    intro hp
    rw [hp] at hphase
    cases hphase
  have hreported : p.phase.reaps = true → p.zombies = [] := by
    intro hphase
    by_contra hz
    obtain ⟨info, infos, hz⟩ := List.exists_cons_of_ne_nil hz
    refine hasleep (.reported info) ⟨rfl, ?_, hphase, ?_⟩
    · intro hp
      rw [hp] at hphase
      cases hphase
    · rw [hz]
      exact List.mem_cons_self
  cases hp : p.phase with
  | selecting =>
    rw [hp] at hflags hdelivered
    have hnone : ∀ signal, p.signals.pending signal = [] := fun signal =>
      hdelivered rfl signal (by rw [h.sigmask, hp]; rfl)
    refine .selecting hp ?_ hnone hflags.1 hflags.2.2
    by_contra hz
    rcases h.noticed hz with hpending | hsweeps | ⟨-, hflag⟩
    · exact hpending (hnone .sigchld)
    · rw [hp] at hsweeps
      cases hsweeps
    · rw [hflags.2.1] at hflag
      cases hflag
  | suspended =>
    rw [hp] at hdelivered
    have hchld := hdelivered rfl .sigchld (by rw [h.sigmask, hp]; rfl)
    have halrm := hdelivered rfl .sigalrm (by rw [h.sigmask, hp]; rfl)
    refine .suspended hp ?_ hchld halrm (h.waits (Or.inr hp))
    by_contra hz
    rcases h.noticed hz with hpending | hsweeps | ⟨hno, -⟩
    · exact hpending hchld
    · rw [hp] at hsweeps
      cases hsweeps
    · rw [hp] at hno
      cases hno
  | ending =>
    refine .ending hp (hreported (by rw [hp]; rfl)) fun hchildren => ?_
    refine hasleep .nothing ⟨rfl, by rw [hp]; decide, by rw [hp]; rfl, ?_, fun _ => hchildren⟩
    exact hreported (by rw [hp]; rfl)
  | rebooting => exact .rebooting hp
  | interrupted =>
    exact absurd ⟨rfl, by rw [hp]; decide, Or.inl hp⟩ (hasleep .interrupt)
  | woken => exact absurd ⟨rfl, by rw [hp]; decide, Or.inr hp⟩ (hasleep .interrupt)
  | reloading =>
    exact absurd ⟨rfl, by rw [hp]; decide, hp⟩ (hasleep (.reload none ⟨none, fun _ => none⟩))
  | leaving => exact absurd ⟨rfl, by rw [hp]; decide, hp⟩ (hasleep .teardown)
  | reaping | sweeping =>
    refine absurd ⟨rfl, by rw [hp]; decide, by rw [hp]; rfl, hreported (by rw [hp]; rfl), ?_⟩
      (hasleep .nothing)
    intro hno
    rw [hp] at hno
    cases hno

/-- A delivery takes one signal, and raises at most one flag. -/
theorem deliver_rank (hpending : p.signals.pending signal ≠ []) :
    (p.signals.deliver signal).pendingCount + 1 = p.signals.pendingCount ∧
      (p.signals.deliver signal).sighup.toNat + (p.signals.deliver signal).sigchld.toNat ≤
        p.signals.sighup.toNat + p.signals.sigchld.toNat + 1 := by
  obtain ⟨siginfo, infos, heq⟩ := List.exists_cons_of_ne_nil hpending
  rw [deliver_eq heq]
  obtain ⟨-, -, hwaiting⟩ := handle_frame signal siginfo (p.signals.setPending signal infos)
  obtain ⟨hchld, hhup, -⟩ := handle_flags signal siginfo (p.signals.setPending signal infos)
  constructor
  · rw [Signals.pendingCount, Signals.pendingCount, hwaiting]
    cases signal <;>
    · simp only [setPending_pending, heq, List.length_cons, if_true, reduceCtorEq, if_false]
      omega
  · rw [hchld, hhup]
    change (p.signals.sighup || _).toNat + (p.signals.sigchld || _).toNat ≤ _
    cases signal <;> cases p.signals.sighup <;> cases p.signals.sigchld <;> decide

/-- An interruption is no further than three steps away from its system call. -/
theorem interrupt_rank (phase : MainPhase) : phase.interrupt.rank ≤ phase.rank + 2 := by
  cases phase <;> decide

/-- Every step that the program takes by itself decreases the bound. -/
theorem Sound.rank_lt (h : p.Sound) {event : MainEvent} (hcan : p.Can event)
    (hstep : p.step platform host ndebug event = .ok p') : p'.rank < p.rank := by
  obtain ⟨hinternal, hbefore, henabled⟩ := hcan
  rw [Program.step, if_pos ⟨hbefore, henabled⟩] at hstep
  have hflags := h.flags
  cases event with
  | terminated | sent | adopt | failure | ready => cases hinternal
  | deliver signal =>
    cases hstep
    obtain ⟨hcount, hraised⟩ := deliver_rank henabled.2.2
    have hphase := interrupt_rank p.phase
    simp only [rank]
    omega
  | interrupt =>
    cases hstep
    split
    · rename_i hp
      simp only [rank, Program.goto, hp, MainPhase.rank]
      omega
    · rename_i hp
      have hp' := henabled.resolve_right hp
      obtain ⟨phase, heq, -, hphase⟩ := p.checkHangup_cases
      rw [heq]
      rcases hphase with rfl | rfl | rfl | rfl <;>
      · simp only [rank, Program.goto, hp', MainPhase.rank]
        omega
  | reload dirp answer =>
    have hp : p.phase = .reloading := henabled
    rw [hp] at hflags
    have hhup : p.signals.sighup = true := hflags
    obtain ⟨s, -, hstep⟩ := except_bind_eq_ok.mp hstep
    cases hstep
    obtain ⟨phase, heq, -, hphase⟩ := checkChildren_cases
      { p with server := s, signals := { p.signals with sighup := false } } rfl
    rw [heq]
    rcases hphase with rfl | rfl | rfl <;>
    · simp only [rank, Program.goto, hp, hhup, Signals.pendingCount, MainPhase.rank,
        Bool.toNat_true, Bool.toNat_false]
      omega
  | reported info =>
    obtain ⟨s, -, hstep⟩ := except_bind_eq_ok.mp hstep
    cases hstep
    have hlt : (p.zombies.filter fun zombie => zombie.pid ≠ info.pid).length <
        p.zombies.length := by
      apply List.length_filter_lt_length_iff_exists.mpr
      exact ⟨info, henabled.2, by simp⟩
    simp only [rank]
    omega
  | nothing =>
    obtain ⟨hreaps, hz, hchildren⟩ := henabled
    rw [act] at hstep
    have hclose : p.phase.rank = 6 ∨ p.phase.rank = 4 → ∀ q, p.close ndebug = .ok q →
        q.rank < p.rank := by
      intro hp q hq
      rw [Program.close] at hq
      split at hq
      · cases hq
        simp only [rank, Program.goto, MainPhase.rank] at hp ⊢
        omega
      · obtain ⟨w, -, hq⟩ := except_bind_eq_ok.mp hq
        cases hq
        simp only [rank, MainPhase.rank] at hp ⊢
        omega
    cases hp : p.phase with
    | sweeping =>
      simp only [hp, swept] at hstep
      split at hstep
      · cases hstep
        simp only [rank, Program.goto, hp, MainPhase.rank]
        omega
      · split at hstep
        · cases hstep
          simp only [rank, Program.goto, hp, MainPhase.rank]
          omega
        · exact hclose (Or.inl (by rw [hp]; rfl)) p' hstep
    | ending =>
      simp only [hp] at hstep
      exact hclose (Or.inr (by rw [hp]; rfl)) p' hstep
    | reaping =>
      rw [hp] at hflags
      simp only [hp] at hstep
      cases hstep
      obtain ⟨phase, heq, -, hphase⟩ := loop_cases
        { p with signals := { p.signals with sigchld := false } } hflags.1 rfl
      simp only [hp] at heq
      rw [heq]
      rcases hphase with rfl | rfl <;>
      · simp only [rank, Program.goto, hp, hflags.2, Signals.pendingCount, MainPhase.rank,
          Bool.toNat_true, Bool.toNat_false]
        omega
    | selecting | interrupted | reloading | leaving | suspended | woken | rebooting =>
      rw [hp] at hreaps
      cases hreaps
  | teardown =>
    have hp : p.phase = .leaving := henabled
    obtain ⟨w, -, hstep⟩ := except_bind_eq_ok.mp hstep
    obtain ⟨s, -, hstep⟩ := except_bind_eq_ok.mp hstep
    cases hstep
    simp only [rank, hp, Signals.sigaction, Signals.pendingCount, MainPhase.rank]
    omega

/-- As long as the program can go on, some step of it returns. -/
theorem Refines.proceeds (h : p.Refines platform host ndebug boot) {event : MainEvent}
    (hcan : p.Can event) :
    ∃ event p', p.Can event ∧ p.step platform host ndebug event = .ok p' := by
  have hact : ∀ event, p.Can event →
      p.step platform host ndebug event = p.act platform host ndebug event :=
    fun event hcan => if_pos hcan.2
  cases h with
  | teardown events s happened hphase hrun hteardown hclean =>
    obtain ⟨more, hfollows⟩ := @teardown_follows platform host ndebug boot p hphase hclean event
    obtain ⟨t, ht, -, -⟩ := @Teardown.Quiet.run _ ndebug
      (teardown_quiet (reached_ok hrun).1.world hteardown) more
    rw [ht] at hfollows
    cases hstep : p.step platform host ndebug event with
    | ok p' => exact ⟨event, p', hcan, hstep⟩
    | error trap =>
      rw [hstep] at hfollows
      exact hfollows.elim
  | loop events hphase hrun =>
    obtain ⟨hinv, howned⟩ := reached_ok hrun
    cases event with
    | deliver signal => exact ⟨_, _, hcan, hact _ hcan⟩
    | interrupt => exact ⟨_, _, hcan, hact _ hcan⟩
    | reload dirp answer =>
      have hcan' : p.Can (.reload none answer) := hcan
      exact ⟨_, _, hcan', hact _ hcan'⟩
    | reported info =>
      have hreap := @Server.step_ok _ host platform hinv (.reap [info])
      cases hs : p.server.step platform host (.reap [info]) with
      | ok s =>
        have hreported : p.act platform host ndebug (.reported info) = .ok { p with
            server := s
            zombies := p.zombies.filter fun zombie => zombie.pid ≠ info.pid } := by
          rw [act, hs]
          rfl
        exact ⟨_, _, hcan, (hact _ hcan).trans hreported⟩
      | error trap =>
        rw [hs] at hreap
        exact hreap.elim
    | nothing =>
      have hp : p.phase = .reaping := by
        have hreaps := hcan.2.2.1
        revert hphase hreaps
        cases p.phase <;> simp [MainPhase.tearsDown, MainPhase.reaps]
      have hnothing : p.act platform host ndebug .nothing =
          .ok { p with signals := { p.signals with sigchld := false } }.loop := by
        simp only [act, hp]
      exact ⟨_, _, hcan, (hact _ hcan).trans hnothing⟩
    | teardown =>
      obtain ⟨t, p', hstart, -⟩ := @startTeardown_ok ndebug boot p hinv howned
      exact ⟨_, p', hcan, (hact _ hcan).trans hstart⟩
    | terminated | sent | adopt | failure | ready => cases hcan.1

/-- The program handles what is pending in a bounded number of steps, whatever their order. -/
theorem Refines.exhausts (h : p.Refines platform host ndebug boot) (hsound : p.Sound) :
    (∀ l p', Proceeds platform host ndebug p l p' → p'.Sound ∧ l.length ≤ p.rank) ∧
      ∃ l p', Proceeds platform host ndebug p l p' ∧ p'.Asleep := by
  have hstep : ∀ (q : Program) event q', (q.Sound ∧ q.Refines platform host ndebug boot) →
      q.Can event → q.step platform host ndebug event = .ok q' →
      (q'.Sound ∧ q'.Refines platform host ndebug boot) ∧ q'.rank < q.rank := by
    rintro q event q' ⟨hsound, hrefines⟩ hcan hstep
    have hrefines' := hrefines.step event
    rw [hstep] at hrefines'
    exact ⟨⟨hsound.step hstep, hrefines'⟩, hsound.rank_lt hcan hstep⟩
  constructor
  · intro l p' hl
    obtain ⟨hinv, hle⟩ := hl.length_le hstep ⟨hsound, h⟩
    exact ⟨hinv.1, by omega⟩
  · exact Schedule.exhausts hstep (fun q event hq hcan => hq.2.proceeds hcan) ⟨hsound, h⟩

/-- The bound on the steps, from what is pending. -/
theorem rank_le (p : Program) : p.rank ≤ 8 * p.signals.pendingCount + p.zombies.length + 15 := by
  have hphase : p.phase.rank ≤ 11 := by
    cases p.phase <;> decide
  have hhup := Bool.toNat_le p.signals.sighup
  have hchld := Bool.toNat_le p.signals.sigchld
  rw [rank]
  omega

/-- In every run, the program only stays in a system call when nothing is left to do. -/
theorem rests_over_runs (platform : Platform) (host : Host) (ndebug : Bool) (boot : ServerBoot)
    (events : List MainEvent) :
    Outcome (Halts platform host ndebug boot events)
      (fun p => p.Asleep → p.Rests) (run platform host ndebug boot events) := by
  apply (run_ok platform host ndebug boot events).mono _ fun _ ht => ht
  rintro p ⟨hsound, -⟩
  exact hsound.rests

/-- From every state of every run, the program handles what is pending in a bounded number of
steps, whatever their order, and then has nothing left to do. -/
theorem responds_over_runs (platform : Platform) (host : Host) (ndebug : Bool)
    (boot : ServerBoot) (events : List MainEvent) :
    Outcome (Halts platform host ndebug boot events)
      (fun p => (∀ l p', Proceeds platform host ndebug p l p' →
          l.length ≤ 8 * p.signals.pendingCount + p.zombies.length + 15 ∧
          (p'.Asleep → p'.Rests)) ∧
        ∃ l p', Proceeds platform host ndebug p l p' ∧ p'.Rests)
      (run platform host ndebug boot events) := by
  apply (run_ok platform host ndebug boot events).mono _ fun _ ht => ht
  rintro p ⟨hsound, hrefines⟩
  obtain ⟨hbound, l, p', hl, hasleep⟩ := hrefines.exhausts hsound
  refine ⟨fun l' q hl' => ?_, l, p', hl, (hbound l p' hl).1.rests hasleep⟩
  obtain ⟨hq, hle⟩ := hbound l' q hl'
  exact ⟨hle.trans p.rank_le, hq.rests⟩

end Program

end Cyberd
