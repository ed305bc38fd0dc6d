import Cyberd.Main.Rc

/-!
# What the run commands lead to

`rc` handles whatever happens in a bounded number of steps, and then has returned or waits
for its process. The signals that are sent meanwhile are the first ones of the main loop.
-/

namespace Cyberd

open Library

/-- How far `rc` is from its next call. -/
def RcPhase.rank : RcPhase → Nat
  | .woken => 3
  | .sweeping => 2
  | .suspended => 1
  | .returned => 0

/-- The files that the first load reads. -/
def ServerBoot.entries (boot : ServerBoot) : List DirEntry :=
  (boot.boot.dirp.map Directory.read).getD []

namespace Rc

variable {w : World} {a : Addr} {r r' : Rc} {event : MainEvent}

/-- `rc` can go on by itself. -/
def Can (r : Rc) (event : MainEvent) : Prop :=
  event.internal = true ∧ r.phase ≠ .returned ∧ r.Enabled event

/-- `rc` cannot go on by itself. -/
def Asleep (r : Rc) : Prop := ∀ event, ¬ r.Can event

/-- The schedules of the steps that `rc` takes by itself. -/
abbrev Proceeds : Rc → List MainEvent → Rc → Prop := Schedule step Can

/-- A bound on the steps that `rc` takes by itself. -/
def rank (r : Rc) : Nat :=
  4 * (r.signals.pending .sigchld).length + r.zombies.length + r.phase.rank

/-- `rc` has returned, or it waits for its process, which has not terminated. -/
inductive Rests (r : Rc) : Prop
  /-- It has returned. -/
  | returned (hphase : r.phase = .returned) (hover : r.Over)
  /-- It waits in `sigsuspend(2)`. -/
  | suspended (hphase : r.phase = .suspended) (hzombies : r.zombies = [])
      (hchld : r.signals.pending .sigchld = [])
      (hchild : ∃ child ∈ r.world.children, child.daemon = some (r.daemon, rcName))

/-- The process of the daemon is a child as long as the storage holds it. -/
theorem Frame.child (h : Frame w a) (hheld : spawnsEmpty w = false) :
    ∃ child ∈ w.children, child.daemon = some (a, rcName) := by
  rw [spawnsEmpty] at hheld
  cases hs : w.spawns with
  | null =>
    rw [hs] at hheld
    cases hheld
  | node element left right height =>
    have hmem : element ∈ w.spawns.toList := by
      rw [hs]
      simp
    obtain ⟨daemon, hdaemon, hrun⟩ := (h.indexed.mem element).mp hmem
    have helement : element = a := by
      by_contra hne
      rw [h.alone element hne] at hdaemon
      cases hdaemon
    subst helement
    obtain ⟨daemon', hdaemon', hname, -⟩ := h.frame
    cases hdaemon.symm.trans hdaemon'
    have hchild := h.indexed.sound.running element daemon hdaemon hrun
    rw [hname] at hchild
    exact ⟨_, hchild, rfl⟩

/-- A sound state in which `rc` cannot go on rests. -/
theorem Sound.rests (h : r.Sound) (hasleep : r.Asleep) : r.Rests := by
  have hreported : r.phase = .sweeping → r.zombies = [] := by
    intro hphase
    by_contra hz
    obtain ⟨info, infos, hz⟩ := List.exists_cons_of_ne_nil hz
    refine hasleep (.reported info) ⟨rfl, by rw [hphase]; decide, hphase, ?_⟩
    rw [hz]
    exact List.mem_cons_self
  cases hphase : r.phase with
  | returned => exact .returned hphase (h.ended hphase)
  | woken => exact absurd ⟨rfl, by rw [hphase]; decide, hphase⟩ (hasleep .interrupt)
  | sweeping =>
    exact absurd ⟨rfl, by rw [hphase]; decide, hphase, hreported hphase⟩ (hasleep .nothing)
  | suspended =>
    have hchld : r.signals.pending .sigchld = [] := by
      by_contra hpending
      refine hasleep (.deliver .sigchld) ⟨rfl, by rw [hphase]; decide, ?_, ?_, hpending⟩
      · rw [hphase]
        rfl
      · rw [h.waits.sigmask]
        rfl
    refine .suspended hphase ?_ hchld
      ((h.running (by rw [hphase]; decide)).child (h.held (by rw [hphase]; rfl)))
    by_contra hz
    rcases h.waits.noticed hz with hpending | hno | hno
    · exact hpending hchld
    · rw [hphase] at hno
      cases hno
    · rw [hphase] at hno
      cases hno

/-- Every step that `rc` takes by itself decreases the bound. -/
theorem Sound.rank_lt (h : r.Sound) (hcan : r.Can event) (hstep : r.step event = .ok r') :
    r'.rank < r.rank := by
  obtain ⟨hinternal, hbefore, henabled⟩ := hcan
  rw [Rc.step, if_pos ⟨hbefore, henabled⟩] at hstep
  cases event with
  | terminated | sent | adopt | failure | ready => cases hinternal
  | reload | teardown => exact henabled.elim
  | deliver signal =>
    obtain ⟨hphase, hmask, hpending⟩ := henabled
    have hsignal := h.waits.sigchld hmask hpending
    subst hsignal
    cases hstep
    obtain ⟨siginfo, infos, heq⟩ := List.exists_cons_of_ne_nil hpending
    have hinfos : (r.signals.deliver .sigchld).pending .sigchld = infos := by
      rw [Program.deliver_eq heq]
      rfl
    simp only [rank, hinfos, heq, List.length_cons, RcPhase.rank]
    omega
  | interrupt =>
    have hphase : r.phase = .woken := henabled
    cases hstep
    simp only [rank, hphase, RcPhase.rank]
    omega
  | reported info =>
    obtain ⟨s, -, hstep⟩ := except_bind_eq_ok.mp hstep
    cases hstep
    have hlt : (r.zombies.filter fun zombie => zombie.pid ≠ info.pid).length <
        r.zombies.length := by
      apply List.length_filter_lt_length_iff_exists.mpr
      exact ⟨info, henabled.2, by simp⟩
    simp only [rank]
    omega
  | nothing =>
    obtain ⟨hphase, -⟩ := henabled
    rw [act] at hstep
    split at hstep
    · cases hstep
      simp only [rank, hphase, RcPhase.rank]
      omega
    · cases hstep
      simp only [rank, hphase, RcPhase.rank]
      omega

/-- A signal that is not the one of the children waits until `rc` returns. -/
theorem Sound.keeps (h : r.Sound) (hstep : r.step event = .ok r') {signal : Signal}
    (hsignal : signal ≠ .sigchld) :
    r.signals.pending signal <+: r'.signals.pending signal := by
  rw [Rc.step] at hstep
  split at hstep
  swap
  · cases hstep
    exact List.prefix_rfl
  rename_i hcan
  obtain ⟨-, henabled⟩ := hcan
  cases event with
  | terminated | sent =>
    cases hstep
    exact Program.send_pending _ _ _ _ _
  | adopt | interrupt =>
    cases hstep
    exact List.prefix_rfl
  | deliver delivered =>
    obtain ⟨-, hmask, hpending⟩ := henabled
    have hdelivered := h.waits.sigchld hmask hpending
    subst hdelivered
    cases hstep
    obtain ⟨siginfo, infos, heq⟩ := List.exists_cons_of_ne_nil hpending
    have hother : (r.signals.deliver .sigchld).pending signal = r.signals.pending signal := by
      rw [Program.deliver_eq heq]
      exact if_neg hsignal
    simp only [hother]
    exact List.prefix_rfl
  | reported info =>
    obtain ⟨s, -, hstep⟩ := except_bind_eq_ok.mp hstep
    cases hstep
    exact List.prefix_rfl
  | nothing =>
    rw [act] at hstep
    split at hstep <;>
    · cases hstep
      exact List.prefix_rfl
  | failure | ready | reload | teardown => exact henabled.elim

/-- In every run of `rc` at the entry of the program, nothing stops it and its process is not
started again. In a bounded number of steps, whatever their order, it has handled what is
pending: it has returned with nothing left of its frame, or its process is still running. -/
theorem rc_over_runs (boot : Boot) (events : List MainEvent) :
    ∃ r, run boot.world events = .ok r ∧
      r.world.forks.map Fork.name = [rcName] ∧
      (r.phase = .returned → r.Over) ∧
      (∀ l r', Proceeds r l r' →
        l.length ≤ 4 * (r.signals.pending .sigchld).length + r.zombies.length + 3 ∧
        (r'.Asleep → r'.Rests)) ∧
      ∃ l r', Proceeds r l r' ∧ r'.Rests := by
  obtain ⟨r, hrun, hsound⟩ := run_sound (boot_fresh boot) events
  have hstep : ∀ (q : Rc) event q', q.Sound → q.Can event → q.step event = .ok q' →
      q'.Sound ∧ q'.rank < q.rank := by
    intro q event q' hq hcan hstep
    obtain ⟨q'', hstep', hq''⟩ := hq.step event
    cases hstep.symm.trans hstep'
    exact ⟨hq'', hq.rank_lt hcan hstep⟩
  have hproceeds : ∀ (q : Rc) event, q.Sound → q.Can event →
      ∃ event q', q.Can event ∧ q.step event = .ok q' := by
    intro q event hq hcan
    obtain ⟨q', hstep, -⟩ := hq.step event
    exact ⟨event, q', hcan, hstep⟩
  have hrank : r.rank ≤ 4 * (r.signals.pending .sigchld).length + r.zombies.length + 3 := by
    have hphase : r.phase.rank ≤ 3 := by
      cases r.phase <;> decide
    rw [rank]
    omega
  have hforks : r.world.forks.map Fork.name = [rcName] := by
    by_cases hphase : r.phase = .returned
    · exact (hsound.ended hphase).forks
    · exact (hsound.running hphase).forks
  refine ⟨r, hrun, hforks, hsound.ended, fun l r' hl => ?_, ?_⟩
  · obtain ⟨hr', hle⟩ := hl.length_le hstep hsound
    exact ⟨by omega, hr'.rests⟩
  · obtain ⟨l, r', hl, hasleep⟩ := Schedule.exhausts hstep hproceeds hsound
    exact ⟨l, r', hl, (hl.length_le hstep hsound).1.rests hasleep⟩

end Rc

namespace Program

variable {host : Host} {boot : ServerBoot} {events : List MainEvent}

/-- The first load of a sound state without a configuration is sound, and loses no child. -/
theorem load_sound {s : Server} (hinv : s.Invariant) (hdaemons : s.world.daemons = .null) :
    Outcome (Unreadable boot.entries)
      (fun s' => s'.Invariant ∧ ∀ child ∈ s.world.children, child ∈ s'.world.children)
      (s.configurationLoad host boot.boot.dirp boot.load) := by
  have hload : Outcome (Unreadable (((s.opened boot.load boot.boot.dirp).map
      Directory.read).getD [])) World.Invariant
      (Cyberd.configurationLoad host (s.opened boot.load boot.boot.dirp) s.world) := by
    cases s.opened boot.load boot.boot.dirp with
    | none => exact hinv.world
    | some dir =>
      exact (loadEntries_ok (fun _ _ => True) dir.read_nodup hinv.world hdaemons trivial
        fun _ _ _ _ _ _ _ _ _ _ _ => trivial).mono (fun _ hw => hw.1) fun _ ht => ht
  have hfollows := @Server.configurationLoad_follows host boot.load s boot.boot.dirp
  apply (hfollows.outcome hload.result).mono
  · rintro s' ⟨w, ⟨hload', hw⟩, rfl, hforks⟩
    exact ⟨hforks.invariant hinv hw, (configurationLoad_operates hload').retains⟩
  · intro trap ht
    obtain ⟨dir, hdir, hunreadable⟩ := Server.unreadable_opened ht
    rw [ServerBoot.entries, hdir]
    exact hunreadable

/-- Where `rc` has returned, the main loop begins with its signals. -/
theorem setupRc_ok (host : Host) (boot : ServerBoot) (events : List MainEvent) :
    Outcome (Unreadable boot.entries)
      (fun result => ∀ p, result = some p → p.Sound ∧ p.server.Invariant ∧
        ∃ r, Rc.run boot.boot.world events = .ok r ∧ r.phase = .returned ∧ p.signals = r.signals)
      (setupRc host boot events) := by
  obtain ⟨s, hs, hworld, hinv, -⟩ := Server.socketSwitchSetup_ok boot
  obtain ⟨r, hrun, hsound⟩ := Rc.run_sound (Rc.boot_fresh boot.boot) events
  rw [setupRc, hs, except_bind_ok, hworld, hrun, except_bind_ok]
  split
  swap
  · exact fun p hp => by cases hp
  rename_i hphase
  have hover := hsound.ended hphase
  have hrecorded : (s.record r.world).Invariant :=
    hinv.congr hover.invariant rfl rfl rfl rfl rfl
  refine (load_sound hrecorded hover.daemons).bind fun s' hs' => ?_
  rintro p ⟨⟩
  obtain ⟨hinv', hretains⟩ := hs'
  obtain ⟨hreboot, hhup, halrm, hchld⟩ := hsound.waits.flags
  refine ⟨?_, hinv', r, rfl, hphase, rfl⟩
  exact
    { handled := fun signal hsignal => by
        rw [hsound.waits.handled]
        rcases hsignal with hne | hno
        · exact bne_iff_ne.mpr hne
        · cases hno
      sigmask := fun signal => rfl
      procmask := fun signal => by
        rw [hsound.waits.procmask]
        exact (Bool.or_false _).symm
      silent := fun _ => ⟨hsound.waits.handled .sigalrm, hsound.waits.silent⟩
      waits := fun _ => halrm
      zombies := fun zombie hz => by
        obtain ⟨child, hc, hpid⟩ := hsound.waits.zombies zombie hz
        exact ⟨child, hretains child hc, hpid⟩
      distinct := hsound.waits.distinct
      noticed := fun hz => (hsound.waits.noticed hz).imp_right fun hno => by
        rw [hphase] at hno
        rcases hno with hno | hno <;> cases hno
      flags := ⟨hhup, hchld hphase, hreboot⟩
      supported := Or.inl hreboot }

/-- After `rc`, the main loop begins with every hangup and with every request that was sent
meanwhile, and it never waits with something left to do. -/
theorem rc_signals_over_runs (platform : Platform) (host : Host) (ndebug : Bool)
    (boot : ServerBoot) (before after : List MainEvent) (signal : Signal) (siginfo : SignalInfo)
    (sending : Sending) :
    Outcome (Unreadable boot.entries)
      (fun result => ∀ p, result = some p →
        (∃ r, Rc.run boot.boot.world before = .ok r ∧
          (r.phase ≠ .returned → signal = .sigterm ∨ signal = .sighup →
            p.signals.pending signal ≠ [])) ∧
        ∀ (events : List MainEvent) (q : Program),
          events.foldlM (step platform host ndebug) p = .ok q → q.Asleep → q.Rests)
      (setupRc host boot (before ++ .sent signal siginfo sending :: after)) := by
  apply (setupRc_ok host boot _).mono _ fun _ ht => ht
  rintro result hresult p hp
  obtain ⟨hsound, -, r, hrun, -, hsignals⟩ := hresult p hp
  constructor
  · obtain ⟨r₀, henter, hevents⟩ := except_bind_eq_ok.mp hrun
    obtain ⟨r₁, hbefore, hsince⟩ := foldlM_append_ok.mp hevents
    obtain ⟨r₂, hsent, hafter⟩ := foldlM_cons_ok.mp hsince
    have hreached : Rc.run boot.boot.world before = .ok r₁ := by
      rw [Rc.run, henter]
      exact hbefore
    refine ⟨r₁, hreached, fun hphase hsignal => ?_⟩
    have hsound₁ : r₁.Sound := by
      obtain ⟨r₁', hrun₁, hsound₁⟩ := Rc.run_sound (Rc.boot_fresh boot.boot) before
      cases hreached.symm.trans hrun₁
      exact hsound₁
    have hkept : r.Sound ∧ r.signals.pending signal ≠ [] := by
      refine kept_by_run (fun q : Rc => q.Sound ∧ q.signals.pending signal ≠ [])
        (fun q event q' hstep hq => ?_) hafter ⟨?_, ?_⟩
      · obtain ⟨q'', hstep', hq''⟩ := hq.1.step event
        cases hstep.symm.trans hstep'
        have hne : signal ≠ .sigchld := by
          rcases hsignal with rfl | rfl <;> decide
        refine ⟨hq'', fun hnil => hq.2 ?_⟩
        exact List.prefix_nil.mp (hnil ▸ hq.1.keeps hstep hne)
      · obtain ⟨r₂', hstep', hsound₂⟩ := hsound₁.step (.sent signal siginfo sending)
        cases hsent.symm.trans hstep'
        exact hsound₂
      · have hcan : r₁.phase ≠ .returned ∧ r₁.Enabled (.sent signal siginfo sending) :=
          ⟨hphase, trivial⟩
        rw [Rc.step, if_pos hcan] at hsent
        cases hsent
        apply send_self
        rw [hsound₁.waits.handled]
        rcases hsignal with rfl | rfl <;> rfl
    rw [hsignals]
    exact hkept.2
  · intro events q hq
    exact (kept_by_run Sound (fun q event q' hstep hq => hq.step hstep) hq hsound).rests

end Program

end Cyberd
