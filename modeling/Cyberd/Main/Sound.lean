import Cyberd.Main.Requests

/-!
# The invariant of the signals

The flags of the handlers say where the main loop goes, terminated children are children
that were not waited for, and as long as there is one the program has noticed it: its
signal is pending, or was delivered and the children are about to be reaped.
-/

namespace Cyberd

open Library

/-- The phases of the teardown, once its signals are set up. -/
def MainPhase.tearsDown : MainPhase → Bool
  | .selecting | .interrupted | .reloading | .reaping | .leaving => false
  | .suspended | .woken | .sweeping | .ending | .rebooting => true

/-- What the flags are where the program is. -/
def MainPhase.Allows (s : Signals) : MainPhase → Prop
  | .selecting => s.sighup = false ∧ s.sigchld = false ∧ s.sigreboot = 0
  | .interrupted => True
  | .reloading => s.sighup = true
  | .reaping => s.sighup = false ∧ s.sigchld = true
  | .leaving => s.sighup = false ∧ s.sigchld = false ∧ s.sigreboot ≠ 0
  | .suspended | .woken | .sweeping | .ending | .rebooting => s.sigreboot ≠ 0

/-- The system call of the phase is about to be left for `reap_children`, or the phase is in it,
whatever the flags are. -/
def MainPhase.sweeps : MainPhase → Bool
  | .woken | .sweeping | .ending | .reaping => true
  | .selecting | .interrupted | .reloading | .leaving | .suspended | .rebooting => false

/-- An interruption leads to the flags of the main loop, or to the reaping of the teardown. -/
theorem MainPhase.interrupt_eq {phase : MainPhase} (h : phase.delivers = true) :
    phase.interrupt = (if phase.tearsDown then .woken else .interrupted) ∧
      (phase.tearsDown = false → phase.sweeps = false) := by
  cases phase with
  | selecting | interrupted | suspended | woken => decide
  | reloading | reaping | leaving | sweeping | ending | rebooting => cases h

/-- The phases of the teardown in which signals are delivered, and those that reap. -/
theorem MainPhase.delivers_teardown {phase : MainPhase} (h : phase.delivers = true)
    (htears : phase.tearsDown = true) : phase = .suspended ∨ phase = .woken := by
  revert h htears
  cases phase <;> decide

theorem MainPhase.reaps_teardown {phase : MainPhase} (h : phase.reaps = true)
    (htears : phase.tearsDown = true) : phase = .sweeping ∨ phase = .ending := by
  revert h htears
  cases phase <;> decide

/-- In the teardown, the value of the reboot is set. -/
theorem MainPhase.allows_teardown {phase : MainPhase} (h : phase.tearsDown = true) (s : Signals) :
    phase.Allows s ↔ s.sigreboot ≠ 0 := by
  cases phase with
  | suspended | woken | sweeping | ending | rebooting => rfl
  | selecting | interrupted | reloading | reaping | leaving => cases h

/-- The signals, the terminated children and the phase agree. -/
structure Program.Sound (p : Program) : Prop where
  /-- The signals of the phase have a handler. -/
  handled : ∀ signal, signal ≠ .sigalrm ∨ p.phase.tearsDown = true →
    p.signals.handled signal = true
  /-- The mask of its system call. -/
  sigmask : ∀ signal, p.sigmask signal =
    (p.phase.tearsDown && (signal == .sigterm || signal == .sighup))
  /-- The signals that the process blocks. -/
  procmask : ∀ signal, p.signals.procmask signal = (signal != .sigalrm || p.phase.tearsDown)
  /-- There is no alarm before the teardown. -/
  silent : p.phase.tearsDown = false →
    p.signals.handled .sigalrm = false ∧ p.signals.pending .sigalrm = []
  /-- The alarm did not ring as long as the teardown waits. -/
  waits : p.phase.tearsDown = false ∨ p.phase = .suspended → p.signals.sigalrm = false
  /-- Terminated children are children. -/
  zombies : ∀ zombie ∈ p.zombies, ∃ child ∈ p.server.world.children, child.pid = zombie.pid
  /-- Each of them has terminated once. -/
  distinct : (p.zombies.map Siginfo.pid).Nodup
  /-- The program has noticed it. -/
  noticed : p.zombies ≠ [] → p.signals.pending .sigchld ≠ [] ∨ p.phase.sweeps = true ∨
    p.phase.tearsDown = false ∧ p.signals.sigchld = true
  /-- The flags agree with the phase. -/
  flags : p.phase.Allows p.signals
  /-- The system is rebooted with a value that is supported. -/
  supported : p.signals.sigreboot = 0 ∨ Supported p.signals.sigreboot

namespace Program

variable {p p' : Program} {signal n : Signal} {siginfo : SignalInfo} {sending : Sending}
variable {platform : Platform} {host : Host} {ndebug : Bool}

section Sending

variable {s : Signals}

/-- What is sent only changes the pending signals. -/
theorem send_cases (signal : Signal) (siginfo : SignalInfo) (sending : Sending) (s : Signals) :
    s.send signal siginfo sending = s ∧ (s.discards signal = true ∨ s.pending signal ≠ []) ∨
      s.discards signal = false ∧ s.send signal siginfo sending =
        s.setPending signal (s.pending signal ++ [siginfo]) := by
  rw [Signals.send]
  split
  · rename_i hdiscards
    exact Or.inl ⟨rfl, Or.inl hdiscards⟩
  · rename_i hkeeps
    split
    · rename_i hmerged
      exact Or.inl ⟨rfl, Or.inr hmerged.2⟩
    · exact Or.inr ⟨by simpa using hkeeps, rfl⟩

/-- The flags, the masks and the handlers stay the same. -/
theorem send_frame (signal : Signal) (siginfo : SignalInfo) (sending : Sending) (s : Signals) :
    s.send signal siginfo sending =
      { s with pending := (s.send signal siginfo sending).pending } := by
  rcases send_cases signal siginfo sending s with ⟨heq, -⟩ | ⟨-, heq⟩
  · rw [heq]
  · rw [heq]
    rfl

theorem send_sigalrm : (s.send signal siginfo sending).sigalrm = s.sigalrm := by rw [send_frame]

/-- No pending signal is lost. -/
theorem send_pending (signal : Signal) (siginfo : SignalInfo) (sending : Sending) (s : Signals)
    (n : Signal) : s.pending n <+: (s.send signal siginfo sending).pending n := by
  rcases send_cases signal siginfo sending s with ⟨heq, -⟩ | ⟨-, heq⟩
  · rw [heq]
  · rw [heq, setPending_pending]
    split
    · rename_i hn
      rw [hn]
      exact List.prefix_append _ _
    · exact List.prefix_rfl

/-- A signal with a handler is pending once it is sent. -/
theorem send_self (hhandled : s.handled signal = true) :
    (s.send signal siginfo sending).pending signal ≠ [] := by
  rcases send_cases signal siginfo sending s with ⟨heq, hno | hpending⟩ | ⟨-, heq⟩
  · rw [Signals.discards, hhandled] at hno
    cases hno
  · rw [heq]
    exact hpending
  · rw [heq, setPending_pending, if_pos rfl]
    exact List.append_ne_nil_of_right_ne_nil _ (List.cons_ne_nil _ _)

/-- The other signals wait as before. -/
theorem send_other (hne : n ≠ signal) :
    (s.send signal siginfo sending).pending n = s.pending n := by
  rcases send_cases signal siginfo sending s with ⟨heq, -⟩ | ⟨-, heq⟩
  · rw [heq]
  · rw [heq, setPending_pending, if_neg hne]

/-- What is discarded changes nothing. -/
theorem send_discards (hdiscards : s.discards signal = true) :
    s.send signal siginfo sending = s := if_pos hdiscards

/-- The reboots that a round queues are signals that are sent. -/
theorem queueReboots_frame (howtos : List Howto) (answers : List (Option Sending)) (s : Signals) :
    s.queueReboots howtos answers =
        { s with pending := (s.queueReboots howtos answers).pending } ∧
      (∀ n, s.pending n <+: (s.queueReboots howtos answers).pending n) ∧
      ∀ n, n ≠ .sigterm → (s.queueReboots howtos answers).pending n = s.pending n := by
  induction howtos generalizing answers s with
  | nil => exact ⟨rfl, fun n => List.prefix_rfl, fun n _ => rfl⟩
  | cons howto howtos ih =>
    rw [Signals.queueReboots]
    have hone : ∀ answer, s.queueReboot howto answer =
          { s with pending := (s.queueReboot howto answer).pending } ∧
        (∀ n, s.pending n <+: (s.queueReboot howto answer).pending n) ∧
        ∀ n, n ≠ .sigterm → (s.queueReboot howto answer).pending n = s.pending n := by
      intro answer
      cases answer with
      | none => exact ⟨rfl, fun n => List.prefix_rfl, fun n _ => rfl⟩
      | some sending =>
        exact ⟨send_frame _ _ _ s, send_pending _ _ _ s, fun n hn => send_other hn⟩
    obtain ⟨hframe, hpre, hother⟩ := hone (answers.headD none)
    obtain ⟨hframe', hpre', hother'⟩ := ih answers.tail (s.queueReboot howto (answers.headD none))
    refine ⟨?_, fun n => (hpre n).trans (hpre' n), fun n hn => ?_⟩
    · rw [hframe', hframe]
    · rw [hother' n hn, hother n hn]

end Sending

/-- Signals that are sent keep the invariant. -/
theorem Sound.pends (h : p.Sound) {signals : Signals}
    (hframe : signals = { p.signals with pending := signals.pending })
    (hpre : p.signals.pending .sigchld <+: signals.pending .sigchld)
    (hsilent : p.phase.tearsDown = false → signals.pending .sigalrm = []) :
    Sound { p with signals := signals } := by
  rw [hframe]
  refine { h with silent := fun hphase => ⟨(h.silent hphase).1, ?_⟩, noticed := fun hz => ?_ }
  · exact hsilent hphase
  · rcases h.noticed hz with hpending | hrest
    · exact Or.inl fun hnil => hpending (List.prefix_nil.mp (hnil ▸ hpre))
    · exact Or.inr hrest

/-- So does one signal. -/
theorem Sound.send (h : p.Sound) (signal : Signal) (siginfo : SignalInfo) (sending : Sending) :
    Sound { p with signals := p.signals.send signal siginfo sending } := by
  apply h.pends (send_frame signal siginfo sending p.signals)
  · exact send_pending signal siginfo sending p.signals .sigchld
  · intro hphase
    obtain ⟨hunhandled, hnone⟩ := h.silent hphase
    cases signal with
    | sigalrm =>
      rw [send_discards, hnone]
      rw [Signals.discards, hunhandled, h.procmask, hphase]
      rfl
    | sigterm | sigchld | sighup => rw [send_other (by decide), hnone]

/-- A child that terminates is noticed. -/
theorem Sound.terminated (h : p.Sound) {info : Siginfo} (sending : Sending)
    (hchild : ∃ child ∈ p.server.world.children, child.pid = info.pid)
    (hnew : ∀ zombie ∈ p.zombies, zombie.pid ≠ info.pid) :
    Sound { p with
      zombies := p.zombies ++ [info]
      signals := p.signals.send .sigchld .other sending } := by
  have hsent := h.send .sigchld .other sending
  refine { hsent with
    zombies := fun zombie hz => ?_, distinct := ?_, noticed := fun _ => Or.inl ?_ }
  · rcases List.mem_append.mp hz with hz | hz
    · exact h.zombies zombie hz
    · rw [List.mem_singleton.mp hz]
      exact hchild
  · rw [List.map_append, List.nodup_append]
    refine ⟨h.distinct, List.nodup_singleton _, fun pid hpid pid' hpid' heq => ?_⟩
    obtain ⟨zombie, hz, rfl⟩ := List.mem_map.mp hpid
    rw [List.map_singleton, List.mem_singleton] at hpid'
    exact hnew zombie hz (heq.trans hpid')
  · exact send_self (h.handled .sigchld (Or.inl (by decide)))

/-- The daemons and the switch change, and no child is lost that has terminated. -/
theorem Sound.serve (h : p.Sound) {s : Server}
    (hretains : ∀ zombie ∈ p.zombies, ∀ child ∈ p.server.world.children,
      child.pid = zombie.pid → child ∈ s.world.children) : Sound { p with server := s } := by
  refine { h with zombies := fun zombie hz => ?_ }
  obtain ⟨child, hc, hpid⟩ := h.zombies zombie hz
  exact ⟨child, hretains zombie hz child hc hpid, hpid⟩

/-- A delivery takes the first of the pending signals, and its handler leaves the rest. -/
theorem deliver_eq {s : Signals} {infos : List SignalInfo}
    (hpending : s.pending signal = siginfo :: infos) :
    s.deliver signal = (s.setPending signal infos).handle signal siginfo := by
  rw [Signals.deliver, hpending]

/-- A signal that is delivered has its handler in the phase. -/
theorem Sound.delivered (h : p.Sound) (hmask : p.sigmask signal = false)
    (hpending : p.signals.pending signal ≠ []) :
    (p.phase.tearsDown = false → signal ≠ .sigalrm) ∧
      (p.phase.tearsDown = true → signal ≠ .sigterm ∧ signal ≠ .sighup) := by
  rw [h.sigmask] at hmask
  constructor
  · rintro hphase rfl
    exact hpending (h.silent hphase).2
  · intro hphase
    rw [hphase] at hmask
    simpa using hmask

/-- A signal that is delivered is noticed. -/
theorem Sound.deliver (h : p.Sound) (hphase : p.phase.delivers = true)
    (hmask : p.sigmask signal = false) (hpending : p.signals.pending signal ≠ []) :
    Sound { p with signals := p.signals.deliver signal, phase := p.phase.interrupt } := by
  obtain ⟨hloop, hteardown⟩ := h.delivered hmask hpending
  obtain ⟨siginfo, infos, heq⟩ := List.exists_cons_of_ne_nil hpending
  rw [deliver_eq heq]
  obtain ⟨hprocmask, hhandled, hwaiting⟩ :=
    handle_frame signal siginfo (p.signals.setPending signal infos)
  obtain ⟨hchld, -, halrm⟩ := handle_flags signal siginfo (p.signals.setPending signal infos)
  have hreboot := handle_sigreboot signal siginfo (p.signals.setPending signal infos)
  obtain ⟨hnext, hsweeps⟩ := MainPhase.interrupt_eq hphase
  have htears : p.phase.interrupt.tearsDown = p.phase.tearsDown := by
    rw [hnext]
    cases p.phase.tearsDown <;> rfl
  refine
    { handled := fun n hn => ?_
      sigmask := fun n => ?_
      procmask := fun n => ?_
      silent := fun hbefore => ?_
      waits := fun hwait => ?_
      zombies := h.zombies
      distinct := h.distinct
      noticed := fun hz => ?_
      flags := ?_
      supported := ?_ }
  · rw [hhandled]
    exact h.handled n (htears ▸ hn)
  · simp only [htears]
    exact h.sigmask n
  · simp only [hprocmask, htears]
    exact h.procmask n
  · simp only [htears] at hbefore
    obtain ⟨hunhandled, hnone⟩ := h.silent hbefore
    simp only [hhandled, hwaiting, setPending_pending, if_neg (Ne.symm (hloop hbefore))]
    exact ⟨hunhandled, hnone⟩
  · rcases hwait with hwait | hwait
    · simp only [htears] at hwait
      simp only [halrm, Bool.or_eq_false_iff, beq_eq_false_iff_ne]
      exact ⟨h.waits (Or.inl hwait), hloop hwait⟩
    · simp only [hnext] at hwait
      split at hwait <;> cases hwait
  · simp only [hnext, hwaiting, hchld, setPending_pending]
    cases hd : p.phase.tearsDown with
    | true => exact Or.inr (Or.inl rfl)
    | false =>
      by_cases hsignal : signal = .sigchld
      · exact Or.inr (Or.inr ⟨rfl, by simp [hsignal]⟩)
      · rcases h.noticed hz with hpending' | hno | ⟨-, hflag⟩
        · rw [if_neg (Ne.symm hsignal)]
          exact Or.inl hpending'
        · rw [hsweeps hd] at hno
          cases hno
        · exact Or.inr (Or.inr ⟨rfl, Bool.or_eq_true_iff.mpr (Or.inl hflag)⟩)
  · simp only [hnext]
    cases hd : p.phase.tearsDown with
    | false => exact trivial
    | true =>
      change (Signals.handle _ _ _).sigreboot ≠ 0
      rw [hreboot, if_neg fun hterm => (hteardown hd).1 hterm.1]
      exact (MainPhase.allows_teardown hd _).mp h.flags
  · rw [hreboot]
    split
    · rename_i hsupported
      exact Or.inr hsupported.2
    · exact h.supported

/-- The invariant, but for the flags and for what the children are noticed by. -/
theorem Sound.goto (h : p.Sound) {phase : MainPhase}
    (htears : phase.tearsDown = p.phase.tearsDown) (hflags : phase.Allows p.signals)
    (hwaits : phase = .suspended → p.signals.sigalrm = false)
    (hnoticed : p.zombies ≠ [] → p.signals.pending .sigchld ≠ [] ∨ phase.sweeps = true ∨
      phase.tearsDown = false ∧ p.signals.sigchld = true) : Sound (p.goto phase) := by
  refine
    { h with
      handled := fun n hn => h.handled n (htears ▸ hn)
      sigmask := fun n => ?_
      procmask := fun n => ?_
      silent := fun hphase => h.silent (htears ▸ hphase)
      waits := fun hwait => ?_
      noticed := hnoticed
      flags := hflags }
  · rw [Program.goto, htears]
    exact h.sigmask n
  · rw [Program.goto, htears]
    exact h.procmask n
  · rcases hwait with hwait | hwait
    · exact h.waits (Or.inl (htears ▸ hwait))
    · exact hwaits hwait

/-- Where the conditions of the main loop lead, the flags agree. -/
theorem loop_cases (p : Program) (hhup : p.signals.sighup = false)
    (hchld : p.signals.sigchld = false) :
    ∃ phase, p.loop = p.goto phase ∧ phase.Allows p.signals ∧
      (phase = .selecting ∨ phase = .leaving) := by
  rw [loop]
  split
  · rename_i hreboot
    exact ⟨.selecting, rfl, ⟨hhup, hchld, hreboot⟩, Or.inl rfl⟩
  · rename_i hreboot
    exact ⟨.leaving, rfl, ⟨hhup, hchld, hreboot⟩, Or.inr rfl⟩

theorem checkChildren_cases (p : Program) (hhup : p.signals.sighup = false) :
    ∃ phase, p.checkChildren = p.goto phase ∧ phase.Allows p.signals ∧
      (phase = .selecting ∨ phase = .leaving ∨ phase = .reaping) := by
  rw [checkChildren]
  split
  · rename_i hchld
    exact ⟨.reaping, rfl, ⟨hhup, hchld⟩, Or.inr (Or.inr rfl)⟩
  · rename_i hchld
    obtain ⟨phase, heq, hflags, hphase⟩ := p.loop_cases hhup (Bool.eq_false_of_not_eq_true hchld)
    exact ⟨phase, heq, hflags, hphase.imp_right Or.inl⟩

theorem checkHangup_cases (p : Program) :
    ∃ phase, p.checkHangup = p.goto phase ∧ phase.Allows p.signals ∧
      (phase = .selecting ∨ phase = .leaving ∨ phase = .reaping ∨ phase = .reloading) := by
  rw [checkHangup]
  split
  · rename_i hhup
    exact ⟨.reloading, rfl, hhup, Or.inr (Or.inr (Or.inr rfl))⟩
  · rename_i hhup
    obtain ⟨phase, heq, hflags, hphase⟩ :=
      p.checkChildren_cases (Bool.eq_false_of_not_eq_true hhup)
    exact ⟨phase, heq, hflags, hphase.imp_right (Or.imp_right Or.inl)⟩

/-- The main loop only goes on without its flag when the signal is still pending. -/
theorem Sound.advance (h : p.Sound) (hloop : p.phase.tearsDown = false)
    (hsweeps : p.phase.sweeps = false) {phase : MainPhase} (hflags : phase.Allows p.signals)
    (hphase : phase = .selecting ∨ phase = .leaving ∨ phase = .reaping ∨ phase = .reloading) :
    Sound (p.goto phase) := by
  have htears : phase.tearsDown = false := by
    rcases hphase with rfl | rfl | rfl | rfl <;> rfl
  have hsuspended : phase ≠ .suspended := by
    rcases hphase with rfl | rfl | rfl | rfl <;> decide
  refine h.goto (htears.trans hloop.symm) hflags (fun heq => absurd heq hsuspended) fun hz => ?_
  rcases h.noticed hz with hpending | hno | ⟨-, hflag⟩
  · exact Or.inl hpending
  · rw [hsweeps] at hno
    cases hno
  · exact Or.inr (Or.inr ⟨htears, hflag⟩)

/-- So does a flag that is lowered once its work is done. -/
theorem Sound.lower (h : p.Sound) (hloop : p.phase.tearsDown = false) (sigchld sighup : Bool)
    (hnoticed : p.zombies ≠ [] → p.signals.pending .sigchld ≠ [] ∨ sigchld = true) :
    Sound { p with
      signals := { p.signals with sigchld := sigchld, sighup := sighup }
      phase := .interrupted } := by
  refine
    { handled := fun n hn => h.handled n (Or.inl ?_)
      sigmask := fun n => ?_
      procmask := fun n => ?_
      silent := fun _ => h.silent hloop
      waits := fun _ => h.waits (Or.inl hloop)
      zombies := h.zombies
      distinct := h.distinct
      noticed := fun hz => ?_
      flags := trivial
      supported := h.supported }
  · rcases hn with hn | hn
    · exact hn
    · cases hn
  · rw [h.sigmask, hloop]
    rfl
  · rw [h.procmask, hloop]
    rfl
  · exact (hnoticed hz).imp_right fun hflag => Or.inr ⟨rfl, hflag⟩

/-- A terminated child is waited for. -/
theorem Sound.reported (h : p.Sound) {info : Siginfo} {s : Server}
    (hreap : p.server.step platform host (.reap [info]) = .ok s) :
    Sound { p with
      server := s
      zombies := p.zombies.filter fun zombie => zombie.pid ≠ info.pid } := by
  obtain ⟨w, hw, hs⟩ := except_bind_eq_ok.mp hreap
  cases hs
  refine { h with
    zombies := fun zombie hz => ?_
    distinct := (List.filter_sublist.map Siginfo.pid).nodup h.distinct
    noticed := fun hz => h.noticed fun hnil => hz (by rw [hnil]; rfl) }
  obtain ⟨hz, hne⟩ := List.mem_filter.mp hz
  obtain ⟨child, hc, hpid⟩ := h.zombies zombie hz
  exact ⟨child, reap_retains hw child hc (hpid ▸ of_decide_eq_true hne), hpid⟩

/-- The teardown begins with the signals of the children and of its alarm. -/
theorem Sound.startTeardown (h : p.Sound) (hphase : p.phase = .leaving)
    (hstart : p.startTeardown = .ok p') : p'.Sound := by
  rw [Program.startTeardown] at hstart
  obtain ⟨w, hstop, hstart⟩ := except_bind_eq_ok.mp hstart
  obtain ⟨s, hswitch, hstart⟩ := except_bind_eq_ok.mp hstart
  cases hstart
  have hworld : s.world = w := Server.socketSwitchTeardown_world hswitch
  have hloop : p.phase.tearsDown = false := by rw [hphase]; rfl
  have hflags := h.flags
  rw [hphase] at hflags
  have hmask : ∀ n, p.signals.procmask n = (n != .sigalrm) := by
    intro n
    rw [h.procmask, hloop, Bool.or_false]
  refine
    { handled := fun n _ => ?_
      sigmask := fun n => ?_
      procmask := fun n => ?_
      silent := fun hno => by cases hno
      waits := fun _ => h.waits (Or.inl hloop)
      zombies := fun zombie hz => ?_
      distinct := h.distinct
      noticed := fun hz => Or.inl ?_
      flags := hflags.2.2
      supported := h.supported }
  · by_cases hn : n = .sigalrm
    · simp [Signals.sigaction, sigaddset, hn]
    · simp [Signals.sigaction, sigaddset, h.handled n (Or.inl hn)]
  · simp only [sigdelset, hmask]
    cases n <;> rfl
  · simp only [Signals.sigaction, sigaddset, hmask]
    cases n <;> rfl
  · obtain ⟨child, hc, hpid⟩ := h.zombies zombie hz
    refine ⟨child, ?_, hpid⟩
    rw [hworld]
    exact (spawnsStop_operates hstop).retains child hc
  · rcases h.noticed hz with hpending | hsweeps | ⟨-, hflag⟩
    · exact hpending
    · rw [hphase] at hsweeps
      cases hsweeps
    · rw [hflags.2.1] at hflag
      cases hflag

/-- Without any terminated child, the teardown goes to its next system call. -/
theorem Sound.settle (h : p.Sound) (hz : p.zombies = []) (htears : p.phase.tearsDown = true)
    {phase : MainPhase} (htears' : phase.tearsDown = true)
    (hwaits : phase = .suspended → p.signals.sigalrm = false) : Sound (p.goto phase) := by
  refine h.goto (htears'.trans htears.symm) ?_ hwaits fun hno => absurd hz hno
  rw [MainPhase.allows_teardown htears', ← MainPhase.allows_teardown htears]
  exact h.flags

/-- `teardown` ends without any terminated child. -/
theorem Sound.close (h : p.Sound) (hz : p.zombies = []) (htears : p.phase.tearsDown = true)
    (hclose : p.close ndebug = .ok p') : p'.Sound := by
  have hsettled : Sound (p.goto .rebooting) := h.settle hz htears rfl fun hno => by cases hno
  rw [Program.close] at hclose
  split at hclose
  · cases hclose
    exact hsettled
  · obtain ⟨w, -, hclose⟩ := except_bind_eq_ok.mp hclose
    cases hclose
    have hserved := hsettled.serve (s := p.server.record w) fun zombie hmem => by
      rw [Program.goto, hz] at hmem
      cases hmem
    exact hserved

/-- Every event keeps the invariant. -/
theorem Sound.step (h : p.Sound) {event : MainEvent}
    (hstep : p.step platform host ndebug event = .ok p') : p'.Sound := by
  rw [Program.step] at hstep
  split at hstep
  swap
  · cases hstep
    exact h
  rename_i hcan
  obtain ⟨-, henabled⟩ := hcan
  cases event with
  | terminated info sending =>
    cases hstep
    exact h.terminated sending henabled.1 henabled.2
  | sent signal siginfo sending =>
    cases hstep
    exact h.send signal siginfo sending
  | adopt pid =>
    rw [act] at hstep
    obtain ⟨s, hs, hstep⟩ := except_bind_eq_ok.mp hstep
    obtain ⟨w, hw, hs⟩ := except_bind_eq_ok.mp hs
    cases hstep
    cases hs
    cases hw
    apply h.serve
    intro zombie _ child hc _
    change child ∈ (p.server.world.adopt pid).children
    rw [Machine.adopt]
    split
    · exact List.mem_cons_of_mem _ hc
    · exact hc
  | deliver signal =>
    cases hstep
    exact h.deliver henabled.1 henabled.2.1 henabled.2.2
  | interrupt =>
    cases hstep
    split
    · rename_i hphase
      have hflags := h.flags
      rw [hphase] at hflags
      refine h.goto (by rw [hphase]; rfl) hflags (fun hno => by cases hno) fun _ => ?_
      exact Or.inr (Or.inl rfl)
    · rename_i hphase
      have hphase' := henabled.resolve_right hphase
      obtain ⟨phase, heq, hflags, hnext⟩ := p.checkHangup_cases
      rw [heq]
      exact h.advance (by rw [hphase']; rfl) (by rw [hphase']; rfl) hflags hnext
  | failure =>
    cases hstep
    have hphase : p.phase = .selecting := henabled
    have hflags := h.flags
    rw [hphase] at hflags
    obtain ⟨phase, heq, hnext, hcases⟩ := p.loop_cases hflags.1 hflags.2.1
    rw [heq]
    exact h.advance (by rw [hphase]; rfl) (by rw [hphase]; rfl) hnext
      (hcases.imp_right Or.inl)
  | ready ready answers queues =>
    rw [act] at hstep
    obtain ⟨⟨howtos, s⟩, hround, hstep⟩ := except_bind_eq_ok.mp hstep
    cases hstep
    have hphase : p.phase = .selecting := henabled
    have hflags := h.flags
    rw [hphase] at hflags
    have hserved := h.serve (s := s) fun _ _ child hc _ =>
      (Server.round_operates (Server.roundReboots_ok hround)).retains child hc
    obtain ⟨hframe, hpre, hother⟩ := queueReboots_frame howtos queues p.signals
    have hqueued := hserved.pends hframe (hpre .sigchld) fun hloop => by
      rw [hother .sigalrm (by decide)]
      exact (h.silent hloop).2
    obtain ⟨phase, heq, hnext, hcases⟩ := loop_cases
      { p with server := s, signals := p.signals.queueReboots howtos queues }
      (by rw [hframe]; exact hflags.1) (by rw [hframe]; exact hflags.2.1)
    rw [heq]
    exact hqueued.advance (by change p.phase.tearsDown = false; rw [hphase]; rfl)
      (by change p.phase.sweeps = false; rw [hphase]; rfl) hnext (hcases.imp_right Or.inl)
  | reload dirp answer =>
    rw [act] at hstep
    obtain ⟨s, hreload, hstep⟩ := except_bind_eq_ok.mp hstep
    cases hstep
    have hphase : p.phase = .reloading := henabled
    have hserved := h.serve (s := s) fun _ _ child hc _ =>
      (Server.configurationReload_operates hreload).retains child hc
    have hlowered := hserved.lower (by change p.phase.tearsDown = false; rw [hphase]; rfl)
      p.signals.sigchld false fun hz => (h.noticed hz).imp_right fun hrest => by
        rcases hrest with hno | hflag
        · rw [hphase] at hno
          cases hno
        · exact hflag.2
    obtain ⟨phase, heq, hnext, hcases⟩ := checkChildren_cases
      { p with server := s, signals := { p.signals with sighup := false } } rfl
    rw [heq]
    exact hlowered.advance rfl rfl hnext
      (hcases.imp_right (Or.imp_right Or.inl))
  | reported info =>
    rw [act] at hstep
    obtain ⟨s, hreap, hstep⟩ := except_bind_eq_ok.mp hstep
    cases hstep
    exact h.reported hreap
  | nothing =>
    obtain ⟨hreaps, hz, -⟩ := henabled
    rw [act] at hstep
    cases hp : p.phase with
    | sweeping =>
      have htears : p.phase.tearsDown = true := by rw [hp]; rfl
      simp only [hp, swept] at hstep
      split at hstep
      · rename_i hcondition
        cases hstep
        simp only [Bool.and_eq_true, Bool.not_eq_true'] at hcondition
        exact h.settle hz htears rfl fun _ => hcondition.1.2
      · split at hstep
        · cases hstep
          exact h.settle hz htears rfl fun hno => by cases hno
        · exact h.close hz htears hstep
    | ending =>
      simp only [hp] at hstep
      exact h.close hz (by rw [hp]; rfl) hstep
    | reaping =>
      simp only [hp] at hstep
      cases hstep
      have hflags := h.flags
      rw [hp] at hflags
      have hlowered := h.lower (by rw [hp]; rfl) false p.signals.sighup fun hno => absurd hz hno
      obtain ⟨phase, heq, hnext, hcases⟩ := loop_cases
        { p with signals := { p.signals with sigchld := false } } hflags.1 rfl
      simp only [hp] at heq ⊢
      rw [heq]
      exact hlowered.advance rfl rfl hnext (hcases.imp_right Or.inl)
    | selecting | interrupted | reloading | leaving | suspended | woken | rebooting =>
      rw [hp] at hreaps
      cases hreaps
  | teardown => exact h.startTeardown henabled hstep

/-- The program starts with it. -/
theorem setup_sound {boot : ServerBoot} (hsetup : setup host boot = .ok p) : p.Sound := by
  rw [setup] at hsetup
  obtain ⟨s, -, hs⟩ := except_bind_eq_ok.mp hsetup
  cases hs
  refine
    { handled := fun n hn => ?_
      sigmask := fun n => rfl
      procmask := fun n => by cases n <;> rfl
      silent := fun _ => ⟨rfl, rfl⟩
      waits := fun _ => rfl
      zombies := fun zombie hz => by cases hz
      distinct := List.nodup_nil
      noticed := fun hz => absurd rfl hz
      flags := ⟨rfl, rfl, rfl⟩
      supported := Or.inl rfl }
  rcases hn with hn | hn
  · cases n <;> first | rfl | exact absurd rfl hn
  · cases hn

/-- Every run keeps the invariant. -/
theorem run_sound {boot : ServerBoot} {events : List MainEvent}
    (hrun : run platform host ndebug boot events = .ok p) : p.Sound := by
  obtain ⟨p₀, hsetup, hevents⟩ := except_bind_eq_ok.mp hrun
  exact kept_by_run Sound (fun q event q' hstep hq => hq.step hstep) hevents (setup_sound hsetup)

end Program

end Cyberd
