import Cyberd.Main.Wakeups

/-!
# The history of a run

Of the events of a run, those that could happen when they came are its history. Every child
that has terminated is waited for exactly once, every hangup is followed by a reload, and
there are no more reloads than hangups.
-/

namespace Cyberd

open Library

/-- The child that terminates. -/
def MainEvent.termination : MainEvent → Option Siginfo
  | .terminated info _ => some info
  | .sent _ _ _ | .adopt _ | .deliver _ | .interrupt | .failure | .ready _ _ _ | .reload _ _
  | .reported _ | .nothing | .teardown => none

/-- The child that was waited for. -/
def MainEvent.report : MainEvent → Option Siginfo
  | .reported info => some info
  | .terminated _ _ | .sent _ _ _ | .adopt _ | .deliver _ | .interrupt | .failure
  | .ready _ _ _ | .reload _ _ | .nothing | .teardown => none

/-- The event is a hangup. -/
def MainEvent.hangsUp : MainEvent → Bool
  | .sent .sighup _ _ => true
  | .sent _ _ _ | .terminated _ _ | .adopt _ | .deliver _ | .interrupt | .failure
  | .ready _ _ _ | .reload _ _ | .reported _ | .nothing | .teardown => false

/-- The event is a reload. -/
def MainEvent.reloads : MainEvent → Bool
  | .reload _ _ => true
  | .sent _ _ _ | .terminated _ _ | .adopt _ | .deliver _ | .interrupt | .failure
  | .ready _ _ _ | .reported _ | .nothing | .teardown => false

/-- The event neither sends nor delivers a signal, nor does it lower a flag. -/
def MainEvent.quiet : MainEvent → Bool
  | .adopt _ | .interrupt | .failure | .reported _ | .nothing => true
  | .terminated _ _ | .sent _ _ _ | .deliver _ | .ready _ _ _ | .reload _ _ | .teardown => false

namespace Program

/-- The event can happen before the system reboots. -/
def Happens (p : Program) (event : MainEvent) : Prop := p.phase ≠ .rebooting ∧ p.Enabled event

instance (p : Program) (event : MainEvent) : Decidable (p.Happens event) :=
  inferInstanceAs (Decidable (_ ∧ _))

/-- The events of a run that happen. -/
def history (platform : Platform) (host : Host) (ndebug : Bool) (boot : ServerBoot)
    (events : List MainEvent) : List MainEvent :=
  match setup host boot with
  | .ok p => happening (step platform host ndebug) Happens p events
  | .error _ => []

/-- What an event does to the signals. -/
inductive Signalled (platform : Platform) (host : Host) (p : Program) : MainEvent → Signals → Prop
  /-- Nothing. -/
  | quiet {event : MainEvent} (hquiet : event.quiet = true) :
      Signalled platform host p event p.signals
  /-- A child that terminates is signalled. -/
  | terminated (info : Siginfo) (sending : Sending) : Signalled platform host p
      (.terminated info sending) (p.signals.send .sigchld .other sending)
  /-- A signal is sent. -/
  | sent (signal : Signal) (siginfo : SignalInfo) (sending : Sending) : Signalled platform host p
      (.sent signal siginfo sending) (p.signals.send signal siginfo sending)
  /-- A signal is delivered. -/
  | deliver (signal : Signal) : Signalled platform host p (.deliver signal)
      (p.signals.deliver signal)
  /-- Reboots are queued. -/
  | ready {ready : Fd → Bool} {answers : Fd → SocketAnswer} {howtos : List Howto} {s : Server}
      (queues : List (Option Sending)) (hphase : p.phase = .selecting)
      (hround : p.server.roundReboots platform host ready answers = .ok (howtos, s)) :
      Signalled platform host p (.ready ready answers queues)
        (p.signals.queueReboots howtos queues)
  /-- The hangup is handled. -/
  | reload (dirp : Option Directory) (answer : OpenAnswer) : Signalled platform host p
      (.reload dirp answer) { p.signals with sighup := false }
  /-- The terminated children are reaped. -/
  | reaped (hphase : p.phase = .reaping) : Signalled platform host p .nothing
      { p.signals with sigchld := false }
  /-- The alarm is set up. -/
  | teardown : Signalled platform host p .teardown p.signals.signalsAlarm.2

variable {platform : Platform} {host : Host} {ndebug : Bool} {boot : ServerBoot}
variable {p p' : Program} {event : MainEvent} {events more : List MainEvent}

/-- The conditions of the main loop only change the phase. -/
theorem checkHangup_goto (p : Program) : (∃ phase, p.loop = p.goto phase) ∧
    (∃ phase, p.checkChildren = p.goto phase) ∧ ∃ phase, p.checkHangup = p.goto phase := by
  have hloop : ∃ phase, p.loop = p.goto phase := ⟨_, rfl⟩
  have hchildren : ∃ phase, p.checkChildren = p.goto phase := by
    rw [checkChildren]
    split
    · exact ⟨_, rfl⟩
    · exact hloop
  refine ⟨hloop, hchildren, ?_⟩
  rw [checkHangup]
  split
  · exact ⟨_, rfl⟩
  · exact hchildren

/-- The end of the teardown changes neither the signals nor the terminated children. -/
theorem close_same (h : p.close ndebug = .ok p') :
    p'.signals = p.signals ∧ p'.zombies = p.zombies := by
  rw [close] at h
  split at h
  · cases h
    exact ⟨rfl, rfl⟩
  · obtain ⟨w, -, h⟩ := except_bind_eq_ok.mp h
    cases h
    exact ⟨rfl, rfl⟩

theorem swept_same (h : p.swept ndebug = .ok p') :
    p'.signals = p.signals ∧ p'.zombies = p.zombies := by
  simp only [swept] at h
  split at h
  · cases h
    exact ⟨rfl, rfl⟩
  · split at h
    · cases h
      exact ⟨rfl, rfl⟩
    · exact close_same h

/-- What an event does to the signals and to the terminated children. -/
theorem act_spec (henabled : p.Enabled event) (h : p.act platform host ndebug event = .ok p') :
    Signalled platform host p event p'.signals ∧
      p'.zombies =
        match event with
        | .terminated info _ => p.zombies ++ [info]
        | .reported info => p.zombies.filter fun zombie => zombie.pid ≠ info.pid
        | _ => p.zombies := by
  cases event with
  | terminated info sending =>
    cases h
    exact ⟨.terminated info sending, rfl⟩
  | sent signal siginfo sending =>
    cases h
    exact ⟨.sent signal siginfo sending, rfl⟩
  | adopt pid =>
    obtain ⟨s, -, h⟩ := except_bind_eq_ok.mp h
    cases h
    exact ⟨.quiet rfl, rfl⟩
  | deliver signal =>
    cases h
    exact ⟨.deliver signal, rfl⟩
  | interrupt =>
    obtain ⟨-, -, phase, hphase⟩ := p.checkHangup_goto
    rw [act, hphase, ← apply_ite p.goto] at h
    cases h
    exact ⟨.quiet rfl, rfl⟩
  | failure =>
    cases h
    exact ⟨.quiet rfl, rfl⟩
  | ready ready answers queues =>
    obtain ⟨⟨howtos, s⟩, hround, h⟩ := except_bind_eq_ok.mp h
    cases h
    exact ⟨.ready queues henabled hround, rfl⟩
  | reload dirp answer =>
    obtain ⟨s, -, h⟩ := except_bind_eq_ok.mp h
    obtain ⟨-, ⟨phase, hphase⟩, -⟩ := checkHangup_goto
      { p with server := s, signals := { p.signals with sighup := false } }
    rw [hphase] at h
    cases h
    exact ⟨.reload dirp answer, rfl⟩
  | reported info =>
    obtain ⟨s, -, h⟩ := except_bind_eq_ok.mp h
    cases h
    exact ⟨.quiet rfl, rfl⟩
  | nothing =>
    rw [act] at h
    cases hp : p.phase with
    | sweeping =>
      simp only [hp] at h
      obtain ⟨hsignals, hzombies⟩ := swept_same h
      rw [hsignals]
      exact ⟨.quiet rfl, hzombies⟩
    | ending =>
      simp only [hp] at h
      obtain ⟨hsignals, hzombies⟩ := close_same h
      rw [hsignals]
      exact ⟨.quiet rfl, hzombies⟩
    | reaping =>
      simp only [hp] at h
      cases h
      exact ⟨.reaped hp, rfl⟩
    | selecting | interrupted | reloading | leaving | suspended | woken | rebooting =>
      have hreaps := henabled.1
      rw [hp] at hreaps
      cases hreaps
  | teardown =>
    obtain ⟨w, -, h⟩ := except_bind_eq_ok.mp h
    obtain ⟨s, -, h⟩ := except_bind_eq_ok.mp h
    cases h
    exact ⟨.teardown, rfl⟩

/-- What cannot happen changes nothing. -/
theorem step_idle (p : Program) (event : MainEvent) (h : ¬ p.Happens event) :
    p.step platform host ndebug event = .ok p := if_neg h

/-- A step that happens is the one of its event. -/
theorem step_act (h : p.Happens event) :
    p.step platform host ndebug event = p.act platform host ndebug event := if_pos h

/-- A run goes through the states of its parts. -/
theorem run_append_ok : run platform host ndebug boot (events ++ more) = .ok p' ↔
    ∃ p, run platform host ndebug boot events = .ok p ∧
      more.foldlM (step platform host ndebug) p = .ok p' := by
  constructor
  · intro h
    obtain ⟨p₀, hsetup, hevents⟩ := except_bind_eq_ok.mp h
    obtain ⟨p, hp, hmore⟩ := foldlM_append_ok.mp hevents
    refine ⟨p, ?_, hmore⟩
    rw [run, hsetup]
    exact hp
  · rintro ⟨p, h, hmore⟩
    obtain ⟨p₀, hsetup, hevents⟩ := except_bind_eq_ok.mp h
    rw [run, hsetup]
    exact foldlM_append_ok.mpr ⟨p, hevents, hmore⟩

/-- The last event of a run is a step. -/
theorem run_snoc_ok : run platform host ndebug boot (events ++ [event]) = .ok p' ↔
    ∃ p, run platform host ndebug boot events = .ok p ∧
      p.step platform host ndebug event = .ok p' := by
  simp only [run_append_ok, foldlM_cons_ok]
  constructor
  · rintro ⟨p, h, q, hstep, ⟨⟩⟩
    exact ⟨p, h, hstep⟩
  · rintro ⟨p, h, hstep⟩
    exact ⟨p, h, p', hstep, rfl⟩

/-- The history of a run is a schedule of its program. -/
theorem history_schedule (h : run platform host ndebug boot events = .ok p) :
    ∃ p₀, setup host boot = .ok p₀ ∧
      Schedule (step platform host ndebug) Happens p₀
        (history platform host ndebug boot events) p := by
  obtain ⟨p₀, hsetup, hevents⟩ := except_bind_eq_ok.mp h
  refine ⟨p₀, hsetup, ?_⟩
  rw [history, hsetup]
  exact happening_schedule step_idle hevents

/-- What holds from the start, from one event of the history to the next one. -/
theorem history_keeps (inv : List MainEvent → Program → Prop)
    (hsetup : ∀ p₀, setup host boot = .ok p₀ → inv [] p₀)
    (hstep : ∀ done p event p', p.Sound → inv done p → p.Happens event →
      p.act platform host ndebug event = .ok p' → inv (done ++ [event]) p')
    (h : run platform host ndebug boot events = .ok p) :
    inv (history platform host ndebug boot events) p := by
  obtain ⟨p₀, hp₀, hschedule⟩ := history_schedule h
  have hboth := hschedule.keeps (fun done q => q.Sound ∧ inv done q)
    (fun done q event q' hq hcan hq' =>
      ⟨hq.1.step hq', hstep done q event q' hq.1 hq.2 hcan (step_act hcan ▸ hq')⟩)
    ⟨setup_sound hp₀, hsetup p₀ hp₀⟩
  exact hboth.2

section Children

/-- One of the terminated children is waited for, the other ones are left. -/
theorem Sound.filter_zombies (h : p.Sound) {info : Siginfo} (hmem : info ∈ p.zombies) :
    p.zombies.Perm (info :: p.zombies.filter fun zombie => zombie.pid ≠ info.pid) := by
  obtain ⟨front, back, hsplit⟩ := List.append_of_mem hmem
  have hdistinct := h.distinct
  rw [hsplit, List.map_append, List.map_cons] at hdistinct
  have hnot : ∀ zombie ∈ front ++ back, zombie.pid ≠ info.pid := by
    intro zombie hz heq
    have hperm := List.perm_middle.nodup_iff.mp hdistinct
    rw [List.nodup_cons, ← List.map_append] at hperm
    exact hperm.1 (List.mem_map.mpr ⟨zombie, hz, heq⟩)
  have hfilter : (p.zombies.filter fun zombie => zombie.pid ≠ info.pid) = front ++ back := by
    rw [hsplit, List.filter_append, List.filter_cons_of_neg (by simp), ← List.filter_append]
    exact List.filter_eq_self.mpr fun zombie hz => decide_eq_true (hnot zombie hz)
  rw [hfilter, hsplit]
  exact List.perm_middle

/-- The children that have terminated are those that were waited for and those that are left. -/
theorem run_children (h : run platform host ndebug boot events = .ok p) :
    ((history platform host ndebug boot events).filterMap MainEvent.termination).Perm
      ((history platform host ndebug boot events).filterMap MainEvent.report ++ p.zombies) := by
  apply history_keeps (fun done q => (done.filterMap MainEvent.termination).Perm
    (done.filterMap MainEvent.report ++ q.zombies)) _ _ h
  · intro p₀ hsetup
    obtain ⟨s, -, hs⟩ := except_bind_eq_ok.mp hsetup
    cases hs
    exact .refl _
  · intro done q event q' hsound hperm hcan hact
    obtain ⟨-, hzombies⟩ := act_spec hcan.2 hact
    rw [List.filterMap_append, List.filterMap_append, hzombies]
    cases event with
    | terminated info sending =>
      simp only [List.filterMap_cons, MainEvent.termination, MainEvent.report, List.filterMap_nil,
        List.append_nil, ← List.append_assoc]
      exact hperm.append_right [info]
    | reported info =>
      simp only [List.filterMap_cons, MainEvent.termination, MainEvent.report, List.filterMap_nil,
        List.append_nil, List.append_assoc, List.singleton_append]
      exact hperm.trans ((hsound.filter_zombies hcan.2.2).append_left _)
    | sent | adopt | deliver | interrupt | failure | ready | reload | nothing | teardown =>
      simp only [List.filterMap_cons, MainEvent.termination, MainEvent.report, List.filterMap_nil,
        List.append_nil]
      exact hperm

/-- Where the program has nothing left to do, no terminated child is left. -/
theorem Refines.rests_zombies (h : p.Refines platform host ndebug boot) (hsound : p.Sound)
    (hrests : p.Rests) : p.zombies = [] := by
  cases hrests with
  | selecting _ hzombies | suspended _ hzombies | ending _ hzombies => exact hzombies
  | rebooting hphase =>
    cases h with
    | loop events htears =>
      rw [hphase] at htears
      cases htears
    | teardown events s happened _ hrun hteardown =>
      have hquiet := teardown_quiet (reached_ok hrun).1.world hteardown
      have hsynced : p.toTeardown.phase = .synced := by
        simp only [toTeardown, hphase]
        rfl
      obtain ⟨hchildren, -⟩ := hquiet.synced hsynced
      by_contra hz
      obtain ⟨zombie, zombies, hcons⟩ := List.exists_cons_of_ne_nil hz
      obtain ⟨child, hmem, -⟩ := hsound.zombies zombie (by rw [hcons]; exact List.mem_cons_self)
      have hnone : p.server.world.children = [] := hchildren
      rw [hnone] at hmem
      cases hmem

/-- In every run, each child that has terminated is waited for at most once, with what it has
terminated with, and nothing else is. Where the program has nothing left to do, each one was
waited for. -/
theorem children_over_runs (platform : Platform) (host : Host) (ndebug : Bool)
    (boot : ServerBoot) (events : List MainEvent) :
    Outcome (Halts platform host ndebug boot events)
      (fun p =>
        ((history platform host ndebug boot events).filterMap MainEvent.termination).Perm
          ((history platform host ndebug boot events).filterMap MainEvent.report ++ p.zombies) ∧
        (p.Asleep → ((history platform host ndebug boot events).filterMap
            MainEvent.termination).Perm
          ((history platform host ndebug boot events).filterMap MainEvent.report)))
      (run platform host ndebug boot events) := by
  apply (run_ok platform host ndebug boot events).result.mono _ fun _ ht => ht
  rintro p ⟨hrun, hsound, hrefines⟩
  have hperm := run_children hrun
  refine ⟨hperm, fun hasleep => ?_⟩
  rw [hrefines.rests_zombies hsound (hsound.rests hasleep), List.append_nil] at hperm
  exact hperm

end Children

section Hangups

/-- A hangup waits, for its delivery or for its handling. -/
def HangsUp (p : Program) : Prop :=
  p.signals.pending .sighup ≠ [] ∨ p.signals.sighup = true

/-- What happens later is appended to the history. -/
theorem history_append (h : run platform host ndebug boot events = .ok p) :
    history platform host ndebug boot (events ++ more) =
      history platform host ndebug boot events ++
        happening (step platform host ndebug) Happens p more := by
  obtain ⟨p₀, hsetup, hevents⟩ := except_bind_eq_ok.mp h
  simp only [history, hsetup]
  exact happening_append hevents

/-- What a delivery does to the hangups. -/
theorem deliver_sighup (signal : Signal) (s : Signals) :
    ((s.deliver signal).pending .sighup).length + (s.deliver signal).sighup.toNat ≤
        (s.pending .sighup).length + s.sighup.toNat ∧
      (s.pending .sighup ≠ [] ∨ s.sighup = true →
        (s.deliver signal).pending .sighup ≠ [] ∨ (s.deliver signal).sighup = true) := by
  cases hpending : s.pending signal with
  | nil =>
    have hsame : s.deliver signal = s := by rw [Signals.deliver, hpending]
    rw [hsame]
    exact ⟨le_rfl, id⟩
  | cons siginfo infos =>
    rw [deliver_eq hpending]
    obtain ⟨-, -, hwaiting⟩ := handle_frame signal siginfo (s.setPending signal infos)
    obtain ⟨-, hhup, -⟩ := handle_flags signal siginfo (s.setPending signal infos)
    have hflag : (s.setPending signal infos).sighup = s.sighup := rfl
    rw [hwaiting, hhup, hflag, setPending_pending]
    by_cases hsignal : signal = .sighup
    · subst hsignal
      rw [if_pos rfl, hpending, List.length_cons]
      have hle := Bool.toNat_le (s.sighup || Signal.sighup == Signal.sighup)
      exact ⟨by omega, fun _ => Or.inr (by simp)⟩
    · have hother : (signal == Signal.sighup) = false := beq_eq_false_iff_ne.mpr hsignal
      rw [if_neg (Ne.symm hsignal), hother, Bool.or_false]
      exact ⟨le_rfl, id⟩

/-- A hangup that waits is only settled by a reload. -/
theorem Signalled.hangsUp {s : Signals} (h : Signalled platform host p event s)
    (howed : p.HangsUp) :
    (s.pending .sighup ≠ [] ∨ s.sighup = true) ∨ event.reloads = true := by
  have hsent : ∀ t : Signals, t = { p.signals with pending := t.pending } →
      p.signals.pending .sighup <+: t.pending .sighup →
      t.pending .sighup ≠ [] ∨ t.sighup = true := by
    intro t hframe hpre
    rcases howed with hpending | hflag
    · exact Or.inl fun hnil => hpending (List.prefix_nil.mp (hnil ▸ hpre))
    · rw [hframe]
      exact Or.inr hflag
  cases h with
  | quiet | reaped | teardown => exact Or.inl howed
  | terminated | sent => exact Or.inl (hsent _ (send_frame _ _ _ _) (send_pending _ _ _ _ _))
  | deliver signal => exact Or.inl ((deliver_sighup signal p.signals).2 howed)
  | @ready _ _ howtos _ queues =>
    obtain ⟨hframe, hpre, -⟩ := queueReboots_frame howtos queues p.signals
    exact Or.inl (hsent _ hframe (hpre .sighup))
  | reload => exact Or.inr rfl

/-- A signal that is sent waits at most once more. -/
theorem send_length (signal : Signal) (siginfo : SignalInfo) (sending : Sending) (s : Signals) :
    ((s.send signal siginfo sending).pending signal).length ≤ (s.pending signal).length + 1 := by
  rcases send_cases signal siginfo sending s with ⟨heq, -⟩ | ⟨-, heq⟩
  · rw [heq]
    exact Nat.le_succ _
  · rw [heq, setPending_pending, if_pos rfl, List.length_append]
    exact le_rfl

/-- How many hangups wait, after an event. -/
theorem Signalled.sighup_le {s : Signals} (h : Signalled platform host p event s)
    (hreloading : event.reloads = true → p.signals.sighup = true) :
    event.reloads.toNat + ((s.pending .sighup).length + s.sighup.toNat) ≤
      event.hangsUp.toNat + ((p.signals.pending .sighup).length + p.signals.sighup.toNat) := by
  cases h with
  | quiet hquiet =>
    have hneither : event.reloads = false ∧ event.hangsUp = false := by
      revert hquiet
      cases event <;> simp [MainEvent.quiet, MainEvent.reloads, MainEvent.hangsUp]
    rw [hneither.1, hneither.2]
  | reaped | teardown => exact le_rfl
  | terminated info sending =>
    rw [send_frame, send_other (by decide)]
    exact le_rfl
  | sent signal siginfo sending =>
    rw [send_frame]
    cases signal with
    | sighup =>
      have hle := send_length .sighup siginfo sending p.signals
      simp only [MainEvent.reloads, MainEvent.hangsUp, Bool.toNat_true, Bool.toNat_false]
      omega
    | sigterm | sigchld | sigalrm =>
      rw [send_other (by decide)]
      exact le_rfl
  | deliver signal =>
    have hle := (deliver_sighup signal p.signals).1
    simp only [MainEvent.reloads, MainEvent.hangsUp, Bool.toNat_false]
    omega
  | @ready _ _ howtos _ queues =>
    obtain ⟨hframe, -, hother⟩ := queueReboots_frame howtos queues p.signals
    rw [hother .sighup (by decide), hframe]
    exact le_rfl
  | reload =>
    simp only [MainEvent.reloads, MainEvent.hangsUp, hreloading rfl, Bool.toNat_true,
      Bool.toNat_false]
    omega

/-- In every run, a hangup that was sent still waits, unless the configuration was reloaded
since, or the system reboots. Where the main loop has nothing left to do, it was reloaded. -/
theorem hangups_over_runs (platform : Platform) (host : Host) (ndebug : Bool)
    (boot : ServerBoot) (before after : List MainEvent) (siginfo : SignalInfo)
    (sending : Sending) :
    Outcome (Halts platform host ndebug boot
        (before ++ .sent .sighup siginfo sending :: after))
      (fun p => ∃ since,
        history platform host ndebug boot (before ++ .sent .sighup siginfo sending :: after) =
          history platform host ndebug boot (before ++ [.sent .sighup siginfo sending]) ++ since ∧
        (p.phase = .rebooting ∨ p.HangsUp ∨ ∃ event ∈ since, event.reloads = true) ∧
        (p.phase = .selecting → p.Asleep → ∃ event ∈ since, event.reloads = true))
      (run platform host ndebug boot (before ++ .sent .sighup siginfo sending :: after)) := by
  apply (run_ok platform host ndebug boot _).result.mono _ fun _ ht => ht
  rintro p ⟨hrun, hsound, -⟩
  have happend : before ++ .sent .sighup siginfo sending :: after =
      before ++ [.sent .sighup siginfo sending] ++ after := List.append_cons ..
  rw [happend] at hrun ⊢
  obtain ⟨q, hreached, hafter⟩ := run_append_ok.mp hrun
  have hstart : q.phase = .rebooting ∨ q.HangsUp := by
    obtain ⟨q₀, hreached₀, hsent⟩ := run_snoc_ok.mp hreached
    by_cases hphase : q₀.phase = .rebooting
    · rw [step_idle _ _ fun hno => hno.1 hphase] at hsent
      cases hsent
      exact Or.inl hphase
    · have hcan : q₀.Happens (.sent .sighup siginfo sending) := ⟨hphase, trivial⟩
      rw [step_act hcan] at hsent
      cases hsent
      have hhandled := (run_sound hreached₀).handled .sighup (Or.inl (by decide))
      exact Or.inr (Or.inl (send_self hhandled))
  have hkept := (happening_schedule step_idle hafter).keeps
    (fun done r => r.phase = .rebooting ∨ r.HangsUp ∨ ∃ event ∈ done, event.reloads = true)
    (fun done r event r' hr hcan hstep => by
      rw [step_act hcan] at hstep
      rcases hr with hphase | howed | ⟨event', hmem, hreloads⟩
      · exact absurd hphase hcan.1
      · rcases (act_spec hcan.2 hstep).1.hangsUp howed with howed' | hreloads
        · exact Or.inr (Or.inl howed')
        · exact Or.inr (Or.inr ⟨event, by simp, hreloads⟩)
      · exact Or.inr (Or.inr ⟨event', List.mem_append_left _ hmem, hreloads⟩))
    (hstart.imp_right Or.inl)
  refine ⟨_, history_append hreached, hkept, fun hphase hasleep => ?_⟩
  rcases hkept with hno | howed | hreloads
  · rw [hphase] at hno
    cases hno
  · cases hsound.rests hasleep with
    | selecting _ _ hpending hhup =>
      rcases howed with hno | hno
      · exact absurd (hpending .sighup) hno
      · rw [hhup] at hno
        cases hno
    | suspended hno | ending hno | rebooting hno =>
      rw [hphase] at hno
      cases hno
  · exact hreloads

/-- In every run, the configuration is not reloaded more often than hangups were sent. -/
theorem reloads_over_runs (platform : Platform) (host : Host) (ndebug : Bool)
    (boot : ServerBoot) (events : List MainEvent) :
    Outcome (Halts platform host ndebug boot events)
      (fun p => (history platform host ndebug boot events).countP MainEvent.reloads +
          ((p.signals.pending .sighup).length + p.signals.sighup.toNat) ≤
        (history platform host ndebug boot events).countP MainEvent.hangsUp)
      (run platform host ndebug boot events) := by
  apply (run_ok platform host ndebug boot events).result.mono _ fun _ ht => ht
  rintro p ⟨hrun, -⟩
  apply history_keeps (fun done q => done.countP MainEvent.reloads +
    ((q.signals.pending .sighup).length + q.signals.sighup.toNat) ≤
      done.countP MainEvent.hangsUp) _ _ hrun
  · intro p₀ hsetup
    obtain ⟨s, -, hs⟩ := except_bind_eq_ok.mp hsetup
    cases hs
    exact le_rfl
  · intro done q event q' hsound hle hcan hact
    have hreloading : event.reloads = true → q.signals.sighup = true := by
      intro hreloads
      cases event with
      | reload dirp answer =>
        have hflags := hsound.flags
        have hphase : q.phase = .reloading := hcan.2
        rw [hphase] at hflags
        exact hflags
      | terminated | sent | adopt | deliver | interrupt | failure | ready | reported | nothing
      | teardown => cases hreloads
    have hone := (act_spec hcan.2 hact).1.sighup_le hreloading
    have hcount : ∀ n : Bool, (if n = true then 1 else 0) = n.toNat := by
      rintro (_ | _) <;> rfl
    simp only [List.countP_append, List.countP_singleton, hcount]
    omega

end Hangups

end Program

end Cyberd
