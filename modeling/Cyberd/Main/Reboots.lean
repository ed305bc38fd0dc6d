import Cyberd.Main.Histories

/-!
# The reboots of a run

The system is only rebooted with a value that it supports and that was asked for, by a
signal or by a connection that has the capability, once no child is left and nothing is left
of the switch. Once the value is set, descriptors are not operated any more, and in the
teardown it cannot change. When the alarm has rung, the teardown does not wait for daemons.
-/

namespace Cyberd

open Library

/-- The event wakes `sigsuspend(2)` up: it is the alarm, or the signal of a child. -/
def MainEvent.wakes : MainEvent → Bool
  | .terminated _ _ | .sent .sigchld _ _ | .sent .sigalrm _ _ => true
  | .sent .sigterm _ _ | .sent .sighup _ _ | .adopt _ | .deliver _ | .interrupt | .failure
  | .ready _ _ _ | .reload _ _ | .reported _ | .nothing | .teardown => false

/-- What the system sends with the event is merged with what is pending. -/
def MainEvent.Merges : MainEvent → Prop
  | .terminated _ sending | .sent _ _ sending => sending = .merged
  | .ready _ _ queues => ∀ sending, some sending ∈ queues → sending = .merged
  | .adopt _ | .deliver _ | .interrupt | .failure | .reload _ _ | .reported _ | .nothing
  | .teardown => True

namespace Program

/-- The event asks for a reboot with the value: a request is sent, or the round queues the
reboot, that a connection with the capability of it has read. -/
def Asks (platform : Platform) (host : Host) (p : Program) (value : Int) : MainEvent → Prop
  | .sent .sigterm siginfo _ => siginfo.value = value
  | .ready ready answers _ => ∃ howtos s,
      p.server.roundReboots platform host ready answers = .ok (howtos, s) ∧
      ∃ howto ∈ howtos, howto.value = value ∧ p.server.Grants platform ready answers howto
  | .sent .sigchld _ _ | .sent .sighup _ _ | .sent .sigalrm _ _ | .terminated _ _ | .adopt _
  | .deliver _ | .interrupt | .failure | .reload _ _ | .reported _ | .nothing | .teardown => False

/-- Some event of the run has asked for it. -/
def Asked (platform : Platform) (host : Host) (ndebug : Bool) (boot : ServerBoot)
    (events : List MainEvent) (value : Int) : Prop :=
  ∃ before event after p, events = before ++ event :: after ∧
    run platform host ndebug boot before = .ok p ∧ p.Happens event ∧
    p.Asks platform host value event

variable {platform : Platform} {host : Host} {ndebug : Bool} {boot : ServerBoot}
variable {p p' : Program} {event : MainEvent} {events more : List MainEvent} {value : Int}

/-- A state of a run is sound, and one of the server or of the teardown of its daemons. -/
theorem run_refines (h : run platform host ndebug boot events = .ok p) :
    p.Sound ∧ p.Refines platform host ndebug boot := by
  have hrun := run_ok platform host ndebug boot events
  rw [h] at hrun
  exact hrun

/-- What was asked for stays asked for. -/
theorem Asked.append (h : Asked platform host ndebug boot events value) (more : List MainEvent) :
    Asked platform host ndebug boot (events ++ more) value := by
  obtain ⟨before, event, after, p, rfl, hrun, hcan, hasks⟩ := h
  exact ⟨before, event, after ++ more, p, by simp, hrun, hcan, hasks⟩

section Requests

/-- What is sent is added to the pending signals. -/
theorem send_mem {signal : Signal} {siginfo info : SignalInfo} {sending : Sending} {s : Signals}
    (h : info ∈ (s.send signal siginfo sending).pending signal) :
    info ∈ s.pending signal ∨ info = siginfo := by
  rcases send_cases signal siginfo sending s with ⟨heq, -⟩ | ⟨-, heq⟩
  · rw [heq] at h
    exact Or.inl h
  · rw [heq, setPending_pending, if_pos rfl] at h
    exact (List.mem_append.mp h).imp_right List.mem_singleton.mp

/-- What the queued reboots add to the pending signals. -/
theorem queueReboots_mem {howtos : List Howto} {answers : List (Option Sending)} {s : Signals}
    {info : SignalInfo} (h : info ∈ (s.queueReboots howtos answers).pending .sigterm) :
    info ∈ s.pending .sigterm ∨ ∃ howto ∈ howtos, info.value = howto.value := by
  induction howtos generalizing answers s with
  | nil => exact Or.inl h
  | cons howto howtos ih =>
    rcases ih h with hmem | ⟨other, hother, hvalue⟩
    · cases hanswer : answers.headD none with
      | none =>
        rw [hanswer] at hmem
        exact Or.inl hmem
      | some sending =>
        rw [hanswer, Signals.queueReboot] at hmem
        rcases send_mem hmem with hmem | rfl
        · exact Or.inl hmem
        · exact Or.inr ⟨howto, List.mem_cons_self, rfl⟩
    · exact Or.inr ⟨other, List.mem_cons_of_mem _ hother, hvalue⟩

/-- A signal that is merged is lost. -/
theorem send_merged {signal : Signal} {siginfo : SignalInfo} {s : Signals}
    (hpending : s.pending signal ≠ []) : s.send signal siginfo .merged = s := by
  have hlost : Sending.merged = .merged ∧ s.pending signal ≠ [] := ⟨rfl, hpending⟩
  rw [Signals.send, if_pos hlost, ite_self]

/-- So are reboots that are queued. -/
theorem queueReboots_merged {howtos : List Howto} {answers : List (Option Sending)} {s : Signals}
    (hmerges : ∀ sending, some sending ∈ answers → sending = .merged)
    (hpending : s.pending .sigterm ≠ []) : s.queueReboots howtos answers = s := by
  induction howtos generalizing answers with
  | nil => rfl
  | cons howto howtos ih =>
    have hone : s.queueReboot howto (answers.headD none) = s := by
      cases answers with
      | nil => rfl
      | cons answer answers =>
        cases answer with
        | none => rfl
        | some sending =>
          rw [List.headD_cons, hmerges sending List.mem_cons_self]
          exact send_merged hpending
    rw [Signals.queueReboots, hone]
    exact ih fun sending hmem => hmerges sending (List.mem_of_mem_tail hmem)

/-- A delivery takes the value of a pending request, or keeps the one there is. -/
theorem deliver_requests (signal : Signal) (s : Signals) :
    (∀ info ∈ (s.deliver signal).pending .sigterm, info ∈ s.pending .sigterm) ∧
      ((s.deliver signal).sigreboot = s.sigreboot ∨
        ∃ info ∈ s.pending .sigterm, (s.deliver signal).sigreboot = info.value) := by
  cases hpending : s.pending signal with
  | nil =>
    have hsame : s.deliver signal = s := by rw [Signals.deliver, hpending]
    rw [hsame]
    exact ⟨fun info hmem => hmem, Or.inl rfl⟩
  | cons siginfo infos =>
    rw [deliver_eq hpending]
    obtain ⟨-, -, hwaiting⟩ := handle_frame signal siginfo (s.setPending signal infos)
    rw [hwaiting, handle_sigreboot, setPending_pending]
    constructor
    · split
      · rename_i hsignal
        rw [hsignal, hpending]
        exact fun info hmem => List.mem_cons_of_mem _ hmem
      · exact fun info hmem => hmem
    · split
      · rename_i htaken
        rw [← htaken.1, hpending]
        exact Or.inr ⟨siginfo, List.mem_cons_self, rfl⟩
      · exact Or.inl rfl

/-- Where the requests that wait after an event come from, and the value that is set. -/
theorem Signalled.requests {s : Signals} (h : Signalled platform host p event s)
    (hinv : p.phase = .selecting → p.server.Invariant) :
    (∀ info ∈ s.pending .sigterm,
        info ∈ p.signals.pending .sigterm ∨ p.Asks platform host info.value event) ∧
      (s.sigreboot = p.signals.sigreboot ∨
        ∃ info ∈ p.signals.pending .sigterm, s.sigreboot = info.value) := by
  cases h with
  | quiet | reaped | teardown | reload => exact ⟨fun info hmem => Or.inl hmem, Or.inl rfl⟩
  | terminated info sending =>
    rw [send_frame, send_other (by decide)]
    exact ⟨fun info hmem => Or.inl hmem, Or.inl rfl⟩
  | sent signal siginfo sending =>
    rw [send_frame]
    refine ⟨fun info hmem => ?_, Or.inl rfl⟩
    by_cases hsignal : signal = .sigterm
    · subst hsignal
      exact (send_mem hmem).imp_right fun heq => congrArg SignalInfo.value heq.symm
    · rw [send_other (Ne.symm hsignal)] at hmem
      exact Or.inl hmem
  | deliver signal =>
    obtain ⟨hsub, hreboot⟩ := deliver_requests signal p.signals
    exact ⟨fun info hmem => Or.inl (hsub info hmem), hreboot⟩
  | @ready _ _ howtos _ queues hphase hround =>
    obtain ⟨hframe, -⟩ := queueReboots_frame howtos queues p.signals
    refine ⟨fun info hmem => ?_, Or.inl (by rw [hframe])⟩
    rcases queueReboots_mem hmem with hmem | ⟨howto, hhowto, hvalue⟩
    · exact Or.inl hmem
    · have hgrants := Server.roundReboots_granted (hinv hphase) hround howto hhowto
      exact Or.inr ⟨howtos, _, hround, howto, hhowto, hvalue.symm, hgrants⟩

/-- Where signals are merged, nothing joins a request that waits. -/
theorem Signalled.merged {s : Signals} (h : Signalled platform host p event s)
    (hmerges : event.Merges) (hpending : p.signals.pending .sigterm ≠ [])
    (hother : event ≠ .deliver .sigterm) :
    s.pending .sigterm = p.signals.pending .sigterm ∧ s.sigreboot = p.signals.sigreboot := by
  have hsent : ∀ (signal : Signal) (siginfo : SignalInfo),
      (p.signals.send signal siginfo .merged).pending .sigterm = p.signals.pending .sigterm ∧
        (p.signals.send signal siginfo .merged).sigreboot = p.signals.sigreboot := by
    intro signal siginfo
    by_cases hsignal : signal = .sigterm
    · subst hsignal
      rw [send_merged hpending]
      exact ⟨rfl, rfl⟩
    · exact ⟨send_other (Ne.symm hsignal), by rw [send_frame]⟩
  cases h with
  | quiet | reaped | teardown | reload => exact ⟨rfl, rfl⟩
  | terminated info sending =>
    rw [show sending = .merged from hmerges]
    exact hsent .sigchld .other
  | sent signal siginfo sending =>
    rw [show sending = .merged from hmerges]
    exact hsent signal siginfo
  | deliver signal =>
    have hsignal : signal ≠ .sigterm := fun heq => hother (congrArg MainEvent.deliver heq)
    cases hwaiting : p.signals.pending signal with
    | nil =>
      have hsame : p.signals.deliver signal = p.signals := by rw [Signals.deliver, hwaiting]
      rw [hsame]
      exact ⟨rfl, rfl⟩
    | cons siginfo infos =>
      obtain ⟨-, -, hsame⟩ := handle_frame signal siginfo (p.signals.setPending signal infos)
      rw [deliver_eq hwaiting, handle_sigreboot, hsame, setPending_pending,
        if_neg (Ne.symm hsignal), if_neg fun htaken => hsignal htaken.1]
      exact ⟨rfl, rfl⟩
  | ready queues =>
    rw [queueReboots_merged hmerges hpending]
    exact ⟨rfl, rfl⟩

/-- In the main loop, the server is sound. -/
theorem Refines.invariant (h : p.Refines platform host ndebug boot)
    (hphase : p.phase.tearsDown = false) : p.server.Invariant := by
  cases h with
  | loop events _ hrun => exact (reached_ok hrun).1
  | teardown _ _ _ htears =>
    rw [htears] at hphase
    cases hphase

/-- Whatever request waits, and whatever value is set, was asked for. -/
theorem run_asked (h : run platform host ndebug boot events = .ok p) :
    (∀ info ∈ p.signals.pending .sigterm, Asked platform host ndebug boot events info.value) ∧
      (p.signals.sigreboot = 0 ∨
        Asked platform host ndebug boot events p.signals.sigreboot) := by
  induction events using List.reverseRecOn generalizing p with
  | nil =>
    obtain ⟨p₀, hsetup, hevents⟩ := except_bind_eq_ok.mp h
    obtain ⟨s, -, hs⟩ := except_bind_eq_ok.mp hsetup
    cases hevents
    cases hs
    exact ⟨fun _ hmem => absurd hmem List.not_mem_nil, Or.inl rfl⟩
  | append_singleton done event ih =>
    obtain ⟨q, hdone, hstep⟩ := run_snoc_ok.mp h
    obtain ⟨hpending, hreboot⟩ := ih hdone
    by_cases hcan : q.Happens event
    · rw [step_act hcan] at hstep
      have hinv : q.phase = .selecting → q.server.Invariant := fun hphase =>
        (run_refines hdone).2.invariant (by rw [hphase]; rfl)
      obtain ⟨hrequests, hvalue⟩ := (act_spec hcan.2 hstep).1.requests hinv
      constructor
      · intro info hmem
        rcases hrequests info hmem with hmem | hasks
        · exact (hpending info hmem).append [event]
        · exact ⟨done, event, [], q, rfl, hdone, hcan, hasks⟩
      · rcases hvalue with hsame | ⟨info, hmem, htaken⟩
        · rw [hsame]
          exact hreboot.imp_right fun hasked => hasked.append [event]
        · rw [htaken]
          exact Or.inr ((hpending info hmem).append [event])
    · rw [step_idle q event hcan] at hstep
      cases hstep
      exact ⟨fun info hmem => (hpending info hmem).append [event],
        hreboot.imp_right fun hasked => hasked.append [event]⟩

end Requests

/-- In every run, the system is only rebooted with a value that it supports and that was asked
for, once no child is left and nothing is left of the switch. -/
theorem reboot_over_runs (platform : Platform) (host : Host) (ndebug : Bool) (boot : ServerBoot)
    (events : List MainEvent) :
    Outcome (Halts platform host ndebug boot events)
      (fun p => ∀ value, p.reboot = some value →
        Supported value ∧ Asked platform host ndebug boot events value ∧
        p.server.world.children = [] ∧ spawnsEmpty p.server.world = true ∧
        p.server.Clean boot)
      (run platform host ndebug boot events) := by
  apply (run_ok platform host ndebug boot events).result.mono _ fun _ ht => ht
  rintro p ⟨hrun, hsound, hrefines⟩ value hreboot
  rw [reboot] at hreboot
  split at hreboot
  swap
  · cases hreboot
  rename_i hphase
  have hvalue : p.signals.sigreboot = value := Option.some.inj hreboot
  have htears : p.phase.tearsDown = true := by rw [hphase]; rfl
  have hset := (MainPhase.allows_teardown htears p.signals).mp hsound.flags
  have hsupported := hsound.supported.resolve_left hset
  have hasked := (run_asked hrun).2.resolve_left hset
  rw [hvalue] at hsupported hasked
  cases hrefines with
  | loop _ hloop =>
    rw [htears] at hloop
    cases hloop
  | teardown _ s happened _ hreached hteardown hclean =>
    have hsynced : p.toTeardown.phase = .synced := by
      simp only [toTeardown, hphase]
      rfl
    obtain ⟨hchildren, hempty⟩ :=
      (teardown_quiet (reached_ok hreached).1.world hteardown).synced hsynced
    exact ⟨hsupported, hasked, hchildren, hempty, hclean⟩

section Teardown

/-- The teardown is not left. -/
theorem Refines.tearsDown (h : p.Refines platform host ndebug boot)
    (htears : p.phase.tearsDown = true) (hstep : p.step platform host ndebug event = .ok p') :
    p'.phase.tearsDown = true := by
  cases h with
  | loop _ hloop =>
    rw [htears] at hloop
    cases hloop
  | teardown events s happened _ hrun hteardown hclean =>
    obtain ⟨more, hfollows⟩ := @teardown_follows platform host ndebug boot p htears hclean event
    obtain ⟨t, ht, -⟩ := @Teardown.Quiet.run _ ndebug
      (teardown_quiet (reached_ok hrun).1.world hteardown) more
    rw [ht, hstep] at hfollows
    exact hfollows.2.1

/-- A value that is set stays set. -/
theorem act_keeps_reboot (hcan : p.Happens event)
    (hact : p.act platform host ndebug event = .ok p') (hset : p.signals.sigreboot ≠ 0) :
    p'.signals.sigreboot ≠ 0 := by
  have hsupported : p'.signals.sigreboot = p.signals.sigreboot ∨
      Supported p'.signals.sigreboot := by
    have hsignalled := (act_spec hcan.2 hact).1
    generalize p'.signals = s at hsignalled ⊢
    cases hsignalled with
    | quiet | reaped | teardown | reload => exact Or.inl rfl
    | terminated | sent =>
      rw [send_frame]
      exact Or.inl rfl
    | deliver signal =>
      obtain ⟨siginfo, infos, heq⟩ := List.exists_cons_of_ne_nil hcan.2.2.2
      rw [deliver_eq heq, handle_sigreboot]
      split
      · rename_i htaken
        exact Or.inr htaken.2
      · exact Or.inl rfl
    | @ready _ _ howtos _ queues =>
      rw [(queueReboots_frame howtos queues p.signals).1]
      exact Or.inl rfl
  rcases hsupported with hsame | hsupported
  · rw [hsame]
    exact hset
  · exact supported_ne_zero hsupported

/-- In the teardown, the value cannot change, as a `SIGTERM` is not delivered. -/
theorem Sound.frozen (h : p.Sound) (htears : p.phase.tearsDown = true) (hcan : p.Happens event)
    (hact : p.act platform host ndebug event = .ok p') :
    p'.signals.sigreboot = p.signals.sigreboot ∧
      p.signals.pending .sigterm <+: p'.signals.pending .sigterm := by
  have hsignalled := (act_spec hcan.2 hact).1
  generalize p'.signals = s at hsignalled ⊢
  cases hsignalled with
  | quiet | reaped | teardown | reload => exact ⟨rfl, List.prefix_rfl⟩
  | terminated | sent => exact ⟨by rw [send_frame], send_pending _ _ _ _ _⟩
  | deliver signal =>
    have hother := ((h.delivered hcan.2.2.1 hcan.2.2.2).2 htears).1
    obtain ⟨siginfo, infos, heq⟩ := List.exists_cons_of_ne_nil hcan.2.2.2
    obtain ⟨-, -, hwaiting⟩ := handle_frame signal siginfo (p.signals.setPending signal infos)
    rw [deliver_eq heq, handle_sigreboot, hwaiting, setPending_pending,
      if_neg fun htaken => hother htaken.1, if_neg (Ne.symm hother)]
    exact ⟨rfl, List.prefix_rfl⟩
  | ready _ hphase =>
    rw [hphase] at htears
    cases htears

/-- The alarm waits, or it has rung. -/
def Rings (s : Signals) : Prop := s.pending .sigalrm ≠ [] ∨ s.sigalrm = true

/-- An alarm that rings is not silenced. -/
theorem Signalled.rings {s : Signals} (h : Signalled platform host p event s)
    (hrings : Rings p.signals) : Rings s := by
  have hsent : ∀ t : Signals, t = { p.signals with pending := t.pending } →
      p.signals.pending .sigalrm <+: t.pending .sigalrm → Rings t := by
    intro t hframe hpre
    rcases hrings with hpending | hflag
    · exact Or.inl fun hnil => hpending (List.prefix_nil.mp (hnil ▸ hpre))
    · rw [hframe]
      exact Or.inr hflag
  cases h with
  | quiet | reaped | teardown | reload => exact hrings
  | terminated | sent => exact hsent _ (send_frame _ _ _ _) (send_pending _ _ _ _ _)
  | @ready _ _ howtos _ queues =>
    obtain ⟨hframe, hpre, -⟩ := queueReboots_frame howtos queues p.signals
    exact hsent _ hframe (hpre .sigalrm)
  | deliver signal =>
    cases hpending : p.signals.pending signal with
    | nil =>
      have hsame : p.signals.deliver signal = p.signals := by rw [Signals.deliver, hpending]
      rw [hsame]
      exact hrings
    | cons siginfo infos =>
      rw [deliver_eq hpending]
      obtain ⟨-, -, hwaiting⟩ := handle_frame signal siginfo (p.signals.setPending signal infos)
      obtain ⟨-, -, halrm⟩ := handle_flags signal siginfo (p.signals.setPending signal infos)
      rw [Rings, hwaiting, halrm, setPending_pending]
      rcases hrings with hwaits | hflag
      · by_cases hsignal : signal = .sigalrm
        · exact Or.inr (by simp [hsignal])
        · rw [if_neg (Ne.symm hsignal)]
          exact Or.inl hwaits
      · exact Or.inr (Bool.or_eq_true_iff.mpr (Or.inl hflag))

/-- In the teardown, once its alarm has been sent, the program does not rest in `sigsuspend(2)`. -/
theorem Sound.rang (h : p.Sound) (htears : p.phase.tearsDown = true) (hrings : Rings p.signals)
    (hasleep : p.Asleep) :
    p.phase = .ending ∧ p.server.world.children ≠ [] ∨ p.phase = .rebooting := by
  cases h.rests hasleep with
  | selecting hphase =>
    rw [hphase] at htears
    cases htears
  | suspended _ _ _ halrm hrang =>
    rcases hrings with hpending | hflag
    · exact absurd halrm hpending
    · rw [hrang] at hflag
      cases hflag
  | ending hphase _ hchildren => exact Or.inl ⟨hphase, hchildren⟩
  | rebooting hphase => exact Or.inr hphase

/-- The teardown waits, and no signal that it waits for is pending. -/
def Waits (p : Program) : Prop :=
  p.phase = .suspended ∧ p.signals.pending .sigchld = [] ∧ p.signals.pending .sigalrm = []

/-- A teardown that waits is only woken by its alarm or by the signal of a child. -/
theorem Sound.waiting (h : p.Sound) (hwaits : p.Waits) (hcan : p.Happens event)
    (hact : p.act platform host ndebug event = .ok p') : p'.Waits ∨ event.wakes = true := by
  obtain ⟨hphase, hchld, halrm⟩ := hwaits
  have henabled := hcan.2
  cases event with
  | terminated => exact Or.inr rfl
  | sent signal siginfo sending =>
    cases hact
    cases signal with
    | sigchld | sigalrm => exact Or.inr rfl
    | sigterm | sighup =>
      refine Or.inl ⟨hphase, ?_, ?_⟩
      · rw [send_other (by decide), hchld]
      · rw [send_other (by decide), halrm]
  | adopt pid =>
    obtain ⟨s, -, hact⟩ := except_bind_eq_ok.mp hact
    cases hact
    exact Or.inl ⟨hphase, hchld, halrm⟩
  | deliver signal =>
    have hother := (h.delivered henabled.2.1 henabled.2.2).2 (by rw [hphase]; rfl)
    have hpending := henabled.2.2
    cases signal with
    | sigterm => exact absurd rfl hother.1
    | sighup => exact absurd rfl hother.2
    | sigchld => exact absurd hchld hpending
    | sigalrm => exact absurd halrm hpending
  | interrupt | failure | ready | reload | reported | nothing | teardown =>
    simp [Enabled, hphase, MainPhase.reaps] at henabled

end Teardown

/-- What a state of a run keeps, its later states do. -/
theorem run_since (inv : Program → Prop)
    (hstep : ∀ q event q', q.Sound → q.Refines platform host ndebug boot → q.Happens event →
      q.step platform host ndebug event = .ok q' → inv q → inv q')
    (h : run platform host ndebug boot events = .ok p)
    (hmore : more.foldlM (step platform host ndebug) p = .ok p') (hp : inv p) : inv p' := by
  obtain ⟨hsound, hrefines⟩ := run_refines h
  have hkept := kept_by_run
    (fun q => (q.Sound ∧ q.Refines platform host ndebug boot) ∧ inv q)
    (fun q event q' hq' hq => by
      obtain ⟨⟨hq, hqrefines⟩, hinv⟩ := hq
      have hnext := hqrefines.step event
      rw [hq'] at hnext
      refine ⟨⟨hq.step hq', hnext⟩, ?_⟩
      by_cases hcan : q.Happens event
      · exact hstep q event q' hq hqrefines hcan hq' hinv
      · rw [step_idle q event hcan] at hq'
        cases hq'
        exact hinv)
    hmore ⟨⟨hsound, hrefines⟩, hp⟩
  exact hkept.2

/-- In every run, once the value of the reboot is set the program does not go back to
`pselect(2)`. In the teardown neither requests nor connections change the value. -/
theorem decided_over_runs (platform : Platform) (host : Host) (ndebug : Bool) (boot : ServerBoot)
    (before after : List MainEvent) :
    Outcome (Halts platform host ndebug boot (before ++ after))
      (fun p' => ∃ p, run platform host ndebug boot before = .ok p ∧
        (p.signals.sigreboot ≠ 0 → p'.signals.sigreboot ≠ 0 ∧ p'.phase ≠ .selecting) ∧
        (p.phase.tearsDown = true → p'.phase.tearsDown = true ∧
          p'.signals.sigreboot = p.signals.sigreboot ∧
          p.signals.pending .sigterm <+: p'.signals.pending .sigterm))
      (run platform host ndebug boot (before ++ after)) := by
  apply (run_ok platform host ndebug boot (before ++ after)).result.mono _ fun _ ht => ht
  rintro p' ⟨hrun, hsound, -⟩
  obtain ⟨p, hbefore, hafter⟩ := run_append_ok.mp hrun
  refine ⟨p, hbefore, fun hset => ?_, fun htears => ?_⟩
  · have hkept : p'.signals.sigreboot ≠ 0 := run_since (fun q => q.signals.sigreboot ≠ 0)
      (fun q event q' _ _ hcan hstep hset => act_keeps_reboot hcan (step_act hcan ▸ hstep) hset)
      hbefore hafter hset
    refine ⟨hkept, fun hphase => hkept ?_⟩
    have hflags := hsound.flags
    rw [hphase] at hflags
    exact hflags.2.2
  · refine run_since (fun q => q.phase.tearsDown = true ∧
      q.signals.sigreboot = p.signals.sigreboot ∧
      p.signals.pending .sigterm <+: q.signals.pending .sigterm) ?_ hbefore hafter
      ⟨htears, rfl, List.prefix_rfl⟩
    rintro q event q' hq hrefines hcan hstep ⟨htears, hreboot, hpre⟩
    obtain ⟨hreboot', hpre'⟩ := hq.frozen htears hcan (step_act hcan ▸ hstep)
    exact ⟨hrefines.tearsDown htears hstep, hreboot'.trans hreboot, hpre.trans hpre'⟩

/-- In every run, once the alarm of the teardown has been sent, the program handles what is
pending in a bounded number of steps, whatever their order, and then either waits for the
processes that it has killed, or reboots. -/
theorem alarm_over_runs (platform : Platform) (host : Host) (ndebug : Bool) (boot : ServerBoot)
    (before after : List MainEvent) (siginfo : SignalInfo) (sending : Sending) :
    Outcome (Halts platform host ndebug boot
        (before ++ .sent .sigalrm siginfo sending :: after))
      (fun p' => ∃ p, run platform host ndebug boot before = .ok p ∧
        (p.phase.tearsDown = true → ∀ l q, Proceeds platform host ndebug p' l q →
          l.length ≤ 8 * p'.signals.pendingCount + p'.zombies.length + 15 ∧
          (q.Asleep →
            q.phase = .ending ∧ q.server.world.children ≠ [] ∨ q.phase = .rebooting)))
      (run platform host ndebug boot (before ++ .sent .sigalrm siginfo sending :: after)) := by
  apply (run_ok platform host ndebug boot _).result.mono _ fun _ ht => ht
  rintro p' ⟨hrun, hsound, hrefines⟩
  obtain ⟨p, hbefore, hsince⟩ := run_append_ok.mp hrun
  refine ⟨p, hbefore, fun htears l q hl => ?_⟩
  obtain ⟨hq, hle⟩ := (hrefines.exhausts hsound).1 l q hl
  refine ⟨hle.trans p'.rank_le, fun hasleep => ?_⟩
  obtain ⟨p₁, hsent, hafter⟩ := foldlM_cons_ok.mp hsince
  have hfirst : p₁.phase = .rebooting ∨ p₁.phase.tearsDown = true ∧ Rings p₁.signals := by
    by_cases hcan : p.Happens (.sent .sigalrm siginfo sending)
    · rw [step_act hcan] at hsent
      cases hsent
      have hhandled := (run_refines hbefore).1.handled .sigalrm (Or.inr htears)
      exact Or.inr ⟨htears, Or.inl (send_self hhandled)⟩
    · have hphase : p.phase = .rebooting := by
        by_contra hlives
        exact hcan ⟨hlives, trivial⟩
      rw [step_idle p _ hcan] at hsent
      cases hsent
      exact Or.inl hphase
  have hreached := run_snoc_ok.mpr ⟨p, hbefore, hsent⟩
  have hlast := run_since
    (fun q => q.phase = .rebooting ∨ q.phase.tearsDown = true ∧ Rings q.signals)
    (fun q event q' hq hrefines hcan hstep hinv =>
      have hinv := hinv.resolve_left hcan.1
      Or.inr ⟨hrefines.tearsDown hinv.1 hstep,
        (act_spec hcan.2 (step_act hcan ▸ hstep)).1.rings hinv.2⟩)
    hreached (foldlM_append_ok.mpr ⟨p', hafter, hl.run⟩) hfirst
  rcases hlast with hphase | ⟨htears', hrings⟩
  · exact Or.inr hphase
  · exact hq.rang htears' hrings hasleep

/-- In every run, where the system merges signals, whatever is asked for while one request waits
is lost: the next delivery is the one of that request, even of one that is not supported. -/
theorem merged_over_runs (platform : Platform) (host : Host) (ndebug : Bool) (boot : ServerBoot)
    (before after : List MainEvent) (siginfo : SignalInfo) :
    Outcome (Halts platform host ndebug boot (before ++ after))
      (fun p' => ∃ p, run platform host ndebug boot before = .ok p ∧
        (p.signals.pending .sigterm = [siginfo] → (∀ event ∈ after, event.Merges) →
          (p'.signals.pending .sigterm = [siginfo] ∧
            p'.signals.sigreboot = p.signals.sigreboot) ∨
          ∃ front back q, after = front ++ .deliver .sigterm :: back ∧
            run platform host ndebug boot (before ++ front ++ [.deliver .sigterm]) = .ok q ∧
            q.signals.pending .sigterm = [] ∧
            q.signals.sigreboot =
              if Supported siginfo.value then siginfo.value else p.signals.sigreboot))
      (run platform host ndebug boot (before ++ after)) := by
  apply (run_ok platform host ndebug boot (before ++ after)).result.mono _ fun _ ht => ht
  rintro p' ⟨hrun, -⟩
  obtain ⟨p, hbefore, hafter⟩ := run_append_ok.mp hrun
  refine ⟨p, hbefore, fun hpending hmerges => ?_⟩
  have hstep : ∀ (q : Program), ∀ event ∈ after, ∀ q', q.step platform host ndebug event = .ok q' →
      q.signals.pending .sigterm = [siginfo] ∧ q.signals.sigreboot = p.signals.sigreboot →
        (q'.signals.pending .sigterm = [siginfo] ∧
          q'.signals.sigreboot = p.signals.sigreboot) ∨
        (q.signals.pending .sigterm = [siginfo] ∧ q.signals.sigreboot = p.signals.sigreboot) ∧
          q.Happens (.deliver .sigterm) ∧ event = .deliver .sigterm := by
    rintro q event hmem q' hstep hwaits
    by_cases hcan : q.Happens event
    · by_cases hother : event = .deliver .sigterm
      · exact Or.inr ⟨hwaits, hother ▸ hcan, hother⟩
      · obtain ⟨hsame, hreboot⟩ := (act_spec hcan.2 (step_act hcan ▸ hstep)).1.merged
          (hmerges event hmem) (by rw [hwaits.1]; exact List.cons_ne_nil _ _) hother
        exact Or.inl ⟨hsame.trans hwaits.1, hreboot.trans hwaits.2⟩
    · rw [step_idle q event hcan] at hstep
      cases hstep
      exact Or.inl hwaits
  rcases owed_until _ _ hstep hafter ⟨hpending, rfl⟩ with
    hwaits | ⟨front, event, back, q, hsplit, hfront, hwaits, hcan, rfl⟩
  · exact Or.inl hwaits
  · refine Or.inr ⟨front, back, { q with
      signals := q.signals.deliver .sigterm, phase := q.phase.interrupt }, hsplit, ?_, ?_⟩
    · exact run_snoc_ok.mpr ⟨q, run_append_ok.mpr ⟨p, hbefore, hfront⟩, step_act hcan⟩
    · obtain ⟨-, -, hsame⟩ := handle_frame .sigterm siginfo (q.signals.setPending .sigterm [])
      rw [deliver_eq hwaits.1, hsame, handle_sigreboot, setPending_pending, if_pos rfl, ← hwaits.2]
      refine ⟨rfl, ?_⟩
      simp only [true_and]
      rfl

/-- In every run, a teardown that begins without the signal of a child waits until one happens, or
its alarm, even if there is no child to wait for. -/
theorem waits_over_runs (platform : Platform) (host : Host) (ndebug : Bool) (boot : ServerBoot)
    (before after : List MainEvent) :
    Outcome (Halts platform host ndebug boot (before ++ .teardown :: after))
      (fun p' => ∃ p since, run platform host ndebug boot before = .ok p ∧
        history platform host ndebug boot (before ++ .teardown :: after) =
          history platform host ndebug boot (before ++ [.teardown]) ++ since ∧
        (p.phase = .leaving → p.signals.pending .sigchld = [] →
          p'.phase = .suspended ∧ p'.signals.sigalrm = false ∨
            ∃ event ∈ since, event.wakes = true))
      (run platform host ndebug boot (before ++ .teardown :: after)) := by
  apply (run_ok platform host ndebug boot _).result.mono _ fun _ ht => ht
  rintro p' ⟨hrun, hsound, -⟩
  have happend : before ++ .teardown :: after = before ++ [.teardown] ++ after :=
    List.append_cons ..
  rw [happend] at hrun ⊢
  obtain ⟨p₁, hreached, hafter⟩ := run_append_ok.mp hrun
  obtain ⟨p, hbefore, hteardown⟩ := run_snoc_ok.mp hreached
  refine ⟨p, _, hbefore, history_append hreached, fun hphase hchld => ?_⟩
  have hfirst : p₁.Waits := by
    have hcan : p.Happens .teardown := ⟨by rw [hphase]; decide, hphase⟩
    rw [step_act hcan] at hteardown
    obtain ⟨w, -, hact⟩ := except_bind_eq_ok.mp hteardown
    obtain ⟨s, -, hact⟩ := except_bind_eq_ok.mp hact
    cases hact
    exact ⟨rfl, hchld, ((run_refines hbefore).1.silent (by rw [hphase]; rfl)).2⟩
  have hkept := (happening_schedule step_idle hafter).keeps
    (fun done q => q.Sound ∧ (q.Waits ∨ ∃ event ∈ done, event.wakes = true))
    (fun done q event q' hq hcan hstep => by
      obtain ⟨hq, hwaits | ⟨event', hmem, hwakes⟩⟩ := hq
      · refine ⟨hq.step hstep, ?_⟩
        exact (hq.waiting hwaits hcan (step_act hcan ▸ hstep)).imp_right fun hwakes =>
          ⟨event, by simp, hwakes⟩
      · exact ⟨hq.step hstep, Or.inr ⟨event', List.mem_append_left _ hmem, hwakes⟩⟩)
    ⟨run_sound hreached, Or.inl hfirst⟩
  exact hkept.2.imp_left fun hwaits => ⟨hwaits.1, hsound.waits (Or.inr hwaits.1)⟩

end Program

end Cyberd
