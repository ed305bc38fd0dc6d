import Cyberd.Connection.Parser

/-!
# The signals of the program

The functions of `signals.c`, with the mask of the process, its handlers, and the signals
that wait for their delivery. The system may merge a signal with a pending one, and it
discards those that have no handler, as an init process does not receive them.
-/

namespace Cyberd

/-- The signals that the program handles. -/
inductive Signal
  | sigterm
  | sigchld
  | sighup
  | sigalrm
  deriving DecidableEq, Repr

/-- `sigset_t`, of the signals that the program handles. -/
abbrev Sigset := Signal → Bool

/-- `sigemptyset(3)` -/
def sigemptyset : Sigset := fun _ => false

/-- `sigaddset(3)` -/
def sigaddset (signal : Signal) (set : Sigset) : Sigset := fun n => n == signal || set n

/-- `sigdelset(3)` -/
def sigdelset (signal : Signal) (set : Sigset) : Sigset := fun n => n != signal && set n

/-- `siginfo_t`, as `sigterm_handler` reads it. -/
inductive SignalInfo
  /-- `SI_QUEUE`, with `si_value.sival_int`. -/
  | queue (value : Int)
  /-- Another `si_code`. -/
  | other
  deriving DecidableEq, Repr

/-- The value of a constant that an `int` holds. -/
def sigval (word : BitVec 32) : Int := word.toInt

/-- `RB_AUTOBOOT` -/
def rbAutoboot : Int := sigval 0x01234567#32

/-- `RB_HALT_SYSTEM` -/
def rbHaltSystem : Int := sigval 0xcdef0123#32

/-- `RB_POWER_OFF` -/
def rbPowerOff : Int := sigval 0x4321fedc#32

/-- `RB_SW_SUSPEND` -/
def rbSwSuspend : Int := sigval 0xd000fce2#32

/-- The argument of `queue_reboot`. -/
def Howto.value : Howto → Int
  | .powerOff => rbPowerOff
  | .haltSystem => rbHaltSystem
  | .autoboot => rbAutoboot
  | .swSuspend => rbSwSuspend

/-- The flags of the handlers, and the signals of the process. -/
structure Signals where
  /-- `sigreboot` -/
  sigreboot : Int
  /-- `sigchld` -/
  sigchld : Bool
  /-- `sighup` -/
  sighup : Bool
  /-- `sigalrm` -/
  sigalrm : Bool
  /-- The signal mask of the process. -/
  procmask : Sigset
  /-- The signals that have a handler. -/
  handled : Sigset
  /-- The signals that wait for their delivery, in its order. -/
  pending : Signal → List SignalInfo

/-- The answer of the system to a signal that is sent while one is pending. -/
inductive Sending
  /-- It is delivered later as well. -/
  | queued
  /-- It is merged with the one that is pending. -/
  | merged
  deriving DecidableEq, Repr

namespace Signals

/-- The process at the entry of the program. -/
def initial : Signals := ⟨0, false, false, false, sigemptyset, sigemptyset, fun _ => []⟩

/-- `sigterm_handler` -/
def sigtermHandler (siginfo : SignalInfo) (s : Signals) : Signals :=
  match siginfo with
  | .queue value =>
    if value = rbAutoboot then { s with sigreboot := value }
    else if value = rbHaltSystem then { s with sigreboot := value }
    else if value = rbPowerOff then { s with sigreboot := value }
    -- Neither the suspend, which is not supported, nor an invalid value changes it.
    else if value = rbSwSuspend then s
    else s
  | .other => { s with sigreboot := rbPowerOff }

/-- `sigchld_handler` -/
def sigchldHandler (s : Signals) : Signals := { s with sigchld := true }

/-- `sighup_handler` -/
def sighupHandler (s : Signals) : Signals := { s with sighup := true }

/-- `sigalrm_handler` -/
def sigalrmHandler (s : Signals) : Signals := { s with sigalrm := true }

/-- The handler of a signal. -/
def handle : Signal → SignalInfo → Signals → Signals
  | .sigterm, siginfo, s => s.sigtermHandler siginfo
  | .sigchld, _, s => s.sigchldHandler
  | .sighup, _, s => s.sighupHandler
  | .sigalrm, _, s => s.sigalrmHandler

/-- `sigaction(2)`, with the handler of the signal. -/
def sigaction (signal : Signal) (s : Signals) : Signals :=
  { s with handled := sigaddset signal s.handled }

/-- `signals_setup`, with the mask of `pselect(2)`. -/
def signalsSetup (s : Signals) : Sigset × Signals :=
  let sigmask := sigaddset .sigterm sigemptyset
  let sigmask := sigaddset .sigchld sigmask
  let sigmask := sigaddset .sighup sigmask
  let s := { s with procmask := sigmask }
  let s := s.sigaction .sigterm
  let s := s.sigaction .sigchld
  let s := s.sigaction .sighup
  (sigemptyset, s)

/-- `signals_alarm`, with the mask of `sigsuspend(2)`. -/
def signalsAlarm (s : Signals) : Sigset × Signals :=
  let sigmask := sigaddset .sigalrm sigemptyset
  let oldmask := s.procmask
  let s := { s with procmask := fun n => sigmask n || s.procmask n }
  let s := s.sigaction .sigalrm
  (sigdelset .sigchld oldmask, s)

/-- The signal is discarded, because it has no handler and is not blocked. -/
def discards (s : Signals) (signal : Signal) : Bool := !s.handled signal && !s.procmask signal

/-- The signals that wait for their delivery change. -/
def setPending (s : Signals) (signal : Signal) (infos : List SignalInfo) : Signals :=
  { s with pending := fun n => if n = signal then infos else s.pending n }

/-- A signal is sent to the process. -/
def send (signal : Signal) (siginfo : SignalInfo) (sending : Sending) (s : Signals) : Signals :=
  if s.discards signal then s
  else if sending = .merged ∧ s.pending signal ≠ [] then s
  else s.setPending signal (s.pending signal ++ [siginfo])

/-- The delivery of a pending signal, its handler runs. -/
def deliver (signal : Signal) (s : Signals) : Signals :=
  match s.pending signal with
  | [] => s
  | siginfo :: infos => (s.setPending signal infos).handle signal siginfo

/-- `queue_reboot`, on none when `sigqueue(3)` fails. -/
def queueReboot (howto : Howto) (answer : Option Sending) (s : Signals) : Signals :=
  match answer with
  | some sending => s.send .sigterm (.queue howto.value) sending
  | none => s

/-- Reboots are queued one after the other. -/
def queueReboots : List Howto → List (Option Sending) → Signals → Signals
  | [], _, s => s
  | howto :: howtos, answers, s =>
    queueReboots howtos answers.tail (s.queueReboot howto (answers.headD none))

end Signals

/-- The value is one that the system can be rebooted with. -/
def Supported (value : Int) : Prop :=
  value = rbAutoboot ∨ value = rbHaltSystem ∨ value = rbPowerOff

instance (value : Int) : Decidable (Supported value) := inferInstanceAs (Decidable (_ ∨ _))

/-- The value that a `SIGTERM` asks for. -/
def SignalInfo.value : SignalInfo → Int
  | .queue value => value
  | .other => rbPowerOff

section Access

variable {s : Signals} {signal n : Signal} {siginfo : SignalInfo} {infos : List SignalInfo}

/-- None of the values that the handler supports is zero. -/
theorem supported_ne_zero {value : Int} (h : Supported value) : value ≠ 0 := by
  rcases h with rfl | rfl | rfl <;> decide

/-- `sigterm_handler` takes the value of a request that is supported, and ignores the others. -/
theorem sigtermHandler_eq (siginfo : SignalInfo) (s : Signals) :
    s.sigtermHandler siginfo =
      if Supported siginfo.value then { s with sigreboot := siginfo.value } else s := by
  cases siginfo with
  | other => rfl
  | queue value =>
    have hvalue : (SignalInfo.queue value).value = value := rfl
    rw [hvalue, Signals.sigtermHandler]
    by_cases hauto : value = rbAutoboot
    · have hsupported : Supported value := Or.inl hauto
      rw [if_pos hauto, if_pos hsupported]
    · rw [if_neg hauto]
      by_cases hhalt : value = rbHaltSystem
      · have hsupported : Supported value := Or.inr (Or.inl hhalt)
        rw [if_pos hhalt, if_pos hsupported]
      · rw [if_neg hhalt]
        by_cases hoff : value = rbPowerOff
        · have hsupported : Supported value := Or.inr (Or.inr hoff)
          rw [if_pos hoff, if_pos hsupported]
        · have hunsupported : ¬ Supported value := by
            rintro (h | h | h)
            · exact hauto h
            · exact hhalt h
            · exact hoff h
          rw [if_neg hoff, ite_self, if_neg hunsupported]

@[simp] theorem setPending_pending : (s.setPending signal infos).pending n =
    if n = signal then infos else s.pending n := rfl

/-- A handler leaves the mask, the handlers and the pending signals as they are. -/
theorem handle_frame (signal : Signal) (siginfo : SignalInfo) (s : Signals) :
    (s.handle signal siginfo).procmask = s.procmask ∧
      (s.handle signal siginfo).handled = s.handled ∧
      (s.handle signal siginfo).pending = s.pending := by
  cases signal with
  | sigterm =>
    simp only [Signals.handle, sigtermHandler_eq]
    split <;> exact ⟨rfl, rfl, rfl⟩
  | sigchld | sighup | sigalrm => exact ⟨rfl, rfl, rfl⟩

/-- It raises the flag of its signal, and leaves the other ones as they are. -/
theorem handle_flags (signal : Signal) (siginfo : SignalInfo) (s : Signals) :
    (s.handle signal siginfo).sigchld = (s.sigchld || signal == .sigchld) ∧
      (s.handle signal siginfo).sighup = (s.sighup || signal == .sighup) ∧
      (s.handle signal siginfo).sigalrm = (s.sigalrm || signal == .sigalrm) := by
  cases signal with
  | sigterm =>
    simp only [Signals.handle, sigtermHandler_eq]
    split <;> simp
  | sigchld | sighup | sigalrm =>
    simp [Signals.handle, Signals.sigchldHandler, Signals.sighupHandler, Signals.sigalrmHandler]

/-- Only the handler of `SIGTERM` may change the value of the reboot. -/
theorem handle_sigreboot (signal : Signal) (siginfo : SignalInfo) (s : Signals) :
    (s.handle signal siginfo).sigreboot =
      if signal = .sigterm ∧ Supported siginfo.value then siginfo.value else s.sigreboot := by
  cases signal with
  | sigterm =>
    simp only [Signals.handle, sigtermHandler_eq, true_and]
    split <;> rfl
  | sigchld | sighup | sigalrm => rfl

end Access

end Cyberd
