import Cyberd.Conf.Numbers
import Cyberd.Conf.Overrides

/-!
# The names of signals

A signal is its number, its name in any case after an optional `SIG`, or `RT` and a
number. The number is compared with `NSIG` itself, and not with 0; the number behind
`RT` is whatever `strtoul(3)` reads to the end, be it nothing at all.
-/

namespace Cyberd

open Library

variable {host : Host} {value body tail pre text rest : Name} {n : Nat}

/-- The text begins with a prefix, in any case. -/
def Prefixed (pre text rest : Name) : Prop :=
  ∃ front, text = front ++ rest ∧ strCaseEq pre front = true

/-- The text behind an optional `SIG`. -/
def AfterSig (value body : Name) : Prop := Prefixed (ascii "SIG") value body ∨ body = value

/-- The signal that a name denotes. -/
inductive NameDenotes (host : Host) (body : Name) : Nat → Prop
  /-- A name of the table. -/
  | named {signo : Nat} {name : Name} (entry : (signo, name) ∈ signals)
      (same : strCaseEq name body = true) : NameDenotes host body signo
  /-- A realtime signal, where there are any. -/
  | realtime {tail : Name} {n : Nat} (rtsig : host.hasRtsig = true)
      (rt : Prefixed (ascii "RT") body tail) (numeral : Numeral 10 tail n)
      (le : sigrtmin + n ≤ sigrtmax) : NameDenotes host body (sigrtmin + n)

/-- The signal that a value denotes. -/
inductive Denotes (host : Host) (value : Name) : Nat → Prop
  /-- The number of a signal. -/
  | number {n : Nat} (numeral : Numeral 10 value n) (pos : 0 < n) (lt : n < nsig) :
      Denotes host value n
  /-- The name of a signal. -/
  | name {body : Name} {n : Nat} (sig : AfterSig value body) (denotes : NameDenotes host body n) :
      Denotes host value n

/-- `daemon_conf_signal` gives the signal that the value denotes, and nothing else. -/
def SignalExact (host : Host) (value : Name) : Prop :=
  ∀ n, daemonConfSignal host (some value) = some n ↔ Denotes host value n

/-- The value is neither the number 0 nor `NSIG`, and what follows `RT` is a plain
numeral if `strtoul(3)` reads a number of a realtime signal from it. -/
structure SignalPlain (host : Host) (value : Name) : Prop where
  /-- The number, if the value is one. -/
  number : ∀ n, Numeral 10 value n → n ≠ 0 ∧ n ≠ nsig
  /-- The number of a realtime signal. -/
  realtime : host.hasRtsig = true → ∀ body tail, AfterSig value body →
    Prefixed (ascii "RT") body tail → tail ≠ [] ∧
      ∀ z, SignedNumeral 10 (tail.dropWhile isSpace) z →
        strtoulValue z ≤ sigrtmax - sigrtmin → ∃ n, Numeral 10 tail n

/-- Both signals of a configuration are signals. -/
structure DaemonConf.Deliverable (conf : DaemonConf) : Prop where
  /-- The signal that stops the daemon. -/
  sigfinish : 0 < conf.sigfinish ∧ conf.sigfinish < nsig
  /-- The signal that has it reload. -/
  sigreload : 0 < conf.sigreload ∧ conf.sigreload < nsig

/-- The value is not for a signal, or it is neither the number 0 nor `NSIG`. -/
def HandedValue.WithinLimits (handed : HandedValue) : Prop :=
  handed.sec = .general → handed.key = ascii "sigfinish" ∨ handed.key = ascii "sigreload" →
    ∀ value n, handed.value = some value → Numeral 10 value n → n ≠ 0 ∧ n ≠ nsig

/-- A prefix is compared like `strncasecmp(3)` does. -/
theorem prefixed_iff :
    Prefixed pre text rest ↔
      strnCaseEq pre text pre.length = true ∧ rest = text.drop pre.length := by
  have htake : pre.take pre.length = pre := List.take_length
  constructor
  · rintro ⟨front, rfl, hsame⟩
    have hlen : pre.length = front.length := by
      rw [strCaseEq, beq_iff_eq] at hsame
      simpa using congrArg List.length hsame
    rw [strnCaseEq, htake, hlen, List.take_left, List.drop_left]
    exact ⟨hsame, rfl⟩
  · rintro ⟨hsame, rfl⟩
    rw [strnCaseEq, htake] at hsame
    exact ⟨_, (List.take_append_drop _ _).symm, hsame⟩

/-- Texts that are the same in any case begin with the same byte. -/
theorem strCaseEq_head (h : strCaseEq pre text = true) :
    pre.head?.map toLower = text.head?.map toLower := by
  rw [strCaseEq, beq_iff_eq] at h
  rw [← List.head?_map, ← List.head?_map, h]

/-- A text begins with the byte of its prefix. -/
theorem Prefixed.head (h : Prefixed pre text rest) (hne : pre ≠ []) :
    pre.head?.map toLower = text.head?.map toLower := by
  obtain ⟨front, rfl, hsame⟩ := h
  have hhead := strCaseEq_head hsame
  cases front with
  | nil =>
    cases pre with
    | nil => exact absurd rfl hne
    | cons byte pre => cases hhead
  | cons byte front => exact hhead

/-- A digit is in no case. -/
theorem toLower_digit {byte : UInt8} (h : isDigit byte = true) : toLower byte = byte := by
  unfold isDigit digitOf at h
  split at h
  · rename_i hbyte
    unfold toLower
    rw [if_neg]
    rintro ⟨hle, -⟩
    have h65 : 65 ≤ byte.toNat := hle
    omega
  · cases h

/-- No name denotes a signal where the value begins with a digit. -/
theorem not_name_of_digit {byte : UInt8} {more : Name} (hbyte : isDigit byte = true)
    (hvalue : value = byte :: more) (hsig : AfterSig value body) :
    ¬ NameDenotes host body n ∧ ∀ tail, ¬ Prefixed (ascii "RT") body tail := by
  have hlower : value.head?.map toLower = some byte := by
    rw [hvalue]
    exact congrArg some (toLower_digit hbyte)
  have hletter : ∀ text : Name, text.head?.map toLower ∈ [some 115, some 114] →
      text.head?.map toLower ≠ some byte := by
    intro text hmem heq
    rw [heq] at hmem
    simp only [List.mem_cons, Option.some.injEq, List.not_mem_nil, or_false] at hmem
    rcases hmem with rfl | rfl
    · exact absurd hbyte (by decide)
    · exact absurd hbyte (by decide)
  rcases hsig with hsig | rfl
  · exact absurd ((hsig.head (by decide)).trans hlower) (hletter _ (by decide))
  · have hrt : ∀ tail, ¬ Prefixed (ascii "RT") body tail := fun tail hrt =>
      absurd ((hrt.head (by decide)).trans hlower) (hletter _ (by decide))
    refine ⟨fun hname => ?_, hrt⟩
    cases hname with
    | realtime _ h => exact hrt _ h
    | named hentry hsame =>
      have htable : ∀ entry ∈ signals,
          (entry.2.head?.map toLower).any isDigit = false := by decide
      have hhead := htable _ hentry
      rw [strCaseEq_head hsame, hlower, Option.any_some] at hhead
      rw [hhead] at hbyte
      cases hbyte

/-- A value that begins with a digit is read exactly if it is no number at a limit. -/
theorem signalExact_digit {byte : UInt8} {more : Name} (hbyte : isDigit byte = true)
    (hvalue : value = byte :: more) : SignalExact host value ↔ SignalPlain host value := by
  have hdenotes : ∀ n, Denotes host value n ↔ Numeral 10 value n ∧ 0 < n ∧ n < nsig := by
    refine fun n => ⟨fun h => ?_, fun h => .number h.1 h.2.1 h.2.2⟩
    cases h with
    | number numeral pos lt => exact ⟨numeral, pos, lt⟩
    | name sig denotes => exact absurd denotes (not_name_of_digit hbyte hvalue sig).1
  have hplain : SignalPlain host value ↔ ∀ n, Numeral 10 value n → n ≠ 0 ∧ n ≠ nsig := by
    refine ⟨fun h => h.number, fun h => ⟨h, fun _ body tail hsig hrt => ?_⟩⟩
    exact absurd hrt ((@not_name_of_digit host _ _ 0 _ _ hbyte hvalue hsig).2 tail)
  have hdigit : (digitOf 10 byte).isSome = true := hbyte
  have hdrop : value.dropWhile isSpace = value := by
    rw [hvalue]
    exact List.dropWhile_cons_of_neg (by simp [(digitOf_some hdigit).2.2.2])
  have hread : daemonConfSignal host (some value) =
      if (strtoul 10 value).2 ≠ [] ∨ nsig < (strtoul 10 value).1 then none
      else some (strtoul 10 value).1 := by
    rw [daemonConfSignal, hvalue]
    simp only [List.head?_cons, Option.map_some, Option.getD_some, hbyte, if_true]
  rw [hplain]
  unfold SignalExact
  rcases strtoul_cases 10 value with ⟨hnil, -⟩ | ⟨z, hz, hscan⟩ | ⟨hnone, hrest⟩
  · rw [hnil] at hvalue
    cases hvalue
  · rw [hdrop] at hz
    obtain ⟨k, hk, rfl⟩ : ∃ k : Nat, Numeral 10 value k ∧ z = k := by
      cases hz with
      | plain h => exact ⟨_, h, rfl⟩
      | plus h =>
        obtain ⟨rfl, -⟩ := List.cons.inj hvalue
        exact absurd hbyte (by decide)
      | minus h =>
        obtain ⟨rfl, -⟩ := List.cons.inj hvalue
        exact absurd hbyte (by decide)
    have hunique : ∀ n, Numeral 10 value n ↔ n = k :=
      fun n => ⟨fun h => h.unique hk, fun h => h ▸ hk⟩
    rw [hread, hscan, strtoulValue_natCast]
    simp only [ne_eq, not_true_eq_false, false_or, hdenotes, hunique, nsig, forall_eq]
    constructor
    · intro h
      constructor
      · rintro rfl
        exact absurd ((h 0).mp (by simp)).2.1 (Nat.lt_irrefl 0)
      · rintro rfl
        exact absurd ((h 65).mp (by simp)).2.2 (Nat.lt_irrefl 65)
    · rintro ⟨hzero, hlimit⟩ n
      split
      · refine iff_of_false (by simp) fun h => ?_
        omega
      · rw [Option.some.injEq]
        omega
  · have hno : ∀ n, ¬ Numeral 10 value n := fun n hn => hnone n (by rw [hdrop]; exact .plain hn)
    rw [hread, if_pos (Or.inl hrest)]
    exact iff_of_true (fun n => iff_of_false (by simp) fun h => hno n ((hdenotes n).mp h).1)
      fun n hn => absurd hn (hno n)

/-- The names of the table are read as they denote. -/
theorem signalName_table (h : ¬ (host.hasRtsig = true ∧ strnCaseEq (ascii "RT") body 2 = true)) :
    daemonConfSignalName host body = some n ↔ NameDenotes host body n := by
  have hsigno : ∀ entry ∈ signals, ∀ entry' ∈ signals,
      strCaseEq entry.2 entry'.2 = true → entry.1 = entry'.1 := by decide +kernel
  rw [daemonConfSignalName, if_neg h, Option.map_eq_some_iff]
  constructor
  · rintro ⟨entry, hfind, rfl⟩
    have hsame : strCaseEq entry.2 body = true := by simpa using List.find?_some hfind
    exact .named (List.mem_of_find?_eq_some hfind) hsame
  · intro hname
    cases hname with
    | realtime rtsig rt => exact absurd ⟨rtsig, (prefixed_iff.mp rt).1⟩ h
    | named hentry hsame =>
      cases hfind : signals.find? fun signal => strCaseEq signal.2 body with
      | none => exact absurd hsame (List.find?_eq_none.mp hfind _ hentry)
      | some entry =>
        have hfound : strCaseEq entry.2 body = true := by simpa using List.find?_some hfind
        refine ⟨entry, rfl, hsigno _ (List.mem_of_find?_eq_some hfind) _ hentry ?_⟩
        rw [strCaseEq, beq_iff_eq] at hfound hsame ⊢
        exact hfound.trans hsame.symm

/-- A name that begins with `RT` denotes the realtime signal of its number. -/
theorem nameDenotes_realtime (hrtsig : host.hasRtsig = true)
    (hrt : Prefixed (ascii "RT") body tail) :
    NameDenotes host body n ↔
      ∃ k, Numeral 10 tail k ∧ sigrtmin + k ≤ sigrtmax ∧ n = sigrtmin + k := by
  refine ⟨fun h => ?_, fun ⟨k, hk, hle, hn⟩ => hn ▸ .realtime hrtsig hrt hk hle⟩
  cases h with
  | realtime _ rt numeral le =>
    obtain ⟨-, rfl⟩ := prefixed_iff.mp rt
    obtain ⟨-, rfl⟩ := prefixed_iff.mp hrt
    exact ⟨_, numeral, le, rfl⟩
  | named hentry hsame =>
    have htable : ∀ entry ∈ signals, entry.2.head?.map toLower ≠ some 114 := by decide
    exact absurd ((strCaseEq_head hsame).trans (hrt.head (by decide)).symm) (htable _ hentry)

/-- A plain number is added to `SIGRTMIN` when it is in the range, and refused otherwise. -/
theorem realtime_plain {k : Nat} (hk : Numeral 10 tail k) (n : Nat) :
    (if sigrtmax - sigrtmin < strtoulValue (k : Int) then none
      else some (strtoulValue (k : Int) + sigrtmin)) = some n ↔
      ∃ k, Numeral 10 tail k ∧ sigrtmin + k ≤ sigrtmax ∧ n = sigrtmin + k := by
  have hunique : (∃ k, Numeral 10 tail k ∧ sigrtmin + k ≤ sigrtmax ∧ n = sigrtmin + k) ↔
      sigrtmin + k ≤ sigrtmax ∧ n = sigrtmin + k := by
    constructor
    · rintro ⟨k', hk', hle⟩
      rw [hk'.unique hk] at hle
      exact hle
    · exact fun h => ⟨k, hk, h⟩
  rw [hunique, strtoulValue_natCast]
  by_cases hlimit : sigrtmax - sigrtmin < min k (2 ^ 64 - 1)
  · rw [if_pos hlimit]
    refine iff_of_false (by simp) ?_
    simp only [sigrtmax, sigrtmin] at hlimit ⊢
    omega
  · rw [if_neg hlimit, Option.some.injEq]
    simp only [sigrtmax, sigrtmin] at hlimit ⊢
    omega

/-- A realtime signal is read exactly if its number is plain. -/
theorem signalName_realtime (hrtsig : host.hasRtsig = true)
    (hrt : Prefixed (ascii "RT") body tail) :
    (∀ n, daemonConfSignalName host body = some n ↔ NameDenotes host body n) ↔
      tail ≠ [] ∧ ∀ z, SignedNumeral 10 (tail.dropWhile isSpace) z →
        strtoulValue z ≤ sigrtmax - sigrtmin → ∃ n, Numeral 10 tail n := by
  have hread : daemonConfSignalName host body =
      if (strtoul 10 tail).2 ≠ [] ∨ sigrtmax - sigrtmin < (strtoul 10 tail).1
      then none else some ((strtoul 10 tail).1 + sigrtmin) := by
    obtain ⟨hfront, rfl⟩ := prefixed_iff.mp hrt
    rw [daemonConfSignalName, if_pos ⟨hrtsig, hfront⟩]
    rfl
  simp only [nameDenotes_realtime hrtsig hrt, hread]
  rcases strtoul_cases 10 tail with ⟨rfl, hscan⟩ | ⟨z, hz, hscan⟩ | ⟨hnone, hrest⟩
  · refine iff_of_false (fun h => ?_) fun h => h.1 rfl
    obtain ⟨k, hk, -⟩ := (h sigrtmin).mp (by rw [hscan]; rfl)
    exact hk.nonempty rfl
  · have hne : tail ≠ [] := by
      rintro rfl
      exact not_signedNumeral_nil hz
    rw [hscan]
    simp only [ne_eq, not_true_eq_false, false_or]
    constructor
    · intro h
      refine ⟨hne, fun z' hz' hle => ?_⟩
      rw [hz'.unique hz] at hle
      obtain ⟨k, hk, -⟩ := (h (strtoulValue z + sigrtmin)).mp (by rw [if_neg (by omega)])
      exact ⟨k, hk⟩
    · rintro ⟨-, hplain⟩ n
      by_cases hnumeral : ∃ k, Numeral 10 tail k
      · obtain ⟨k, hk⟩ := hnumeral
        rw [hz.unique hk.signed]
        exact realtime_plain hk n
      · -- what is no plain number is out of the range
        rw [if_pos (Nat.lt_of_not_le fun hle => hnumeral (hplain z hz hle))]
        exact iff_of_false (by simp) fun ⟨k, hk, _⟩ => hnumeral ⟨k, hk⟩
  · have hne : tail ≠ [] := by
      rintro rfl
      exact hrest rfl
    rw [if_pos (Or.inl hrest)]
    refine iff_of_true (fun n => iff_of_false (by simp) ?_)
      ⟨hne, fun z hz => absurd hz (hnone z)⟩
    rintro ⟨k, hk, -⟩
    exact hnone k hk.signed

/-- No name denotes a signal with `SIG` still in front of it. -/
theorem not_name_of_sig (h : strnCaseEq (ascii "SIG") value 3 = true) :
    ¬ NameDenotes host value n ∧ ∀ tail, ¬ Prefixed (ascii "RT") value tail := by
  have hsig : Prefixed (ascii "SIG") value (value.drop 3) := prefixed_iff.mpr ⟨h, rfl⟩
  have hrt : ∀ tail, ¬ Prefixed (ascii "RT") value tail := fun tail hrt =>
    absurd ((hrt.head (by decide)).trans (hsig.head (by decide)).symm) (by decide)
  refine ⟨fun hname => ?_, hrt⟩
  cases hname with
  | realtime _ rt => exact hrt _ rt
  | @named _ name hentry hsame =>
    have htable : ∀ entry ∈ signals, strnCaseEq (ascii "SIG") entry.2 3 = false := by decide
    rw [strCaseEq, beq_iff_eq] at hsame
    have htake : (value.take 3).map toLower = (name.take 3).map toLower := by
      rw [List.map_take, List.map_take, hsame]
    have hno : strnCaseEq (ascii "SIG") name 3 = false := htable _ hentry
    rw [strnCaseEq, strCaseEq] at h hno
    rw [htake, hno] at h
    cases h

/-- The name that a value stands for, behind `SIG` if the value begins with it. -/
theorem afterSig_iff (host : Host)
    (h : (∃ n, NameDenotes host body n) ∨ ∃ tail, Prefixed (ascii "RT") body tail) :
    AfterSig value body ↔
      body = if strnCaseEq (ascii "SIG") value 3 = true then value.drop 3 else value := by
  constructor
  · rintro (hsig | rfl)
    · obtain ⟨hfront, rfl⟩ := prefixed_iff.mp hsig
      exact (if_pos hfront).symm
    · rw [if_neg]
      intro hfront
      rcases h with ⟨n, hname⟩ | ⟨tail, hrt⟩
      · exact (not_name_of_sig hfront).1 hname
      · exact (@not_name_of_sig host _ 0 hfront).2 tail hrt
  · rintro rfl
    split
    · rename_i hfront
      exact Or.inl (prefixed_iff.mpr ⟨hfront, rfl⟩)
    · exact Or.inr rfl

/-- `daemon_conf_signal` is exact on the plain values, and on no other. -/
theorem signalExact_iff (host : Host) (value : Name) :
    SignalExact host value ↔ SignalPlain host value := by
  by_cases hdigit : (value.head?.map isDigit).getD false = true
  · cases hvalue : value with
    | nil => rw [hvalue] at hdigit; cases hdigit
    | cons byte more =>
      rw [hvalue] at hdigit
      exact signalExact_digit hdigit rfl
  · have hno : ∀ k, ¬ Numeral 10 value k := by
      intro k hk
      obtain ⟨byte, more, rfl, hbyte, -⟩ := hk.scan
      exact hdigit hbyte
    generalize hbody :
      (if strnCaseEq (ascii "SIG") value 3 = true then value.drop 3 else value) = body
    have hread : daemonConfSignal host (some value) = daemonConfSignalName host body := by
      rw [daemonConfSignal, ← hbody]
      simp only [hdigit]
      rfl
    have hdenotes : ∀ n, Denotes host value n ↔ NameDenotes host body n := by
      refine fun n => ⟨fun h => ?_,
        fun h => .name ((afterSig_iff host (.inl ⟨n, h⟩)).mpr hbody.symm) h⟩
      cases h with
      | number numeral => exact absurd numeral (hno _)
      | name sig denotes => rwa [← hbody, ← (afterSig_iff host (.inl ⟨_, denotes⟩)).mp sig]
    unfold SignalExact
    simp only [hread, hdenotes]
    by_cases hrt : host.hasRtsig = true ∧ strnCaseEq (ascii "RT") body 2 = true
    · have hfront : Prefixed (ascii "RT") body (body.drop 2) := prefixed_iff.mpr ⟨hrt.2, rfl⟩
      rw [signalName_realtime hrt.1 hfront]
      constructor
      · refine fun h => ⟨fun n hn => absurd hn (hno n), fun _ body' tail hsig hfront' => ?_⟩
        obtain rfl := ((afterSig_iff host (.inr ⟨_, hfront'⟩)).mp hsig).trans hbody
        obtain ⟨-, rfl⟩ := prefixed_iff.mp hfront'
        exact h
      · exact fun h => h.realtime hrt.1 body _
          ((afterSig_iff host (.inr ⟨_, hfront⟩)).mpr hbody.symm) hfront
    · refine iff_of_true (fun n => signalName_table hrt) ⟨fun n hn => absurd hn (hno n), ?_⟩
      intro hrtsig body' tail hsig hfront
      obtain rfl := ((afterSig_iff host (.inr ⟨_, hfront⟩)).mp hsig).trans hbody
      exact absurd ⟨hrtsig, (prefixed_iff.mp hfront).1⟩ hrt

/-- The table and the realtime signals are signals. -/
theorem signalName_deliverable (h : daemonConfSignalName host body = some n) :
    0 < n ∧ n < nsig := by
  rw [daemonConfSignalName] at h
  split at h
  · simp only [Option.ite_none_left_eq_some, Option.some.injEq, not_or, Nat.not_lt] at h
    obtain ⟨⟨-, hle⟩, rfl⟩ := h
    simp only [sigrtmax, sigrtmin, nsig] at hle ⊢
    omega
  · have htable : ∀ entry ∈ signals, 0 < entry.1 ∧ entry.1 < nsig := by decide
    obtain ⟨entry, hfind, rfl⟩ := Option.map_eq_some_iff.mp h
    exact htable entry (List.mem_of_find?_eq_some hfind)

/-- What is read from a value that is no number at a limit is a signal. -/
theorem signal_deliverable (hplain : ∀ n, Numeral 10 value n → n ≠ 0 ∧ n ≠ nsig)
    (h : daemonConfSignal host (some value) = some n) : 0 < n ∧ n < nsig := by
  by_cases hdigit : (value.head?.map isDigit).getD false = true
  · cases hvalue : value with
    | nil => rw [hvalue] at hdigit; cases hdigit
    | cons byte more =>
      have hbyte : isDigit byte = true := by simpa [hvalue] using hdigit
      have hexact : SignalExact host value := (signalExact_digit hbyte hvalue).mpr
        ⟨hplain, fun _ body tail hsig hrt =>
          absurd hrt ((@not_name_of_digit host _ _ 0 _ _ hbyte hvalue hsig).2 tail)⟩
      cases (hexact n).mp h with
      | number _ pos lt => exact ⟨pos, lt⟩
      | name sig denotes => exact absurd denotes (not_name_of_digit hbyte hvalue sig).1
  · rw [daemonConfSignal] at h
    simp only [hdigit] at h
    exact signalName_deliverable h

/-- A signal of a record stays one when a value is stored in it, and when it is not. -/
theorem HandedValue.WithinLimits.parse {handed : HandedValue} (h : handed.WithinLimits)
    {key : Name} {field : ConfField} {assign : DaemonConf → Nat → DaemonConf}
    {stored : DaemonConf → Nat} (hkey : key = ascii "sigfinish" ∨ key = ascii "sigreload")
    (hstored : ∀ conf signo, stored (assign conf signo) = signo)
    (hparser : findParser host .general key = some (parseSignal host assign))
    (hmem : field ∈ keyFields .general key)
    (hfield : ∀ c c', field.Agree c c' → stored c = stored c') {conf : DaemonConf}
    (hconf : 0 < stored conf ∧ stored conf < nsig) :
    0 < stored (handed.parse host conf) ∧ stored (handed.parse host conf) < nsig := by
  by_cases hmatch : handed.sec = .general ∧ handed.key = key
  · obtain ⟨sec, k, value⟩ := handed
    obtain ⟨rfl, rfl⟩ : sec = .general ∧ k = key := hmatch
    rw [HandedValue.parse_eq hparser, parseSignal]
    simp only
    cases hsignal : daemonConfSignal host value with
    | none => exact hconf
    | some signo =>
      cases value with
      | none => cases hsignal
      | some value =>
        simp only [hstored]
        exact signal_deliverable (fun n hn => h rfl hkey value n rfl hn) hsignal
  · have hother : field ∉ keyFields handed.sec handed.key := by
      intro hmem'
      obtain ⟨hsec, hsame | hstart⟩ := keyFields_inter hmem hmem' (by simp)
      · exact hmatch ⟨hsec.symm, hsame.symm⟩
      · cases hstart
    rw [hfield _ _ (HandedValue.parse_frame hother)]
    exact hconf

/-- Values that are no number at a limit keep the signals of a record. -/
theorem foldl_deliverable {values : List HandedValue} (h : ∀ handed ∈ values, handed.WithinLimits)
    {conf : DaemonConf} (hconf : conf.Deliverable) :
    (values.foldl (HandedValue.parse host) conf).Deliverable := by
  induction values generalizing conf with
  | nil => exact hconf
  | cons handed values ih =>
    rw [List.forall_mem_cons] at h
    refine ih h.2 ⟨?_, ?_⟩
    · exact h.1.parse (.inl rfl) (fun _ _ => rfl) rfl (by decide : ConfField.sigfinish ∈ _)
        (fun _ _ hagree => hagree) hconf.sigfinish
    · exact h.1.parse (.inr rfl) (fun _ _ => rfl) rfl (by decide : ConfField.sigreload ∈ _)
        (fun _ _ hagree => hagree) hconf.sigreload

end Cyberd
