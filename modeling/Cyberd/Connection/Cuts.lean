import Cyberd.Connection.Stream

/-!
# Harmless cuts

The cuts before the first byte of a name do not matter. The call that reads this byte goes
on until the parser gives up, so that the cuts behind it are harmless when that happens in
the same chunk, or when the chunks after it neither complete a request nor have the parser
give up.
-/

namespace Cyberd

open Library

section

variable (platform : Platform) (capabilities : Capset)

/-- The first name of a stream begins in this chunk. -/
structure FirstName (before chunk system header name : List UInt8) : Prop where
  /-- System commands come first. -/
  commands : ∀ byte ∈ system, isSystemByte platform capabilities byte = true
  /-- The bytes before the name come next. -/
  named : NameHeader platform capabilities header
  /-- Some bytes of the name are among what is read up to the end of the chunk. -/
  begun : name ≠ []
  bytes : before ++ chunk = system ++ (header ++ name)
  /-- None of them was read before the chunk. -/
  here : before.length ≤ (system ++ header).length

/-- The cuts are harmless behind a chunk that ends with these bytes, which begin with the
first name. -/
inductive HarmlessBehind (header name after : List UInt8) : Prop
  /-- The parser gives up for what the chunk has of the name. -/
  | rejected (rejected : NameRejected [] name)
  /-- The name ends in the chunk. After complete requests the parser gives up in the chunk, or
  the rest of the stream asks for nothing. -/
  | ended {first next : List UInt8} {requests : List (List UInt8)} (nul : (0 : UInt8) ∉ first)
      (bytes : name = first ++ 0 :: (requests.flatten ++ next))
      (complete : ∀ request ∈ requests, CompleteRequest platform capabilities request)
      (harmless : GivesUp platform capabilities next ∨
        AsksNothing platform capabilities (next ++ after))
  /-- The name goes on behind the chunk. It is not rejected there, and if it ends there then it
  is the one of an endpoint that is not created, and the rest of the stream asks for nothing. -/
  | pending (missing : (0 : UInt8) ∉ name) (taken : ¬ NameRejected [] (name ++ after))
      (harmless : ∀ first rest, (0 : UInt8) ∉ first → name ++ after = first ++ 0 :: rest →
        CreatesNothing platform capabilities header first ∧
          AsksNothing platform capabilities rest)

/-- The cuts of a stream into these chunks, which follow what was read before, are harmless:
if the first name begins in one of them, then they are so behind this chunk. -/
def CutsHarmless (read : List UInt8) (chunks : List (List UInt8)) : Prop :=
  ∀ before chunk after, chunks = before ++ chunk :: after →
    ∀ system header name,
      FirstName platform capabilities (read ++ before.flatten) chunk system header name →
      HarmlessBehind platform capabilities header name after.flatten

end

variable {platform : Platform} {capabilities : Capset} {parser : Parser}

/-- What a run whose end is not the one of its bytes lets be seen of a cut behind them. -/
theorem loose_unseen_iff (hp : parser.Expects capabilities) (front back : List UInt8) :
    (staysInside platform 0 true parser front = true ∨
      staysInside platform 0 true parser (front ++ back) = false ∧
        ((⟨parser, [], none⟩ : Reading).bytes platform (front ++ back)).actions =
          ((⟨parser, [], none⟩ : Reading).bytes platform front).actions) ↔
    ∃ (requests : List (List UInt8)) (next : List UInt8), front = requests.flatten ++ next ∧
      (∀ request ∈ requests, CompleteRequest platform capabilities request) ∧
      (GivesUp platform capabilities next ∨ AsksNothing platform capabilities (next ++ back)) := by
  constructor
  · intro h
    obtain ⟨requests, next, rfl, hall, hnext⟩ := @requests_cases platform capabilities front
    refine ⟨requests, next, rfl, hall, ?_⟩
    rcases hnext with hgives | hasks
    · exact Or.inl hgives
    · obtain ⟨parser', asked, hp', hpasses⟩ := passes_requests hall hp
      obtain ⟨hout, hnone⟩ := hasks.outside hp'
      rw [List.append_assoc, hpasses.inside, hpasses.inside, hpasses.actions, hpasses.actions,
        hnone, hout] at h
      obtain ⟨hinside, hactions⟩ := h.resolve_left (by decide)
      exact Or.inr (asksNothing_of_outside _ hp' hinside (List.append_cancel_left hactions))
  · rintro ⟨requests, next, rfl, hall, hnext⟩
    obtain ⟨parser', asked, hp', hpasses⟩ := passes_requests hall hp
    rw [List.append_assoc, hpasses.inside, hpasses.inside, hpasses.actions, hpasses.actions]
    rcases hnext with hgives | hasks
    · exact Or.inl (hgives.inside hp' true)
    · obtain ⟨hout, hnone⟩ := hasks.outside hp'
      obtain ⟨later, hlater⟩ := @Reading.bytes_actions platform
        ((⟨parser', [], none⟩ : Reading).bytes platform next) back
      rw [← Reading.bytes_append, hnone] at hlater
      rw [hnone, (List.append_eq_nil_iff.mp hlater.symm).1]
      exact Or.inr ⟨hout, rfl⟩

/-- What the run lets be seen of a cut inside of the first name. -/
theorem pending_unseen_iff {header name : List UInt8}
    (hp : parser.ExpectsName platform capabilities header) (hne : name ≠ [])
    (hnul : (0 : UInt8) ∉ name) (hrej : ¬ NameRejected [] name) (after : List UInt8) :
    (staysInside platform 0 false parser (name ++ after) = false ∧
        ((⟨parser, [], none⟩ : Reading).bytes platform (name ++ after)).actions = []) ↔
    HarmlessBehind platform capabilities header name after := by
  have hharmless : HarmlessBehind platform capabilities header name after ↔
      ¬ NameRejected [] (name ++ after) ∧ ∀ first rest, (0 : UInt8) ∉ first →
        name ++ after = first ++ 0 :: rest → CreatesNothing platform capabilities header first ∧
          AsksNothing platform capabilities rest := by
    constructor
    · intro h
      cases h with
      | rejected h => exact absurd h hrej
      | ended nul bytes => exact absurd (by rw [bytes]; simp) hnul
      | pending missing taken harmless => exact ⟨taken, harmless⟩
    · exact fun h => .pending hnul h.1 h.2
  rw [hharmless]
  have hne' : name ++ after ≠ [] := List.append_ne_nil_of_left_ne_nil hne after
  by_cases hmem : (0 : UInt8) ∈ name ++ after
  · obtain ⟨first, rest, heq, hfirst⟩ := List.eq_append_cons_of_mem hmem
    by_cases hrej' : NameRejected [] (name ++ after)
    · rw [staysInside_name hp.state hne', if_pos hmem, hp.name, decide_eq_true hrej',
        Bool.true_or]
      exact iff_of_false (fun h => by cases h.1) (fun h => h.1 hrej')
    · rw [heq] at hrej' ⊢
      have taken := (nameRejected_first hfirst rest).not.mp hrej'
      obtain ⟨parser', hp', hpasses⟩ := hp.passes hfirst taken false
      have hsplit : first ++ 0 :: rest = (first ++ [0]) ++ rest := by simp
      rw [hsplit, hpasses.inside, hpasses.actions, List.append_eq_nil_iff,
        hp.completed first hfirst, ← hsplit]
      constructor
      · rintro ⟨hinside, hnothing, hactions⟩
        refine ⟨hrej', fun first' rest' hfirst' heq' => ?_⟩
        obtain ⟨rfl, rfl⟩ := first_unique hfirst hfirst' heq'
        exact ⟨hnothing, asksNothing_of_outside rest hp' hinside hactions⟩
      · rintro ⟨-, h⟩
        obtain ⟨hnothing, hasks⟩ := h first rest hfirst rfl
        obtain ⟨hout, hnone⟩ := hasks.outside hp'
        exact ⟨hout, hnothing, hnone⟩
  · have hnone := @Reading.bytes_notMem platform ⟨parser, [], none⟩ (name ++ after) hp.state rfl
      (by rw [hp.name]; exact Nat.zero_le _) hmem
    rw [staysInside_name hp.state hne', if_neg hmem, hp.name, hnone]
    constructor
    · rintro ⟨hinside, -⟩
      refine ⟨by simpa using hinside, fun first rest _ heq => ?_⟩
      exact absurd (by rw [heq]; simp) hmem
    · rintro ⟨htaken, -⟩
      exact ⟨by simpa using htaken, rfl⟩

/-- What the run that takes the first name lets be seen of a cut behind its bytes. -/
theorem name_unseen_iff {header name : List UInt8}
    (hp : parser.ExpectsName platform capabilities header) (hne : name ≠ []) (after : List UInt8) :
    (staysInside platform 0 false parser name = true ∨
      staysInside platform 0 false parser (name ++ after) = false ∧
        ((⟨parser, [], none⟩ : Reading).bytes platform (name ++ after)).actions =
          ((⟨parser, [], none⟩ : Reading).bytes platform name).actions) ↔
    HarmlessBehind platform capabilities header name after := by
  by_cases hrej : NameRejected [] name
  · refine iff_of_true (Or.inl ?_) (.rejected hrej)
    rw [staysInside_name hp.state hne, hp.name, decide_eq_true hrej]
    split <;> rfl
  · by_cases hnul : (0 : UInt8) ∈ name
    · obtain ⟨first, front, rfl, hfirst⟩ := List.eq_append_cons_of_mem hnul
      have taken := (nameRejected_first hfirst front).not.mp hrej
      obtain ⟨parser', hp', hpasses⟩ := hp.passes hfirst taken false
      have hsplit : ∀ rest, first ++ 0 :: rest = (first ++ [0]) ++ rest := by simp
      rw [List.append_assoc, List.cons_append, hsplit front, hsplit (front ++ after),
        hpasses.inside, hpasses.inside, hpasses.actions, hpasses.actions,
        List.append_cancel_left_eq, loose_unseen_iff hp' front after, ← hsplit front]
      constructor
      · rintro ⟨requests, next, rfl, hall, hnext⟩
        exact .ended hfirst rfl hall hnext
      · intro h
        cases h with
        | rejected h => exact absurd h hrej
        | @ended first' next requests nul bytes complete harmless =>
          obtain ⟨rfl, rfl⟩ := first_unique hfirst nul bytes
          exact ⟨requests, next, rfl, complete, harmless⟩
        | pending missing => exact absurd hnul missing
    · have hnone := @Reading.bytes_notMem platform ⟨parser, [], none⟩ name hp.state rfl
        (by rw [hp.name]; exact Nat.zero_le _) hnul
      rw [hnone, ← pending_unseen_iff hp hne hnul hrej after, staysInside_name hp.state hne,
        if_neg hnul, hp.name, decide_eq_false hrej, Bool.and_false]
      simp only [Bool.false_eq_true, false_or]

/-- The bytes up to the first one of a name, or fewer. -/
inductive BeforeName (platform : Platform) (capabilities : Capset) : List UInt8 → Prop
  | commands {system : List UInt8}
      (commands : ∀ byte ∈ system, isSystemByte platform capabilities byte = true) :
      BeforeName platform capabilities system
  | begun {system word : List UInt8} {byte : UInt8}
      (commands : ∀ byte ∈ system, isSystemByte platform capabilities byte = true)
      (has : capsetHas capabilities (platform.byteCapability byte) = true)
      (command : platform.byteCapability byte = capabilityEndpointCreate)
      (short : word.length < 4) : BeforeName platform capabilities (system ++ byte :: word)
  | named {system header : List UInt8}
      (commands : ∀ byte ∈ system, isSystemByte platform capabilities byte = true)
      (before : NameHeader platform capabilities header) :
      BeforeName platform capabilities (system ++ header)

/-- Nothing of a name is in the bytes before it. -/
theorem BeforeName.name_eq_nil {bytes system header name : List UInt8}
    (h : BeforeName platform capabilities bytes)
    (commands : ∀ byte ∈ system, isSystemByte platform capabilities byte = true)
    (hh : NameHeader platform capabilities header) (heq : bytes = system ++ (header ++ name)) :
    name = [] := by
  obtain ⟨byte, word, hcons, -, hbyte⟩ := hh.head
  cases h with
  | commands commands' =>
    have hsystem := commands' byte (by rw [heq, hcons]; simp)
    rw [hbyte] at hsystem
    cases hsystem
  | @begun system' word' byte' commands' has command short =>
    have hbyte' : isSystemByte platform capabilities byte' = false := by
      rw [isSystemByte, command]
      exact Bool.and_false _
    rw [hcons, List.cons_append] at heq
    obtain ⟨-, rfl, hword⟩ := system_unique commands' commands hbyte' hbyte heq
    cases hh with
    | daemon has' command' =>
      cases hcons
      exact absurd command (daemonCommands_ne command').1
    | endpoint has' command' size =>
      cases hcons
      rw [hword, List.length_append] at short
      omega
  | named commands' before =>
    rw [← List.append_nil (_ ++ _), List.append_assoc] at heq
    exact (firstName_unique commands' commands before hh heq).2.2.symm

/-- The three kinds of a stream: it has no byte of a name, or one that the parser does not take
before it, or one. -/
inductive StreamKind (platform : Platform) (capabilities : Capset) (bytes : List UInt8) : Prop
  | beforeName (h : BeforeName platform capabilities bytes)
  | givesUp {system rest : List UInt8} {byte : UInt8}
      (commands : ∀ byte ∈ system, isSystemByte platform capabilities byte = true)
      (denied : ¬ TakesCommand platform capabilities byte) (heq : bytes = system ++ byte :: rest)
  | named {system header name : List UInt8}
      (commands : ∀ byte ∈ system, isSystemByte platform capabilities byte = true)
      (before : NameHeader platform capabilities header) (begun : name ≠ [])
      (heq : bytes = system ++ (header ++ name))

/-- One system command more in front of a stream. -/
theorem StreamKind.cons {byte : UInt8} {bytes : List UInt8}
    (h : StreamKind platform capabilities bytes)
    (hbyte : isSystemByte platform capabilities byte = true) :
    StreamKind platform capabilities (byte :: bytes) := by
  have hall : ∀ system : List UInt8,
      (∀ byte ∈ system, isSystemByte platform capabilities byte = true) →
      ∀ byte' ∈ byte :: system, isSystemByte platform capabilities byte' = true :=
    fun system hs => List.forall_mem_cons.mpr ⟨hbyte, hs⟩
  cases h with
  | beforeName h =>
    cases h with
    | commands commands => exact .beforeName (.commands (hall _ commands))
    | begun commands has command short =>
      exact .beforeName (.begun (hall _ commands) has command short)
    | named commands before => exact .beforeName (.named (hall _ commands) before)
  | givesUp commands denied heq =>
    exact .givesUp (hall _ commands) denied (congrArg (byte :: ·) heq)
  | named commands before begun heq =>
    exact .named (hall _ commands) before begun (congrArg (byte :: ·) heq)

/-- Behind a header there is nothing, or a name has begun. -/
theorem StreamKind.header {header name : List UInt8} (h : NameHeader platform capabilities header) :
    StreamKind platform capabilities (header ++ name) := by
  by_cases hname : name = []
  · rw [hname, List.append_nil]
    exact .beforeName (@BeforeName.named platform capabilities [] header (by simp) h)
  · exact @StreamKind.named platform capabilities _ [] header name (by simp) h hname rfl

/-- Every stream is of one of these kinds. -/
theorem streamKind (bytes : List UInt8) : StreamKind platform capabilities bytes := by
  induction bytes with
  | nil => exact .beforeName (.commands (by simp))
  | cons byte rest ih =>
    by_cases htakes : TakesCommand platform capabilities byte
    · rcases htakes.cases rest with hsystem | ⟨header, name, heq, hh⟩ | ⟨has, command, short⟩
      · exact ih.cons hsystem
      · exact heq ▸ StreamKind.header hh
      · exact .beforeName (@BeforeName.begun platform capabilities [] rest byte (by simp) has
          command short)
    · exact @StreamKind.givesUp platform capabilities _ [] rest byte (by simp) htakes rfl

/-- The bytes before a name are passed. -/
theorem BeforeName.passes {bytes : List UInt8} (h : BeforeName platform capabilities bytes)
    (hp : parser.Expects capabilities) :
    ∃ parser' asked, parser'.state ≠ .invalid ∧
      Passes platform false parser bytes false parser' asked := by
  cases h with
  | commands commands =>
    obtain ⟨asked, hsystem⟩ := passes_systems hp commands false
    exact ⟨parser, asked, by rw [hp.state]; decide, hsystem⟩
  | begun commands has command short =>
    obtain ⟨asked, hsystem⟩ := passes_systems hp commands false
    obtain ⟨parser', hs, hbegun⟩ := passes_begun hp has command short false
    exact ⟨parser', _, by rw [hs]; decide, hsystem.append hbegun⟩
  | named commands before =>
    obtain ⟨asked, hsystem⟩ := passes_systems hp commands false
    obtain ⟨parser', hp', hheader⟩ := before.passes hp false
    exact ⟨parser', _, hp'.ne_invalid, hsystem.append hheader⟩

/-- No cut is seen behind a run that stays inside of its chunk and gives up. -/
theorem cutsUnseen_gaveUp {chunk : List UInt8} (chunks : List (List UInt8))
    (hinside : staysInside platform 0 false parser chunk = true)
    (h : ((⟨parser, [], none⟩ : Reading).bytes platform chunk).GaveUp) :
    CutsUnseen platform parser (chunk :: chunks) := by
  simp only [CutsUnseen]
  rw [if_pos hinside]
  rcases h with hstop | hstate
  · exact Or.inl hstop
  · exact Or.inr (cutsUnseen_invalid hstate chunks)

/-- A run that takes a byte of a name and stays inside of its chunk gives up. -/
theorem gaveUp_name {header name : List UInt8}
    (hp : parser.ExpectsName platform capabilities header) (hne : name ≠ [])
    (hinside : staysInside platform 0 false parser name = true) (actions : List Action) :
    ((⟨parser, actions, none⟩ : Reading).bytes platform name).GaveUp := by
  by_cases hrej : NameRejected [] name
  · exact Or.inr (Reading.bytes_nameRejected hp.state rfl
      (by rw [hp.name]; exact Nat.zero_le _) (by rw [hp.name]; exact hrej)).state
  · by_cases hnul : (0 : UInt8) ∈ name
    · obtain ⟨first, rest, rfl, hfirst⟩ := List.eq_append_cons_of_mem hnul
      obtain ⟨parser', hp', hname⟩ := hp.passes hfirst
        ((nameRejected_first hfirst rest).not.mp hrej) false
      obtain ⟨requests, next, rfl, hall, hnext⟩ := @requests_cases platform capabilities rest
      obtain ⟨parser'', asked, hp'', hrequests⟩ := passes_requests hall hp'
      have hpasses := hname.append hrequests
      have hsplit : first ++ 0 :: (requests.flatten ++ next) =
          (first ++ [0] ++ requests.flatten) ++ next := by simp
      rw [hsplit, hpasses.inside] at hinside
      rw [hsplit, Reading.bytes_append, hpasses.reading]
      rcases hnext with hgives | hasks
      · exact hgives.gaveUp hp'' _
      · rw [(hasks.outside hp'').1] at hinside
        cases hinside
    · rw [staysInside_name hp.state hne, if_neg hnul, hp.name, decide_eq_false hrej,
        Bool.and_false] at hinside
      cases hinside

variable {read chunk : List UInt8} {asked : List Action}

/-- What the reader makes of a chunk, by what it makes of everything up to its end. -/
theorem Passes.behind (h : Passes platform false (connectionParser capabilities) read false parser
    asked) :
    staysInside platform 0 false parser chunk =
        staysInside platform 0 false (connectionParser capabilities) (read ++ chunk) ∧
      ((⟨connectionParser capabilities, [], none⟩ : Reading).bytes platform (read ++ chunk)) =
        ((⟨parser, [], none⟩ : Reading).bytes platform chunk).after asked := by
  refine ⟨(h.inside chunk).symm, ?_⟩
  have hafter := @Reading.bytes_after platform ⟨parser, [], none⟩ asked chunk
  rw [Reading.after, List.append_nil] at hafter
  rw [Reading.bytes_append, h.reading, List.nil_append, hafter]

/-- A chunk that ends before the first name. -/
theorem cutsUnseen_beforeName (chunks : List (List UInt8))
    (h : Passes platform false (connectionParser capabilities) read false parser asked)
    (hb : BeforeName platform capabilities (read ++ chunk)) :
    ∃ parser' asked', Passes platform false (connectionParser capabilities) (read ++ chunk) false
        parser' asked' ∧
      (CutsUnseen platform parser (chunk :: chunks) ↔ CutsUnseen platform parser' chunks) := by
  obtain ⟨parser', asked', hs, hpasses⟩ := hb.passes (connectionParser_expects capabilities)
  refine ⟨parser', asked', hpasses, ?_⟩
  obtain ⟨hinside, hreading⟩ := @Passes.behind platform capabilities parser read chunk asked h
  have hin : staysInside platform 0 false parser chunk = true := by
    have hnil := hpasses.inside []
    rw [List.append_nil] at hnil
    rw [hinside, hnil]
    rfl
  rw [hpasses.reading] at hreading
  have hparser : ((⟨parser, [], none⟩ : Reading).bytes platform chunk).parser = parser' :=
    (congrArg Reading.parser hreading).symm
  have hstop : ((⟨parser, [], none⟩ : Reading).bytes platform chunk).stop = none :=
    (congrArg Reading.stop hreading).symm
  simp only [CutsUnseen]
  rw [if_pos hin, hstop, hparser]
  simp

/-- A chunk in which the parser gives up before the first name. -/
theorem cutsUnseen_denied {system rest : List UInt8} {byte : UInt8} (chunks : List (List UInt8))
    (h : Passes platform false (connectionParser capabilities) read false parser asked)
    (commands : ∀ byte ∈ system, isSystemByte platform capabilities byte = true)
    (denied : ¬ TakesCommand platform capabilities byte)
    (heq : read ++ chunk = system ++ byte :: rest) :
    CutsUnseen platform parser (chunk :: chunks) := by
  have hgives : GivesUp platform capabilities (byte :: rest) := .command denied
  have hp := connectionParser_expects capabilities
  obtain ⟨asked', hsystem⟩ := passes_systems hp commands false
  obtain ⟨hinside, hreading⟩ := @Passes.behind platform capabilities parser read chunk asked h
  rw [heq, hsystem.inside] at hinside
  rw [heq, Reading.bytes_append, hsystem.reading] at hreading
  have hgave := hgives.gaveUp hp ([] ++ asked')
  rw [hreading] at hgave
  exact cutsUnseen_gaveUp chunks (hinside.trans (hgives.inside hp false)) hgave

/-- The chunk in which the first name begins. -/
theorem cutsUnseen_firstName {system header name : List UInt8} (chunks : List (List UInt8))
    (h : Passes platform false (connectionParser capabilities) read false parser asked)
    (commands : ∀ byte ∈ system, isSystemByte platform capabilities byte = true)
    (before : NameHeader platform capabilities header) (begun : name ≠ [])
    (heq : read ++ chunk = system ++ (header ++ name)) :
    CutsUnseen platform parser (chunk :: chunks) ↔
      HarmlessBehind platform capabilities header name chunks.flatten := by
  obtain ⟨asked', hsystem⟩ := passes_systems (connectionParser_expects capabilities) commands false
  obtain ⟨parser', hp', hheader⟩ := before.passes (connectionParser_expects capabilities) false
  have hpasses := hsystem.append hheader
  rw [List.append_nil] at hpasses
  have hchunk : ∀ back, staysInside platform 0 false parser (chunk ++ back) =
        staysInside platform 0 false parser' (name ++ back) ∧
      asked ++ ((⟨parser, [], none⟩ : Reading).bytes platform (chunk ++ back)).actions =
        asked' ++ ((⟨parser', [], none⟩ : Reading).bytes platform (name ++ back)).actions := by
    intro back
    rw [← h.inside, ← hpasses.inside, ← h.actions, ← hpasses.actions, ← List.append_assoc, heq]
    simp
  obtain ⟨hinside, hactions⟩ := hchunk []
  obtain ⟨hinside', hactions'⟩ := hchunk chunks.flatten
  simp only [List.append_nil] at hinside hactions
  rw [← name_unseen_iff hp' begun]
  by_cases hstays : staysInside platform 0 false parser' name = true
  · have hgave := gaveUp_name hp' begun hstays ([] ++ asked')
    have hreading := (@Passes.behind platform capabilities parser read chunk asked h).2
    rw [heq, ← List.append_assoc, Reading.bytes_append, hpasses.reading] at hreading
    rw [hreading] at hgave
    exact iff_of_true (cutsUnseen_gaveUp chunks (hinside.trans hstays) hgave) (Or.inl hstays)
  · have hcancel :
        ((⟨parser, [], none⟩ : Reading).bytes platform (chunk ++ chunks.flatten)).actions =
          ((⟨parser, [], none⟩ : Reading).bytes platform chunk).actions ↔
        ((⟨parser', [], none⟩ : Reading).bytes platform (name ++ chunks.flatten)).actions =
          ((⟨parser', [], none⟩ : Reading).bytes platform name).actions := by
      constructor
      · intro hsame
        rw [hsame, hactions] at hactions'
        exact (List.append_cancel_left hactions').symm
      · intro hsame
        rw [hsame, ← hactions] at hactions'
        exact List.append_cancel_left hactions'
    simp only [CutsUnseen]
    rw [if_neg (by rw [hinside]; exact hstays), hinside', ← Reading.bytes_append, hcancel]
    simp [hstays]

/-- A chunk that holds the first name follows bytes before a name. -/
theorem BeforeName.length_le {system header name : List UInt8}
    (h : BeforeName platform capabilities read)
    (commands : ∀ byte ∈ system, isSystemByte platform capabilities byte = true)
    (before : NameHeader platform capabilities header)
    (heq : read ++ chunk = system ++ (header ++ name)) :
    read.length ≤ (system ++ header).length := by
  by_contra hlt
  rw [← List.append_assoc] at heq
  obtain ⟨more, hread, -⟩ := (List.append_eq_append_iff.mp heq).resolve_left (by
    rintro ⟨more, hmore, -⟩
    rw [hmore, List.length_append] at hlt
    omega)
  rw [List.append_assoc] at hread
  have hnil := h.name_eq_nil commands before hread
  rw [hread, hnil, List.append_nil] at hlt
  exact hlt le_rfl

/-- The first chunk of some, or a later one. -/
theorem cutsHarmless_cons (chunks : List (List UInt8)) :
    CutsHarmless platform capabilities read (chunk :: chunks) ↔
      (∀ system header name, FirstName platform capabilities read chunk system header name →
        HarmlessBehind platform capabilities header name chunks.flatten) ∧
      CutsHarmless platform capabilities (read ++ chunk) chunks := by
  constructor
  · intro h
    constructor
    · intro system header name hfirst
      apply h [] chunk chunks rfl system header name
      rwa [List.flatten_nil, List.append_nil]
    · intro before later after heq system header name hfirst
      apply h (chunk :: before) later after (by rw [heq]; rfl) system header name
      rwa [List.flatten_cons, ← List.append_assoc]
  · rintro ⟨hhere, hlater⟩ before later after heq system header name hfirst
    cases before with
    | nil =>
      cases heq
      rw [List.flatten_nil, List.append_nil] at hfirst
      exact hhere system header name hfirst
    | cons first before =>
      cases heq
      rw [List.flatten_cons, ← List.append_assoc] at hfirst
      exact hlater before later after rfl system header name hfirst

/-- The first name begins in one chunk only. -/
theorem cutsHarmless_of_firstName {system header name : List UInt8} (chunks : List (List UInt8))
    (commands : ∀ byte ∈ system, isSystemByte platform capabilities byte = true)
    (before : NameHeader platform capabilities header) (begun : name ≠ [])
    (heq : read = system ++ (header ++ name)) :
    CutsHarmless platform capabilities read chunks := by
  intro earlier chunk after _ system' header' name' hfirst
  have hbytes := hfirst.bytes
  have hhere := hfirst.here
  rw [heq, List.append_assoc, List.append_assoc, List.append_assoc] at hbytes
  obtain ⟨rfl, rfl, rfl⟩ :=
    firstName_unique commands hfirst.commands before hfirst.named hbytes
  have hpos := List.length_pos_iff.mpr begun
  rw [heq] at hhere
  simp only [List.length_append] at hhere
  omega

/-- Nothing of a name is read when the parser gives up before. -/
theorem cutsHarmless_of_denied {system rest : List UInt8} {byte : UInt8}
    (chunks : List (List UInt8))
    (commands : ∀ byte ∈ system, isSystemByte platform capabilities byte = true)
    (denied : ¬ TakesCommand platform capabilities byte) (heq : read = system ++ byte :: rest) :
    CutsHarmless platform capabilities read chunks := by
  intro earlier chunk after _ system' header' name' hfirst
  have hbytes := hfirst.bytes
  rw [heq, List.append_assoc, List.append_assoc, List.cons_append] at hbytes
  exact absurd hbytes (denied_before_name commands denied hfirst.commands hfirst.named)

/-- The runs let nothing be seen of the cuts exactly when these are harmless. -/
theorem cutsUnseen_iff (chunks : List (List UInt8)) (hread : BeforeName platform capabilities read)
    (h : Passes platform false (connectionParser capabilities) read false parser asked) :
    CutsUnseen platform parser chunks ↔ CutsHarmless platform capabilities read chunks := by
  induction chunks generalizing read parser asked with
  | nil =>
    refine iff_of_true trivial ?_
    intro before chunk after heq
    cases before <;> cases heq
  | cons chunk chunks ih =>
    rw [cutsHarmless_cons]
    cases @streamKind platform capabilities (read ++ chunk) with
    | beforeName hb =>
      obtain ⟨parser', asked', hpasses, hiff⟩ := cutsUnseen_beforeName chunks h hb
      rw [hiff, ih hb hpasses]
      refine (and_iff_right ?_).symm
      intro system header name hfirst
      exact absurd (hb.name_eq_nil hfirst.commands hfirst.named hfirst.bytes) hfirst.begun
    | givesUp commands denied heq =>
      refine iff_of_true (cutsUnseen_denied chunks h commands denied heq) ⟨?_, ?_⟩
      · intro system' header name hfirst
        exact absurd (heq.symm.trans hfirst.bytes)
          (denied_before_name commands denied hfirst.commands hfirst.named)
      · exact cutsHarmless_of_denied chunks commands denied heq
    | named commands before begun heq =>
      rw [cutsUnseen_firstName chunks h commands before begun heq]
      constructor
      · intro hbehind
        refine ⟨fun system header name hfirst => ?_, ?_⟩
        · obtain ⟨-, rfl, rfl⟩ := firstName_unique commands hfirst.commands before hfirst.named
            (heq.symm.trans hfirst.bytes)
          exact hbehind
        · exact cutsHarmless_of_firstName chunks commands before begun heq
      · rintro ⟨hhere, -⟩
        exact hhere _ _ _ ⟨commands, before, begun, heq, hread.length_le commands before heq⟩

/-- For every capability set, every stream and every way to cut it, the cuts cannot be
observed exactly when they are harmless. -/
theorem chunking_iff (platform : Platform) (capabilities : Capset) (chunks : List (List UInt8)) :
    (feedReads platform (connectionParser capabilities) chunks).Same
        (feedReads platform (connectionParser capabilities) [chunks.flatten]) ↔
      CutsHarmless platform capabilities [] chunks := by
  rw [feedReads_same_iff chunks (.empty rfl)]
  exact cutsUnseen_iff chunks (.commands (by simp)) (.refl platform false _)

/-- A name with a `'/'` turns the parser invalid at once, but is read past its chunk when the
chunk ends before the `'/'`. -/
theorem chunking_name_fails :
    ¬ (feedReads ⟨.little, true⟩ (connectionParser capsetAll) [[1, 97], [47, 98, 0]]).Same
      (feedReads ⟨.little, true⟩ (connectionParser capsetAll) [[1, 97, 47, 98, 0]]) := by
  intro h
  have hend := h.ending
  revert hend
  decide

end Cyberd
