import Cyberd.Conf.Tokens
import Cyberd.Conf.Values

/-!
# The cursors of the expansion

The words are written over the value while it is read. At every iteration the cursor
that is read from is at the next byte, the one that is written to is not ahead of it,
and what was not read yet is still what the value has there.
-/

namespace Cyberd

open Library

/-- The states of the loop over a value. -/
inductive Expansion.Reached (value : Name) : Expansion → Prop
  | start : Reached value ⟨.spaces, value ++ [0], 0, 0, 0, 0, none⟩
  | step {e e' : Expansion} (front : Reached value e) (running : e.state.running = true)
      (next : e.step = .ok e') : Reached value e'

/-- The cursors stay inside of the value, and apart. -/
structure Expansion.Within (value : Name) (e : Expansion) : Prop where
  /-- The buffer is the one of the value and its terminating byte. -/
  length : e.buffer.length = value.length + 1
  /-- The byte that is looked at is in the buffer. -/
  inside : e.state.running = true → e.it ≤ value.length
  /-- What is left to read has not been written over. -/
  unread : e.state.running = true → e.buffer.drop e.it = (value ++ [0]).drop e.it
  /-- Inside of a word the cursors are in order. -/
  cursors : e.state.running = true → e.state ≠ .spaces →
    e.src = e.it ∧ e.dst ≤ e.src ∧ e.arg ≤ e.dst
  /-- The iteration reads and writes in the buffer only. -/
  steps : e.state.running = true → ∃ e', e.step = .ok e'

/-- The expansion of a value is its list of words by the grammar. -/
structure ArgumentsExpanded (value : Name) : Prop where
  /-- The cursors are within the value at every iteration. -/
  within : ∀ e, Expansion.Reached value e → e.Within value
  /-- The loop ends, and its last state gives the result. -/
  terminates : ∃ e, Expansion.Reached value e ∧ e.state.running = false ∧
    expandArguments value = .ok e.result
  /-- The parser succeeds exactly if no quote is left open and there is a word. -/
  succeeds : ∀ conf key, (daemonConfParseGeneralArguments conf key (some value)).1 = 0 ↔
    ¬ LeavesQuoteOpen value ∧ ∃ byte ∈ value, byte ≠ byteBlank
  /-- Then it stores the words of the value. -/
  stored : ∀ conf key, (daemonConfParseGeneralArguments conf key (some value)).1 = 0 →
    ∃ words, Words value words ∧ (∀ words', Words value words' → words' = words) ∧
      (daemonConfParseGeneralArguments conf key (some value)).2 =
        { conf with arguments := some words }
  /-- Otherwise it changes nothing. -/
  failed : ∀ conf key, (daemonConfParseGeneralArguments conf key (some value)).1 ≠ 0 →
    (daemonConfParseGeneralArguments conf key (some value)).2 = conf

variable {e e' : Expansion} {value : Name} {word rest : List UInt8} {byte : UInt8}

/-- A copy moves its cursors only. -/
theorem Expansion.copy_frame (h : e.copy = .ok e') :
    e'.it = e.it ∧ e'.buffer.length = e.buffer.length := by
  unfold Expansion.copy at h
  split at h
  · cases h
  · split at h
    · obtain rfl := Except.ok.inj h
      exact ⟨rfl, List.length_set⟩
    · cases h

/-- An append writes one byte. -/
theorem Expansion.append_frame (h : e.append = .ok e') :
    e'.it = e.it ∧ e'.buffer.length = e.buffer.length := by
  unfold Expansion.append at h
  split at h
  · obtain rfl := Except.ok.inj h
    exact ⟨rfl, List.length_set⟩
  · cases h

/-- The byte that is looked at and the size of the buffer are left by the body of the loop. -/
theorem Expansion.branch_frame (h : e.branch byte = .ok e') :
    e'.it = e.it ∧ e'.buffer.length = e.buffer.length := by
  have hok : ∀ {e₁ : Expansion}, (.ok e₁ : Except Trap Expansion) = .ok e' →
      e₁.it = e.it ∧ e₁.buffer.length = e.buffer.length →
      e'.it = e.it ∧ e'.buffer.length = e.buffer.length := by
    intro e₁ heq hframe
    rwa [← Except.ok.inj heq]
  unfold Expansion.branch at h
  cases hs : e.state <;> simp only [hs] at h
  case expandEnd => cases h
  case errorUnclosedQuote => cases h
  all_goals
    repeat' split at h
    all_goals first
      | exact hok h ⟨rfl, rfl⟩
      | exact (Expansion.copy_frame h :)
      | exact (Expansion.append_frame h :)

/-- An iteration goes on to the next byte. -/
theorem Expansion.step_frame (hbyte : e.buffer[e.it]? = some byte)
    (hbranch : e.branch byte = .ok e') :
    e.step = .ok { e' with it := e'.it + 1 } ∧ e'.it = e.it ∧
      e'.buffer.length = e.buffer.length := by
  refine ⟨?_, Expansion.branch_frame hbranch⟩
  rw [Expansion.step, hbyte]
  simp only [hbranch, except_bind_ok]
  rfl

/-- At every iteration the rest of the value is read. -/
theorem Expansion.Reached.reads (h : Expansion.Reached value e) (hnul : (0 : UInt8) ∉ value) :
    e.buffer.length = value.length + 1 ∧
      (e.state.running = true → e.it ≤ value.length ∧ ∃ word, e.Reads word (value.drop e.it)) := by
  induction h with
  | start =>
    refine ⟨by simp, fun _ => ⟨Nat.zero_le _, [], rfl, hnul, fun hs => absurd rfl hs⟩⟩
  | @step e e' _ running next ih =>
    obtain ⟨hlength, hreads⟩ := ih
    obtain ⟨hit, word, hread⟩ := hreads running
    cases hdrop : value.drop e.it with
    | nil =>
      rw [hdrop] at hread
      obtain ⟨e₁, hbranch, hover, -⟩ := hread.terminates running
      obtain ⟨hstep, -, hlength'⟩ := Expansion.step_frame hread.terminator hbranch
      obtain rfl := Except.ok.inj (hstep.symm.trans next)
      refine ⟨hlength'.trans hlength, fun hrunning => ?_⟩
      rw [show e₁.state.running = true from hrunning] at hover
      cases hover
    | cons byte rest =>
      rw [hdrop] at hread
      obtain ⟨e₁, word', hbranch, -, hnext, -⟩ := hread.tokenizes running
      obtain ⟨hstep, hsame, hlength'⟩ := Expansion.step_frame hread.byte.1 hbranch
      obtain rfl := Except.ok.inj (hstep.symm.trans next)
      have hlt : e.it < value.length := by
        have hlen := congrArg List.length hdrop
        rw [List.length_drop, List.length_cons] at hlen
        omega
      have hrest : value.drop (e₁.it + 1) = rest := by
        rw [hsame, ← List.drop_drop, hdrop]
        rfl
      refine ⟨hlength'.trans hlength, fun _ => ⟨?_, word', ?_⟩⟩
      · change e₁.it + 1 ≤ value.length
        omega
      · change Expansion.Reads _ word' (value.drop (e₁.it + 1))
        rw [hrest]
        exact hnext

/-- The cursors are within the value at every iteration. -/
theorem Expansion.Reached.within (h : Expansion.Reached value e) (hnul : (0 : UInt8) ∉ value) :
    e.Within value := by
  obtain ⟨hlength, hreads⟩ := h.reads hnul
  refine ⟨hlength, fun hs => (hreads hs).1, fun hs => ?_, fun hs hword => ?_, fun hs => ?_⟩
  · obtain ⟨hit, word, hread⟩ := hreads hs
    rw [hread.unread, List.drop_append_of_le_length hit]
  · obtain ⟨hit, word, hread⟩ := hreads hs
    obtain ⟨hsrc, -, front, gap, hbuf, harg, hdst⟩ := hread.argument hword
    have hlen := congrArg List.length hbuf
    rw [hlength] at hlen
    simp only [List.length_append, List.length_drop, List.length_cons, List.length_nil]
      at hlen hdst
    exact ⟨hsrc, by omega, by omega⟩
  · obtain ⟨hit, word, hread⟩ := hreads hs
    cases hdrop : value.drop e.it with
    | nil =>
      rw [hdrop] at hread
      obtain ⟨e₁, hbranch, -⟩ := hread.terminates hs
      exact ⟨_, (Expansion.step_frame hread.terminator hbranch).1⟩
    | cons byte rest =>
      rw [hdrop] at hread
      obtain ⟨e₁, -, hbranch, -⟩ := hread.tokenizes hs
      exact ⟨_, (Expansion.step_frame hread.byte.1 hbranch).1⟩

/-- A loop that ends has gone through its iterations. -/
theorem Expansion.Reached.loop (h : Expansion.Reached value e) {remaining : Nat}
    (hloop : Expansion.loop remaining e = .ok e') :
    Expansion.Reached value e' ∧ e'.state.running = false := by
  induction remaining generalizing e with
  | zero =>
    rw [Expansion.loop] at hloop
    split at hloop
    · cases hloop
    · rename_i hover
      obtain rfl := Except.ok.inj hloop
      exact ⟨h, by simpa using hover⟩
  | succ remaining ih =>
    rw [Expansion.loop] at hloop
    split at hloop
    · rename_i hrunning
      cases hstep : e.step with
      | error trap =>
        rw [hstep] at hloop
        cases hloop
      | ok e₁ =>
        rw [hstep, except_bind_ok] at hloop
        exact ih (h.step hrunning hstep) hloop
    · rename_i hover
      obtain rfl := Except.ok.inj hloop
      exact ⟨h, by simpa using hover⟩

/-- The words of the tokenizer are stored. -/
theorem parseGeneralArguments_some (hnul : (0 : UInt8) ∉ value) {words : List Name}
    (h : tokenize .spaces none [] value = some words) (conf : DaemonConf) (key : Name) :
    daemonConfParseGeneralArguments conf key (some value) =
      (0, { conf with arguments := some words }) := by
  simp only [daemonConfParseGeneralArguments, expandArguments_eq hnul, h]

/-- Without words the value is refused. -/
theorem parseGeneralArguments_none (hnul : (0 : UInt8) ∉ value)
    (h : tokenize .spaces none [] value = none) (conf : DaemonConf) (key : Name) :
    daemonConfParseGeneralArguments conf key (some value) = (-1, conf) := by
  simp only [daemonConfParseGeneralArguments, expandArguments_eq hnul, h]

/-- The expansion in place of every value without a null byte is the one of the grammar. -/
theorem argumentsExpanded (hnul : (0 : UInt8) ∉ value) : ArgumentsExpanded value := by
  have hfail : (-1 : Int) ≠ 0 := by decide
  refine ⟨fun e h => h.within hnul, ?_, fun conf key => ?_, fun conf key hzero => ?_,
    fun conf key hne => ?_⟩
  · have hexpand := expandArguments_eq hnul
    rw [expandArguments] at hexpand ⊢
    cases hloop : Expansion.loop (value.length + 1) ⟨.spaces, value ++ [0], 0, 0, 0, 0, none⟩ with
    | error trap =>
      rw [hloop] at hexpand
      cases hexpand
    | ok e =>
      obtain ⟨hreached, hover⟩ := Expansion.Reached.start.loop hloop
      exact ⟨e, hreached, hover, rfl⟩
  · cases htokens : tokenize .spaces none [] value with
    | none =>
      rw [parseGeneralArguments_none hnul htokens]
      refine iff_of_false hfail ?_
      rintro ⟨hclosed, hbyte⟩
      rw [leavesQuoteOpen_iff] at hclosed
      push Not at hclosed
      obtain ⟨words, hwords⟩ := hclosed
      rw [tokenize_iff.mpr ⟨hwords, hwords.ne_nil_iff.mpr hbyte⟩] at htokens
      cases htokens
    | some words =>
      obtain ⟨hwords, hne⟩ := tokenize_iff.mp htokens
      rw [parseGeneralArguments_some hnul htokens]
      refine iff_of_true rfl ⟨fun hopen => leavesQuoteOpen_iff.mp hopen words hwords, ?_⟩
      exact hwords.ne_nil_iff.mp hne
  · cases htokens : tokenize .spaces none [] value with
    | none =>
      rw [parseGeneralArguments_none hnul htokens] at hzero
      exact absurd hzero hfail
    | some words =>
      obtain ⟨hwords, -⟩ := tokenize_iff.mp htokens
      rw [parseGeneralArguments_some hnul htokens]
      exact ⟨words, hwords, fun words' hwords' => hwords'.unique hwords, rfl⟩
  · cases htokens : tokenize .spaces none [] value with
    | none => rw [parseGeneralArguments_none hnul htokens]
    | some words =>
      rw [parseGeneralArguments_some hnul htokens] at hne
      exact absurd rfl hne

/-- A word with a part in each kind of quotes, and an empty one. -/
theorem argumentsExpanded_quotes : ArgumentsExpanded (ascii "a'b c'\"d\\\"\"  ''") :=
  argumentsExpanded (by decide)

end Cyberd
