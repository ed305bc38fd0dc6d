import Cyberd.Trap
import Cyberd.Library.CString

/-!
# The arguments of a daemon

The expansion of `daemon_conf_parse_general_arguments` happens in place: the words
are written over the value they are read from, with four cursors in one buffer.
It is shown to be a tokenizer that reads the value once and writes nowhere.
-/

namespace Cyberd

open Library

/-- The byte `' '`. -/
def byteBlank : UInt8 := 32

/-- The byte `'"'`. -/
def byteDoubleQuote : UInt8 := 34

/-- The byte `'\''`. -/
def byteSingleQuote : UInt8 := 39

/-- The byte `'\\'`. -/
def byteBackslash : UInt8 := 92

/-- `daemon_conf_list_append`, none for a null list. -/
def daemonConfListAppend (list : Option (List Name)) (string : Name) : Option (List Name) :=
  some (list.getD [] ++ [string])

/-- The states of the expansion, from `EXPAND_SPACES` on. -/
inductive ExpandState
  | spaces
  | literal
  | quoteSingle
  | quoteDouble
  | quoteDoubleEscape
  | expandEnd
  | errorUnclosedQuote
  deriving DecidableEq, Repr

/-- The expansion goes on: `state < EXPAND_END`. -/
def ExpandState.running : ExpandState → Bool
  | .spaces | .literal | .quoteSingle | .quoteDouble | .quoteDoubleEscape => true
  | .expandEnd | .errorUnclosedQuote => false

/-- The local variables of the expansion. -/
structure Expansion where
  /-- The state. -/
  state : ExpandState
  /-- The local copy of the value, with its terminating byte. -/
  buffer : List UInt8
  /-- The index of the byte being looked at. -/
  it : Nat
  /-- Where the next byte of the argument goes. -/
  dst : Nat
  /-- Where the next byte of the argument comes from. -/
  src : Nat
  /-- Where the argument begins. -/
  arg : Nat
  /-- The list of arguments so far. -/
  arguments : Option (List Name)
  deriving DecidableEq, Repr

/-- `*dst++ = *src++` -/
def Expansion.copy (e : Expansion) : Except Trap Expansion :=
  match e.buffer[e.src]? with
  | none => .error .outOfBounds
  | some byte =>
    if e.dst < e.buffer.length then
      .ok { e with buffer := e.buffer.set e.dst byte, dst := e.dst + 1, src := e.src + 1 }
    else .error .outOfBounds

/-- `*dst = '\0'` and the append of the argument. -/
def Expansion.append (e : Expansion) : Except Trap Expansion :=
  if e.dst < e.buffer.length then
    let buffer := e.buffer.set e.dst 0
    .ok { e with
      buffer := buffer
      arguments := daemonConfListAppend e.arguments (cString (buffer.drop e.arg)) }
  else .error .outOfBounds

/-- The body of the loop, for the byte at `it`. -/
def Expansion.branch (e : Expansion) (byte : UInt8) : Except Trap Expansion :=
  match e.state with
  | .spaces =>
    if byte = 0 then .ok { e with state := .expandEnd }
    else if byte = byteBlank then .ok e
    else if byte = byteDoubleQuote then
      .ok { e with state := .quoteDouble, dst := e.it, src := e.it + 1, arg := e.it }
    else if byte = byteSingleQuote then
      .ok { e with state := .quoteSingle, dst := e.it, src := e.it + 1, arg := e.it }
    else .ok { e with state := .literal, dst := e.it + 1, src := e.it + 1, arg := e.it }
  | .literal =>
    if byte = 0 then { e with state := .expandEnd }.append
    else if byte = byteDoubleQuote then .ok { e with state := .quoteDouble, src := e.src + 1 }
    else if byte = byteSingleQuote then .ok { e with state := .quoteSingle, src := e.src + 1 }
    else if byte = byteBlank then { e with state := .spaces }.append
    else e.copy
  | .quoteSingle =>
    if byte = 0 then .ok { e with state := .errorUnclosedQuote }
    else if byte = byteSingleQuote then .ok { e with state := .literal, src := e.src + 1 }
    else e.copy
  | .quoteDouble =>
    if byte = 0 then .ok { e with state := .errorUnclosedQuote }
    else if byte = byteDoubleQuote then .ok { e with state := .literal, src := e.src + 1 }
    else if byte = byteBackslash then
      .ok { e with state := .quoteDoubleEscape, src := e.src + 1 }
    else e.copy
  | .quoteDoubleEscape =>
    if byte = 0 then .ok { e with state := .errorUnclosedQuote }
    else { e with state := .quoteDouble }.copy
  | .expandEnd | .errorUnclosedQuote => .error .abort

/-- One iteration of the loop. -/
def Expansion.step (e : Expansion) : Except Trap Expansion :=
  match e.buffer[e.it]? with
  | none => .error .outOfBounds
  | some byte => do
    let e' ← e.branch byte
    return { e' with it := e'.it + 1 }

/-- The loop, where `remaining` bytes of the buffer are left from `it` on. -/
def Expansion.loop : Nat → Expansion → Except Trap Expansion
  | 0, e => if e.state.running then .error .outOfBounds else .ok e
  | remaining + 1, e =>
    if e.state.running then do Expansion.loop remaining (← e.step) else .ok e

/-- The list of arguments of an expansion that is over, none when it failed. -/
def Expansion.result (e : Expansion) : Option (List Name) :=
  if e.state = .errorUnclosedQuote then none else e.arguments

/-- The expansion of a value into the list of its arguments, none when it failed. -/
def expandArguments (value : Name) : Except Trap (Option (List Name)) := do
  let e ← Expansion.loop (value.length + 1) ⟨.spaces, value ++ [0], 0, 0, 0, 0, none⟩
  return e.result

/-- The arguments of a value, read once from the left: the word being read is kept
apart from the arguments before it. -/
def tokenize : ExpandState → Option (List Name) → Name → List UInt8 → Option (List Name)
  | .spaces, arguments, _, [] => arguments
  | .literal, arguments, word, [] => daemonConfListAppend arguments word
  | _, _, _, [] => none
  | .spaces, arguments, word, byte :: rest =>
    if byte = byteBlank then tokenize .spaces arguments word rest
    else if byte = byteDoubleQuote then tokenize .quoteDouble arguments [] rest
    else if byte = byteSingleQuote then tokenize .quoteSingle arguments [] rest
    else tokenize .literal arguments [byte] rest
  | .literal, arguments, word, byte :: rest =>
    if byte = byteDoubleQuote then tokenize .quoteDouble arguments word rest
    else if byte = byteSingleQuote then tokenize .quoteSingle arguments word rest
    else if byte = byteBlank then
      tokenize .spaces (daemonConfListAppend arguments word) [] rest
    else tokenize .literal arguments (word ++ [byte]) rest
  | .quoteSingle, arguments, word, byte :: rest =>
    if byte = byteSingleQuote then tokenize .literal arguments word rest
    else tokenize .quoteSingle arguments (word ++ [byte]) rest
  | .quoteDouble, arguments, word, byte :: rest =>
    if byte = byteDoubleQuote then tokenize .literal arguments word rest
    else if byte = byteBackslash then tokenize .quoteDoubleEscape arguments word rest
    else tokenize .quoteDouble arguments (word ++ [byte]) rest
  | .quoteDoubleEscape, arguments, word, byte :: rest =>
    tokenize .quoteDouble arguments (word ++ [byte]) rest
  | .expandEnd, _, _, _ :: _ | .errorUnclosedQuote, _, _, _ :: _ => none

/-- The expansion is at the rest of the value. Inside of an argument the buffer holds
the word written so far, then the bytes between both cursors, then the rest. -/
structure Expansion.Reads (e : Expansion) (word rest : List UInt8) : Prop where
  /-- The bytes from `it` on have not been written over. -/
  unread : e.buffer.drop e.it = rest ++ [0]
  /-- The rest has no terminating byte. -/
  rest_nul : (0 : UInt8) ∉ rest
  /-- The cursors of an argument, of which the word has been written. -/
  argument : e.state ≠ .spaces → e.src = e.it ∧ (0 : UInt8) ∉ word ∧
    ∃ front gap, e.buffer = front ++ word ++ gap ++ (rest ++ [0]) ∧ e.arg = front.length ∧
      e.dst = (front ++ word).length

/-- The first byte after the written word is replaced. -/
private theorem set_after_word (front word gap : List UInt8) (byte next : UInt8)
    (rest : List UInt8) : ∃ gap', gap'.length = gap.length ∧
      (front ++ word ++ gap ++ byte :: rest).set (front ++ word).length next =
        front ++ (word ++ [next]) ++ gap' ++ rest := by
  cases gap with
  | nil =>
    refine ⟨[], rfl, ?_⟩
    rw [List.append_nil, List.set_append_right _ _ (Nat.le_refl _), Nat.sub_self]
    simp
  | cons g gap =>
    refine ⟨gap ++ [byte], by simp, ?_⟩
    rw [List.append_assoc (front ++ word), List.set_append_right _ _ (Nat.le_refl _),
      Nat.sub_self]
    simp

/-- The unread byte at `it`. -/
theorem Expansion.Reads.byte {e : Expansion} {word rest : List UInt8} {byte : UInt8}
    (h : e.Reads word (byte :: rest)) :
    e.buffer[e.it]? = some byte ∧ byte ≠ 0 ∧ e.buffer.drop (e.it + 1) = rest ++ [0] ∧
      (0 : UInt8) ∉ rest := by
  refine ⟨?_, ?_, ?_, fun hmem => h.rest_nul (List.mem_cons_of_mem _ hmem)⟩
  · rw [← List.head?_drop, h.unread]
    rfl
  · rintro rfl
    exact h.rest_nul (List.mem_cons_self ..)
  · rw [← List.drop_drop, h.unread]
    rfl

/-- The terminating byte is at `it` when nothing is left. -/
theorem Expansion.Reads.terminator {e : Expansion} {word : List UInt8} (h : e.Reads word []) :
    e.buffer[e.it]? = some 0 := by
  rw [← List.head?_drop, h.unread]
  rfl

/-- Copying a byte adds it to the word. -/
theorem Expansion.Reads.copy {e : Expansion} {word rest : List UInt8} {byte : UInt8}
    (h : e.Reads word (byte :: rest)) (hs : e.state ≠ .spaces) :
    ∃ e', e.copy = .ok e' ∧ e'.state = e.state ∧ e'.arguments = e.arguments ∧ e'.it = e.it ∧
      { e' with it := e'.it + 1 }.Reads (word ++ [byte]) rest := by
  obtain ⟨hbyte, hne, hdrop, hnul⟩ := h.byte
  obtain ⟨hsrc, hword, front, gap, hbuf, harg, hdst⟩ := h.argument hs
  obtain ⟨gap', hgap, hset⟩ := set_after_word front word gap byte byte (rest ++ [0])
  have hbuf' : e.buffer = front ++ word ++ gap ++ byte :: (rest ++ [0]) := by
    rw [hbuf, List.cons_append]
  have hit : e.it = (front ++ word ++ gap).length := by
    have hlen := congrArg List.length h.unread
    rw [List.length_drop, hbuf'] at hlen
    simp only [List.length_append, List.length_cons] at hlen ⊢
    omega
  have hlt : e.dst < e.buffer.length := by
    rw [hdst, hbuf']
    simp only [List.length_append, List.length_cons]
    omega
  have hcopy : e.copy = .ok
      { e with buffer := e.buffer.set e.dst byte, dst := e.dst + 1, src := e.src + 1 } := by
    have hb : e.buffer[e.src]? = some byte := hsrc ▸ hbyte
    simp only [Expansion.copy, hb, if_pos hlt]
  refine ⟨_, hcopy, rfl, rfl, rfl, ?_⟩
  refine ⟨?_, hnul, fun _ => ⟨by simp [hsrc], ?_, front, gap', ?_, harg, ?_⟩⟩
  · simp only
    rw [hdst, hbuf', hset, hit]
    have hfront : (front ++ word ++ gap).length + 1 =
        (front ++ (word ++ [byte]) ++ gap').length := by
      simp only [List.length_append, List.length_cons, List.length_nil, hgap]
      omega
    rw [hfront]
    exact List.drop_left
  · simp only [List.mem_append, List.mem_singleton, not_or]
    exact ⟨hword, hne.symm⟩
  · simp only
    rw [hdst, hbuf', hset]
  · simp only [List.length_append, List.length_cons, List.length_nil] at hdst ⊢
    omega

/-- Appending the argument appends the word. -/
theorem Expansion.Reads.append {e : Expansion} {word rest : List UInt8} {byte : UInt8}
    {tail : List UInt8} (h : e.Reads word rest) (hs : e.state ≠ .spaces)
    (htail : rest ++ [0] = byte :: tail) (state : ExpandState) :
    ∃ e', { e with state := state }.append = .ok e' ∧ e'.state = state ∧
      e'.arguments = daemonConfListAppend e.arguments word ∧ e'.it = e.it ∧
      e'.buffer.drop (e.it + 1) = tail := by
  obtain ⟨-, hword, front, gap, hbuf, harg, hdst⟩ := h.argument hs
  rw [htail] at hbuf
  obtain ⟨gap', hgap, hset⟩ := set_after_word front word gap byte 0 tail
  have hit : e.it = (front ++ word ++ gap).length := by
    have hlen := congrArg List.length h.unread
    rw [htail, List.length_drop, hbuf] at hlen
    simp only [List.length_append, List.length_cons] at hlen ⊢
    omega
  have hlt : e.dst < e.buffer.length := by
    rw [hdst, hbuf]
    simp only [List.length_append, List.length_cons]
    omega
  refine ⟨_, if_pos hlt, rfl, ?_, rfl, ?_⟩
  · simp only
    rw [hdst, hbuf, hset, harg, List.append_assoc, List.append_assoc, List.drop_left]
    have hstring : cString (word ++ [0] ++ (gap' ++ tail)) = word := by
      rw [cString, List.append_assoc, List.takeWhile_append_of_pos]
      · simp
      · intro b hb
        simpa using fun h0 : b = 0 => hword (h0 ▸ hb)
    rw [hstring]
  · simp only
    rw [hdst, hbuf, hset, hit]
    have hfront : (front ++ word ++ gap).length + 1 =
        (front ++ (word ++ [0]) ++ gap').length := by
      simp only [List.length_append, List.length_cons, List.length_nil, hgap]
      omega
    rw [hfront]
    exact List.drop_left

/-- A quote or an escape is not copied, the word stays. -/
theorem Expansion.Reads.skip {e : Expansion} {word rest : List UInt8} {byte : UInt8}
    (h : e.Reads word (byte :: rest)) (hs : e.state ≠ .spaces) (state : ExpandState) :
    { e with state := state, src := e.src + 1, it := e.it + 1 }.Reads word rest := by
  obtain ⟨-, -, hdrop, hnul⟩ := h.byte
  obtain ⟨hsrc, hword, front, gap, hbuf, harg, hdst⟩ := h.argument hs
  refine ⟨hdrop, hnul, fun _ => ⟨?_, hword, front, gap ++ [byte], ?_, harg, hdst⟩⟩
  · simp only [hsrc]
  · rw [hbuf]
    simp

/-- An argument begins after its opening quote, with an empty word. -/
theorem Expansion.Reads.openQuote {e : Expansion} {word rest : List UInt8} {byte : UInt8}
    (h : e.Reads word (byte :: rest)) (state : ExpandState) :
    { e with state := state, dst := e.it, src := e.it + 1, arg := e.it, it := e.it + 1 }.Reads
      [] rest := by
  obtain ⟨-, -, hdrop, hnul⟩ := h.byte
  have hlt : e.it < e.buffer.length := by
    have hlen := congrArg List.length h.unread
    simp only [List.length_drop, List.length_append, List.length_cons, List.length_nil] at hlen
    omega
  refine ⟨hdrop, hnul, fun _ => ⟨rfl, by simp, e.buffer.take e.it, [byte], ?_, ?_, ?_⟩⟩
  · conv_lhs => rw [← List.take_append_drop e.it e.buffer, h.unread]
    simp
  · simp only [List.length_take]
    omega
  · simp only [List.append_nil, List.length_take]
    omega

/-- An argument begins with a byte of its own. -/
theorem Expansion.Reads.openLiteral {e : Expansion} {word rest : List UInt8} {byte : UInt8}
    (h : e.Reads word (byte :: rest)) :
    { e with
      state := .literal, dst := e.it + 1, src := e.it + 1, arg := e.it, it := e.it + 1 }.Reads
      [byte] rest := by
  obtain ⟨-, hne, hdrop, hnul⟩ := h.byte
  have hlt : e.it < e.buffer.length := by
    have hlen := congrArg List.length h.unread
    simp only [List.length_drop, List.length_append, List.length_cons, List.length_nil] at hlen
    omega
  refine ⟨hdrop, hnul, fun _ => ⟨rfl, ?_, e.buffer.take e.it, [], ?_, ?_, ?_⟩⟩
  · simpa using hne.symm
  · conv_lhs => rw [← List.take_append_drop e.it e.buffer, h.unread]
    simp
  · simp only [List.length_take]
    omega
  · simp only [List.length_append, List.length_take, List.length_cons, List.length_nil]
    omega

/-- A loop whose state is a final one is over. -/
private theorem loop_over {e : Expansion} (h : e.state.running = false) (remaining : Nat) :
    Expansion.loop remaining e = .ok e := by
  cases remaining <;> simp [Expansion.loop, h]

/-- A running loop goes on from the state after its first iteration. -/
private theorem loop_step {e e' : Expansion} {byte : UInt8} (h : e.state.running = true)
    (hbyte : e.buffer[e.it]? = some byte) (hbranch : e.branch byte = .ok e') (remaining : Nat) :
    Expansion.loop (remaining + 1) e = Expansion.loop remaining { e' with it := e'.it + 1 } := by
  rw [Expansion.loop, if_pos h, Expansion.step, hbyte]
  simp only [hbranch, except_bind_ok]
  rfl

/-- What the byte at `it` does to the state and to the word is what the tokenizer does. -/
def Expansion.Tokenizes (e : Expansion) (word : List UInt8) (byte : UInt8)
    (rest : List UInt8) : Prop :=
  ∃ e' word', e.branch byte = .ok e' ∧ e'.state.running = true ∧
    { e' with it := e'.it + 1 }.Reads word' rest ∧
    tokenize e.state e.arguments word (byte :: rest) = tokenize e'.state e'.arguments word' rest

variable {e : Expansion} {word rest : List UInt8} {byte : UInt8}

/-- A copied byte is the next one of the word. -/
theorem Expansion.Reads.tokenizes_copy (h : e.Reads word (byte :: rest))
    (hs : e.state ≠ .spaces) (hrun : e.state.running = true) (hb : e.branch byte = e.copy)
    (ht : tokenize e.state e.arguments word (byte :: rest) =
      tokenize e.state e.arguments (word ++ [byte]) rest) : e.Tokenizes word byte rest := by
  obtain ⟨e', hc, hstate, hargs, -, hreads⟩ := h.copy hs
  exact ⟨e', _, hb.trans hc, by rw [hstate, hrun], hreads, by rw [ht, hstate, hargs]⟩

/-- Between two arguments a blank is skipped, any other byte begins an argument. -/
theorem Expansion.Reads.tokenizes_spaces (h : e.Reads word (byte :: rest))
    (hs : e.state = .spaces) : e.Tokenizes word byte rest := by
  obtain ⟨-, hne, hdrop, hnul⟩ := h.byte
  by_cases hblank : byte = byteBlank
  · refine ⟨e, word, ?_, by rw [hs]; rfl, ⟨hdrop, hnul, fun hn => (hn hs).elim⟩, ?_⟩
    · simp only [branch, hs, if_neg hne, if_pos hblank]
    · rw [hs, tokenize, if_pos hblank]
  · by_cases hdouble : byte = byteDoubleQuote
    · refine ⟨{ e with state := .quoteDouble, dst := e.it, src := e.it + 1, arg := e.it }, [],
        ?_, rfl, h.openQuote .quoteDouble, ?_⟩
      · simp only [branch, hs, if_neg hne, if_neg hblank, if_pos hdouble]
      · rw [hs, tokenize, if_neg hblank, if_pos hdouble]
    · by_cases hsingle : byte = byteSingleQuote
      · refine ⟨{ e with state := .quoteSingle, dst := e.it, src := e.it + 1, arg := e.it }, [],
          ?_, rfl, h.openQuote .quoteSingle, ?_⟩
        · simp only [branch, hs, if_neg hne, if_neg hblank, if_neg hdouble, if_pos hsingle]
        · rw [hs, tokenize, if_neg hblank, if_neg hdouble, if_pos hsingle]
      · refine ⟨{ e with state := .literal, dst := e.it + 1, src := e.it + 1, arg := e.it }, [byte],
          ?_, rfl, h.openLiteral, ?_⟩
        · simp only [branch, hs, if_neg hne, if_neg hblank, if_neg hdouble, if_neg hsingle]
        · rw [hs, tokenize, if_neg hblank, if_neg hdouble, if_neg hsingle]

/-- Outside of quotes an argument goes on up to a blank. -/
theorem Expansion.Reads.tokenizes_literal (h : e.Reads word (byte :: rest))
    (hs : e.state = .literal) : e.Tokenizes word byte rest := by
  obtain ⟨-, hne, -, hnul⟩ := h.byte
  have hsp : e.state ≠ .spaces := by simp [hs]
  by_cases hdouble : byte = byteDoubleQuote
  · refine ⟨{ e with state := .quoteDouble, src := e.src + 1 },
      word, ?_, rfl, h.skip hsp .quoteDouble, ?_⟩
    · simp only [branch, hs, if_neg hne, if_pos hdouble]
    · rw [hs, tokenize, if_pos hdouble]
  · by_cases hsingle : byte = byteSingleQuote
    · refine ⟨{ e with state := .quoteSingle, src := e.src + 1 },
        word, ?_, rfl, h.skip hsp .quoteSingle, ?_⟩
      · simp only [branch, hs, if_neg hne, if_neg hdouble, if_pos hsingle]
      · rw [hs, tokenize, if_neg hdouble, if_pos hsingle]
    · by_cases hblank : byte = byteBlank
      · obtain ⟨e', happ, hstate, hargs, hit, htail⟩ := h.append hsp rfl .spaces
        refine ⟨e', [], ?_, by rw [hstate]; rfl,
          ⟨(hit.symm ▸ htail : e'.buffer.drop (e'.it + 1) = _), hnul,
            fun hn => (hn hstate).elim⟩, ?_⟩
        · simp only [branch, hs, if_neg hne, if_neg hdouble, if_neg hsingle, if_pos hblank, happ]
        · rw [hs, tokenize, if_neg hdouble, if_neg hsingle, if_pos hblank, hstate, hargs]
      · refine h.tokenizes_copy hsp (by rw [hs]; rfl) ?_ ?_
        · simp only [branch, hs, if_neg hne, if_neg hdouble, if_neg hsingle, if_neg hblank]
        · rw [hs, tokenize, if_neg hdouble, if_neg hsingle, if_neg hblank]

/-- Inside of single quotes an argument goes on up to the closing one. -/
theorem Expansion.Reads.tokenizes_quoteSingle (h : e.Reads word (byte :: rest))
    (hs : e.state = .quoteSingle) : e.Tokenizes word byte rest := by
  obtain ⟨-, hne, -, -⟩ := h.byte
  have hsp : e.state ≠ .spaces := by simp [hs]
  by_cases hsingle : byte = byteSingleQuote
  · refine ⟨{ e with state := .literal, src := e.src + 1 }, word, ?_, rfl, h.skip hsp .literal, ?_⟩
    · simp only [branch, hs, if_neg hne, if_pos hsingle]
    · rw [hs, tokenize, if_pos hsingle]
  · refine h.tokenizes_copy hsp (by rw [hs]; rfl) ?_ ?_
    · simp only [branch, hs, if_neg hne, if_neg hsingle]
    · rw [hs, tokenize, if_neg hsingle]

/-- Inside of double quotes a backslash escapes the next byte. -/
theorem Expansion.Reads.tokenizes_quoteDouble (h : e.Reads word (byte :: rest))
    (hs : e.state = .quoteDouble) : e.Tokenizes word byte rest := by
  obtain ⟨-, hne, -, -⟩ := h.byte
  have hsp : e.state ≠ .spaces := by simp [hs]
  by_cases hdouble : byte = byteDoubleQuote
  · refine ⟨{ e with state := .literal, src := e.src + 1 }, word, ?_, rfl, h.skip hsp .literal, ?_⟩
    · simp only [branch, hs, if_neg hne, if_pos hdouble]
    · rw [hs, tokenize, if_pos hdouble]
  · by_cases hescape : byte = byteBackslash
    · refine ⟨{ e with state := .quoteDoubleEscape, src := e.src + 1 },
        word, ?_, rfl, h.skip hsp .quoteDoubleEscape, ?_⟩
      · simp only [branch, hs, if_neg hne, if_neg hdouble, if_pos hescape]
      · rw [hs, tokenize, if_neg hdouble, if_pos hescape]
    · refine h.tokenizes_copy hsp (by rw [hs]; rfl) ?_ ?_
      · simp only [branch, hs, if_neg hne, if_neg hdouble, if_neg hescape]
      · rw [hs, tokenize, if_neg hdouble, if_neg hescape]

/-- An escaped byte is one of the word, whatever it is. -/
theorem Expansion.Reads.tokenizes_quoteDoubleEscape (h : e.Reads word (byte :: rest))
    (hs : e.state = .quoteDoubleEscape) : e.Tokenizes word byte rest := by
  obtain ⟨-, hne, -, -⟩ := h.byte
  have hreads : { e with state := .quoteDouble }.Reads word (byte :: rest) :=
    ⟨h.unread, h.rest_nul, fun _ => h.argument (by simp [hs])⟩
  obtain ⟨e', hc, hstate, hargs, -, hnext⟩ := hreads.copy (by simp)
  refine ⟨e', _, ?_, by rw [hstate]; rfl, hnext, ?_⟩
  · simp only [branch, hs, if_neg hne, hc]
  · rw [hs, tokenize, hstate, hargs]

/-- Every iteration before the terminating byte does what the tokenizer does. -/
theorem Expansion.Reads.tokenizes (h : e.Reads word (byte :: rest))
    (hs : e.state.running = true) : e.Tokenizes word byte rest := by
  cases hstate : e.state with
  | spaces => exact h.tokenizes_spaces hstate
  | literal => exact h.tokenizes_literal hstate
  | quoteSingle => exact h.tokenizes_quoteSingle hstate
  | quoteDouble => exact h.tokenizes_quoteDouble hstate
  | quoteDoubleEscape => exact h.tokenizes_quoteDoubleEscape hstate
  | expandEnd => simp [hstate, ExpandState.running] at hs
  | errorUnclosedQuote => simp [hstate, ExpandState.running] at hs

/-- The terminating byte ends the expansion as the end of the value ends the tokenizer. -/
theorem Expansion.Reads.terminates (h : e.Reads word []) (hs : e.state.running = true) :
    ∃ e', e.branch 0 = .ok e' ∧ e'.state.running = false ∧
      e'.result = tokenize e.state e.arguments word [] := by
  cases hstate : e.state with
  | spaces =>
    refine ⟨{ e with state := .expandEnd }, ?_, rfl, rfl⟩
    simp only [branch, hstate, if_pos]
  | literal =>
    obtain ⟨e', happ, hstate', hargs, -, -⟩ := h.append (by simp [hstate]) rfl .expandEnd
    refine ⟨e', ?_, by rw [hstate']; rfl, ?_⟩
    · simp only [branch, hstate, if_pos, happ]
    · rw [result, if_neg (by simp [hstate']), hargs, tokenize]
  | quoteSingle =>
    refine ⟨{ e with state := .errorUnclosedQuote }, ?_, rfl, rfl⟩
    simp only [branch, hstate, if_pos]
  | quoteDouble =>
    refine ⟨{ e with state := .errorUnclosedQuote }, ?_, rfl, rfl⟩
    simp only [branch, hstate, if_pos]
  | quoteDoubleEscape =>
    refine ⟨{ e with state := .errorUnclosedQuote }, ?_, rfl, rfl⟩
    simp only [branch, hstate, if_pos]
  | expandEnd => simp [hstate, ExpandState.running] at hs
  | errorUnclosedQuote => simp [hstate, ExpandState.running] at hs

/-- The expansion in place is the tokenizer. -/
theorem Expansion.loop_tokenize (h : e.Reads word rest) (hs : e.state.running = true) :
    ∃ e', Expansion.loop (rest.length + 1) e = .ok e' ∧
      e'.result = tokenize e.state e.arguments word rest := by
  induction rest generalizing e word with
  | nil =>
    obtain ⟨e', hb, hrun, hres⟩ := h.terminates hs
    have hover : ({ e' with it := e'.it + 1 } : Expansion).state.running = false := hrun
    exact ⟨_, (loop_step hs h.terminator hb 0).trans (loop_over hover 0), hres⟩
  | cons byte rest ih =>
    obtain ⟨e', word', hb, hrun, hreads, htok⟩ := h.tokenizes hs
    obtain ⟨e'', hloop, hres⟩ := ih hreads hrun
    exact ⟨e'', (loop_step hs h.byte.1 hb _).trans hloop, hres.trans htok.symm⟩

/-- The expansion of a string is its list of tokens, and stays inside of the string. -/
theorem expandArguments_eq {value : Name} (h : (0 : UInt8) ∉ value) :
    expandArguments value = .ok (tokenize .spaces none [] value) := by
  have hreads : (⟨.spaces, value ++ [0], 0, 0, 0, 0, none⟩ : Expansion).Reads [] value :=
    ⟨rfl, h, fun hs => (hs rfl).elim⟩
  obtain ⟨e', hloop, hres⟩ := Expansion.loop_tokenize hreads rfl
  rw [expandArguments, hloop]
  exact congrArg Except.ok hres

end Cyberd
