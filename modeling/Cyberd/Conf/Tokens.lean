import Cyberd.Conf.Arguments

/-!
# The grammar of the arguments

Words are separated by blanks outside of quotes. A word is made of bytes of its own, of
texts in single quotes and of texts in double quotes, where a backslash takes the next
byte as it is. The tokenizer gives exactly the words that a value is made of, and fails
where a quote is left open.
-/

namespace Cyberd

open Library

/-- A text inside of double quotes, and what it stands for. -/
inductive Escaped : List UInt8 → List UInt8 → Prop
  | nil : Escaped [] []
  | plain {byte : UInt8} {text word : List UInt8} (quote : byte ≠ byteDoubleQuote)
      (escape : byte ≠ byteBackslash) (rest : Escaped text word) :
      Escaped (byte :: text) (byte :: word)
  | escape {byte : UInt8} {text word : List UInt8} (rest : Escaped text word) :
      Escaped (byteBackslash :: byte :: text) (byte :: word)

/-- A part of a word, and what it stands for. -/
inductive Piece : List UInt8 → List UInt8 → Prop
  /-- A byte outside of quotes. -/
  | literal {byte : UInt8} (blank : byte ≠ byteBlank) (double : byte ≠ byteDoubleQuote)
      (single : byte ≠ byteSingleQuote) : Piece [byte] [byte]
  /-- A text in single quotes. -/
  | single {text : List UInt8} (quote : byteSingleQuote ∉ text) :
      Piece (byteSingleQuote :: (text ++ [byteSingleQuote])) text
  /-- A text in double quotes. -/
  | double {text word : List UInt8} (inside : Escaped text word) :
      Piece (byteDoubleQuote :: (text ++ [byteDoubleQuote])) word

/-- A word as it is written, and what it stands for. -/
inductive Word : List UInt8 → List UInt8 → Prop
  | one {text word : List UInt8} (piece : Piece text word) : Word text word
  | more {text word text' word' : List UInt8} (piece : Piece text word) (rest : Word text' word') :
      Word (text ++ text') (word ++ word')

/-- The words of a value, with blanks between them. -/
inductive Words : List UInt8 → List Name → Prop
  | nil : Words [] []
  | blank {text : List UInt8} {words : List Name} (rest : Words text words) :
      Words (byteBlank :: text) words
  | last {text word : List UInt8} (first : Word text word) : Words text [word]
  | more {text word rest : List UInt8} {words : List Name} (first : Word text word)
      (others : Words rest words) : Words (text ++ byteBlank :: rest) (word :: words)

/-- A text that ends outside of quotes. -/
inductive Outside : List UInt8 → Prop
  | nil : Outside []
  | blank {text : List UInt8} (front : Outside text) : Outside (text ++ [byteBlank])
  | piece {text part word : List UInt8} (front : Outside text) (last : Piece part word) :
      Outside (text ++ part)

/-- What follows a quote that is not closed. -/
inductive Unclosed : List UInt8 → Prop
  /-- There is no other single quote. -/
  | single {text : List UInt8} (quote : byteSingleQuote ∉ text) :
      Unclosed (byteSingleQuote :: text)
  /-- There is no other double quote, but for the escaped ones. -/
  | double {text word : List UInt8} (inside : Escaped text word) :
      Unclosed (byteDoubleQuote :: text)
  /-- The last byte is a backslash. -/
  | escape {text word : List UInt8} (inside : Escaped text word) :
      Unclosed (byteDoubleQuote :: (text ++ [byteBackslash]))

/-- The value leaves a quote open. -/
def LeavesQuoteOpen (value : Name) : Prop :=
  ∃ front rest, value = front ++ rest ∧ Outside front ∧ Unclosed rest

variable {text word rest part value : List UInt8} {words words' : List Name}
  {arguments : Option (List Name)}

/-- The words come after the arguments there are. -/
def appendWords (arguments : Option (List Name)) (words : List Name) : Option (List Name) :=
  if words = [] then arguments else some (arguments.getD [] ++ words)

/-- The words after the first one come after it. -/
theorem appendWords_cons (arguments : Option (List Name)) (word : Name) (words : List Name) :
    appendWords arguments (word :: words) =
      appendWords (daemonConfListAppend arguments word) words := by
  cases words <;> simp [appendWords, daemonConfListAppend]

/-- A byte inside of double quotes is followed by those after it. -/
theorem Escaped.append (h : Escaped text word) {text' word' : List UInt8}
    (h' : Escaped text' word') : Escaped (text ++ text') (word ++ word') := by
  induction h with
  | nil => exact h'
  | plain quote escape _ ih => exact .plain quote escape ih
  | escape _ ih => exact .escape ih

/-- Single quotes are read up to the closing one. -/
theorem tokenize_single (h : byteSingleQuote ∉ text) (word rest : List UInt8) :
    tokenize .quoteSingle arguments word (text ++ rest) =
      tokenize .quoteSingle arguments (word ++ text) rest := by
  induction text generalizing word with
  | nil => rw [List.nil_append, List.append_nil]
  | cons byte text ih =>
    rw [List.mem_cons, not_or] at h
    rw [List.cons_append, tokenize, if_neg (Ne.symm h.1), ih h.2, List.append_assoc]
    rfl

/-- Double quotes are read with what they stand for. -/
theorem tokenize_double {inside : List UInt8} (h : Escaped text inside) (word rest : List UInt8) :
    tokenize .quoteDouble arguments word (text ++ rest) =
      tokenize .quoteDouble arguments (word ++ inside) rest := by
  induction h generalizing word with
  | nil => rw [List.nil_append, List.append_nil]
  | plain quote escape _ ih =>
    rw [List.cons_append, tokenize, if_neg quote, if_neg escape, ih, List.append_assoc]
    rfl
  | escape _ ih =>
    have hquote : byteBackslash ≠ byteDoubleQuote := by decide
    rw [List.cons_append, tokenize, if_neg hquote, if_pos rfl, List.cons_append, tokenize, ih,
      List.append_assoc]
    rfl

/-- A part of a word is read inside of the word. -/
theorem Piece.tokenize_literal {inside : List UInt8} (h : Piece part inside)
    (word rest : List UInt8) :
    tokenize .literal arguments word (part ++ rest) =
      tokenize .literal arguments (word ++ inside) rest := by
  cases h with
  | literal blank double single =>
    rw [List.singleton_append, tokenize, if_neg double, if_neg single, if_neg blank]
  | single quote =>
    have hquote : byteSingleQuote ≠ byteDoubleQuote := by decide
    rw [List.cons_append, tokenize, if_neg hquote, if_pos rfl, List.append_assoc,
      tokenize_single quote, List.singleton_append, tokenize, if_pos rfl]
  | double inside =>
    rw [List.cons_append, tokenize, if_pos rfl, List.append_assoc, tokenize_double inside,
      List.singleton_append, tokenize, if_pos rfl]

/-- A part of a word begins the word. -/
theorem Piece.tokenize_spaces {inside : List UInt8} (h : Piece part inside)
    (word rest : List UInt8) :
    tokenize .spaces arguments word (part ++ rest) = tokenize .literal arguments inside rest := by
  cases h with
  | literal blank double single =>
    rw [List.singleton_append, tokenize, if_neg blank, if_neg double, if_neg single]
  | single quote =>
    have hblank : byteSingleQuote ≠ byteBlank := by decide
    have hquote : byteSingleQuote ≠ byteDoubleQuote := by decide
    rw [List.cons_append, tokenize, if_neg hblank, if_neg hquote, if_pos rfl, List.append_assoc,
      tokenize_single quote, List.singleton_append, tokenize, if_pos rfl, List.nil_append]
  | double inside =>
    have hblank : byteDoubleQuote ≠ byteBlank := by decide
    rw [List.cons_append, tokenize, if_neg hblank, if_pos rfl, List.append_assoc,
      tokenize_double inside, List.singleton_append, tokenize, if_pos rfl, List.nil_append]

/-- The parts of a word are read one after the other. -/
theorem Word.tokenize_literal {inside : List UInt8} (h : Word text inside)
    (word rest : List UInt8) :
    tokenize .literal arguments word (text ++ rest) =
      tokenize .literal arguments (word ++ inside) rest := by
  induction h generalizing word with
  | one piece => exact piece.tokenize_literal word rest
  | more piece _ ih =>
    rw [List.append_assoc, piece.tokenize_literal, ih, List.append_assoc]

/-- A word is read from its first part on. -/
theorem Word.tokenize_spaces {inside : List UInt8} (h : Word text inside)
    (word rest : List UInt8) :
    tokenize .spaces arguments word (text ++ rest) = tokenize .literal arguments inside rest := by
  cases h with
  | one piece => exact piece.tokenize_spaces word rest
  | more piece others =>
    rw [List.append_assoc, piece.tokenize_spaces, others.tokenize_literal]

/-- The tokenizer gives the words of a value after the arguments there are. -/
theorem Words.tokenize (h : Words text words) (arguments : Option (List Name))
    (word : List UInt8) :
    tokenize .spaces arguments word text = appendWords arguments words := by
  induction h generalizing arguments word with
  | nil => rw [Cyberd.tokenize, appendWords, if_pos rfl]
  | blank _ ih => rw [Cyberd.tokenize, if_pos rfl, ih]
  | @last text inside first =>
    have hread : Cyberd.tokenize .spaces arguments word (text ++ []) =
      Cyberd.tokenize .literal arguments inside [] := first.tokenize_spaces word []
    rw [List.append_nil] at hread
    rw [hread, Cyberd.tokenize, appendWords_cons, appendWords, if_pos rfl]
  | more first _ ih =>
    have hdouble : byteBlank ≠ byteDoubleQuote := by decide
    have hsingle : byteBlank ≠ byteSingleQuote := by decide
    rw [first.tokenize_spaces, Cyberd.tokenize, if_neg hdouble, if_neg hsingle, if_pos rfl, ih,
      appendWords_cons]

/-- A text that ends outside of quotes is read to a blank or into a word. -/
theorem Outside.tokenize (h : Outside text) (arguments : Option (List Name)) :
    ∃ state arguments' word, (state = .spaces ∨ state = .literal) ∧
      ∀ rest, tokenize .spaces arguments [] (text ++ rest) =
        tokenize state arguments' word rest := by
  induction h with
  | nil => exact ⟨.spaces, arguments, [], Or.inl rfl, fun _ => rfl⟩
  | blank _ ih =>
    obtain ⟨state, arguments', word, rfl | rfl, hread⟩ := ih
    · refine ⟨.spaces, arguments', word, Or.inl rfl, fun rest => ?_⟩
      rw [List.append_assoc, hread, List.singleton_append, Cyberd.tokenize, if_pos rfl]
    · have hdouble : byteBlank ≠ byteDoubleQuote := by decide
      have hsingle : byteBlank ≠ byteSingleQuote := by decide
      refine ⟨.spaces, daemonConfListAppend arguments' word, [], Or.inl rfl, fun rest => ?_⟩
      rw [List.append_assoc, hread, List.singleton_append, Cyberd.tokenize, if_neg hdouble,
        if_neg hsingle, if_pos rfl]
  | @piece _ _ inside _ last ih =>
    obtain ⟨state, arguments', word, rfl | rfl, hread⟩ := ih
    · refine ⟨.literal, arguments', inside, Or.inr rfl, fun rest => ?_⟩
      rw [List.append_assoc, hread, last.tokenize_spaces]
    · refine ⟨.literal, arguments', word ++ inside, Or.inr rfl, fun rest => ?_⟩
      rw [List.append_assoc, hread, last.tokenize_literal]

/-- The tokenizer fails behind a quote that is not closed. -/
theorem Unclosed.tokenize (h : Unclosed text) {state : ExpandState}
    (hs : state = .spaces ∨ state = .literal) (arguments : Option (List Name))
    (word : List UInt8) : tokenize state arguments word text = none := by
  have hquote : byteSingleQuote ≠ byteDoubleQuote := by decide
  have hblank : byteSingleQuote ≠ byteBlank := by decide
  have hdouble : byteDoubleQuote ≠ byteBlank := by decide
  have hescape : byteBackslash ≠ byteDoubleQuote := by decide
  have hsingle : ∀ {rest}, byteSingleQuote ∉ rest → ∀ word,
      Cyberd.tokenize .quoteSingle arguments word rest = none := by
    intro rest hrest word
    have hread : Cyberd.tokenize .quoteSingle arguments word (rest ++ []) =
      Cyberd.tokenize .quoteSingle arguments (word ++ rest) [] := tokenize_single hrest word []
    rw [List.append_nil] at hread
    rw [hread, Cyberd.tokenize]
    all_goals simp
  have hopen : ∀ {rest inside}, Escaped rest inside → ∀ word,
      Cyberd.tokenize .quoteDouble arguments word rest = none := by
    intro rest inside hinside word
    have hread : Cyberd.tokenize .quoteDouble arguments word (rest ++ []) =
      Cyberd.tokenize .quoteDouble arguments (word ++ inside) [] := tokenize_double hinside word []
    rw [List.append_nil] at hread
    rw [hread, Cyberd.tokenize]
    all_goals simp
  have hbackslash : ∀ {rest inside}, Escaped rest inside → ∀ word,
      Cyberd.tokenize .quoteDouble arguments word (rest ++ [byteBackslash]) = none := by
    intro rest inside hinside word
    rw [tokenize_double hinside, Cyberd.tokenize, if_neg hescape, if_pos rfl, Cyberd.tokenize]
    all_goals simp
  rcases hs with rfl | rfl <;> cases h
  · rw [Cyberd.tokenize, if_neg hblank, if_neg hquote, if_pos rfl]
    exact hsingle ‹_› _
  · rw [Cyberd.tokenize, if_neg hdouble, if_pos rfl]
    exact hopen ‹_› _
  · rw [Cyberd.tokenize, if_neg hdouble, if_pos rfl]
    exact hbackslash ‹_› _
  · rw [Cyberd.tokenize, if_neg hquote, if_pos rfl]
    exact hsingle ‹_› _
  · rw [Cyberd.tokenize, if_pos rfl]
    exact hopen ‹_› _
  · rw [Cyberd.tokenize, if_pos rfl]
    exact hbackslash ‹_› _

/-- A part of a word goes on the last word of a text, or begins another one. -/
theorem Words.append_piece (h : Words text words) {inside : List UInt8} (hp : Piece part inside) :
    ∃ words', Words (text ++ part) words' := by
  have hword : ∀ {text word}, Word text word → ∃ word', Word (text ++ part) word' := by
    intro text word h
    induction h with
    | one piece => exact ⟨_, .more piece (.one hp)⟩
    | more piece _ ih =>
      obtain ⟨word', hmore⟩ := ih
      rw [List.append_assoc]
      exact ⟨_, .more piece hmore⟩
  induction h with
  | nil => exact ⟨_, .last (.one hp)⟩
  | blank _ ih =>
    obtain ⟨words', hrest⟩ := ih
    exact ⟨_, .blank hrest⟩
  | last first =>
    obtain ⟨word', hfirst⟩ := hword first
    exact ⟨_, .last hfirst⟩
  | more first _ ih =>
    obtain ⟨words', hrest⟩ := ih
    rw [List.append_assoc]
    exact ⟨_, .more first hrest⟩

/-- A blank ends the last word of a text. -/
theorem Words.append_blank (h : Words text words) : Words (text ++ [byteBlank]) words := by
  induction h with
  | nil => exact .blank .nil
  | blank _ ih => exact .blank ih
  | last first => exact .more first .nil
  | more first _ ih =>
    rw [List.append_assoc]
    exact .more first ih

/-- A text that ends outside of quotes is made of words. -/
theorem Outside.exists_words (h : Outside text) : ∃ words, Words text words := by
  induction h with
  | nil => exact ⟨[], .nil⟩
  | blank _ ih =>
    obtain ⟨words, hwords⟩ := ih
    exact ⟨words, hwords.append_blank⟩
  | piece _ last ih =>
    obtain ⟨words, hwords⟩ := ih
    exact hwords.append_piece last

/-- The next byte ends a quote, or leaves it open. -/
theorem Unclosed.next {front : List UInt8} (hfront : Outside front) (h : Unclosed rest)
    (byte : UInt8) : Outside (front ++ rest ++ [byte]) ∨ Unclosed (rest ++ [byte]) := by
  rw [List.append_assoc]
  cases h with
  | @single text quote =>
    by_cases hbyte : byte = byteSingleQuote
    · subst hbyte
      exact Or.inl (.piece hfront (.single quote))
    · have hmore : byteSingleQuote ∉ text ++ [byte] := by simp [quote, Ne.symm hbyte]
      exact Or.inr (.single hmore)
  | @double text word inside =>
    by_cases hbyte : byte = byteDoubleQuote
    · subst hbyte
      exact Or.inl (.piece hfront (.double inside))
    · by_cases hescape : byte = byteBackslash
      · subst hescape
        exact Or.inr (.escape inside)
      · exact Or.inr (.double (inside.append (.plain hbyte hescape .nil)))
  | escape inside =>
    have hescaped : Escaped [byteBackslash, byte] [byte] := .escape .nil
    rw [List.cons_append, List.append_assoc]
    exact Or.inr (.double (inside.append hescaped))

/-- A value ends outside of quotes, or leaves one open. -/
theorem outside_or_open (value : Name) : Outside value ∨ LeavesQuoteOpen value := by
  induction value using List.reverseRecOn with
  | nil => exact Or.inl .nil
  | append_singleton text byte ih =>
    rcases ih with houtside | ⟨front, rest, rfl, hfront, hrest⟩
    · by_cases hsingle : byte = byteSingleQuote
      · exact Or.inr ⟨text, [byte], rfl, houtside, hsingle ▸ .single List.not_mem_nil⟩
      · by_cases hdouble : byte = byteDoubleQuote
        · exact Or.inr ⟨text, [byte], rfl, houtside, hdouble ▸ .double .nil⟩
        · by_cases hblank : byte = byteBlank
          · exact Or.inl (hblank ▸ .blank houtside)
          · exact Or.inl (.piece houtside (.literal hblank hdouble hsingle))
    · rcases hrest.next hfront byte with houtside | hopen
      · exact Or.inl houtside
      · exact Or.inr ⟨front, rest ++ [byte], by rw [List.append_assoc], hfront, hopen⟩

/-- The tokenizer fails on a value that leaves a quote open. -/
theorem LeavesQuoteOpen.tokenize (h : LeavesQuoteOpen value) :
    tokenize .spaces none [] value = none := by
  obtain ⟨front, rest, rfl, hfront, hrest⟩ := h
  obtain ⟨state, arguments', word, hs, hread⟩ := hfront.tokenize none
  rw [hread, hrest.tokenize hs]

/-- The tokenizer succeeds exactly on the values that are made of words, of which there
is one, and gives these words. -/
theorem tokenize_iff :
    tokenize .spaces none [] value = some words ↔ Words value words ∧ words ≠ [] := by
  constructor
  · intro h
    rcases outside_or_open value with houtside | hopen
    · obtain ⟨words', hwords⟩ := houtside.exists_words
      rw [hwords.tokenize, appendWords] at h
      split at h
      · cases h
      · rename_i hne
        rw [Option.getD_none, List.nil_append] at h
        obtain rfl := Option.some.inj h
        exact ⟨hwords, hne⟩
    · rw [hopen.tokenize] at h
      cases h
  · rintro ⟨hwords, hne⟩
    rw [hwords.tokenize, appendWords, if_neg hne]
    rfl

/-- A value is made of words in one way. -/
theorem Words.unique (h : Words text words) (h' : Words text words') : words = words' := by
  have hsame := (h.tokenize none []).symm.trans (h'.tokenize none [])
  simp only [appendWords, Option.getD_none, List.nil_append] at hsame
  split at hsame
  · rename_i hnil
    split at hsame
    · rename_i hnil'
      rw [hnil, hnil']
    · cases hsame
  · split at hsame
    · cases hsame
    · exact Option.some.inj hsame

/-- A value leaves a quote open exactly when it is not made of words. -/
theorem leavesQuoteOpen_iff : LeavesQuoteOpen value ↔ ∀ words, ¬ Words value words := by
  constructor
  · intro hopen words hwords
    -- with one more word in front, the tokenizer would succeed
    obtain ⟨front, rest, rfl, hfront, hrest⟩ := hopen
    obtain ⟨state, arguments', word, hs, hread⟩ := hfront.tokenize (some [])
    have hsome := hwords.tokenize (some []) []
    rw [hread, hrest.tokenize hs, appendWords] at hsome
    split at hsome <;> cases hsome
  · intro hnone
    rcases outside_or_open value with houtside | hopen
    · obtain ⟨words, hwords⟩ := houtside.exists_words
      exact absurd hwords (hnone words)
    · exact hopen

/-- There is a word exactly when there is a byte that is not a blank. -/
theorem Words.ne_nil_iff (h : Words text words) :
    words ≠ [] ↔ ∃ byte ∈ text, byte ≠ byteBlank := by
  have hpiece : ∀ {part inside}, Piece part inside → ∃ byte ∈ part, byte ≠ byteBlank := by
    intro part inside hp
    cases hp with
    | literal blank => exact ⟨_, List.mem_singleton_self _, blank⟩
    | single => exact ⟨_, List.mem_cons_self .., by decide⟩
    | double => exact ⟨_, List.mem_cons_self .., by decide⟩
  have hword : ∀ {text word}, Word text word → ∃ byte ∈ text, byte ≠ byteBlank := by
    intro text word hw
    cases hw with
    | one piece => exact hpiece piece
    | more piece =>
      obtain ⟨byte, hmem, hne⟩ := hpiece piece
      exact ⟨byte, List.mem_append_left _ hmem, hne⟩
  induction h with
  | nil => simp
  | blank _ ih =>
    refine ih.trans ?_
    simp
  | last first => exact iff_of_true (List.cons_ne_nil _ _) (hword first)
  | more first =>
    obtain ⟨byte, hmem, hne⟩ := hword first
    exact iff_of_true (List.cons_ne_nil _ _) ⟨byte, List.mem_append_left _ hmem, hne⟩

end Cyberd
