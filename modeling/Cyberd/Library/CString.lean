import Mathlib.Tactic.Common
import Mathlib.Data.List.DropRight
import Mathlib.Data.Nat.Digits.Lemmas
import Cyberd.Library.Comparator

/-!
# Strings and numerals of the C library

A string is the list of its bytes before the terminating one. The character
classes are those of the C locale. A numeral is read by its digits, and the
readers saturate and wrap like the 64-bit ones.
-/

namespace Cyberd.Library

/-- A C string without its terminating byte. -/
abbrev Name := List UInt8

/-- The string stored in a buffer, up to its first null byte. -/
def cString (buf : List UInt8) : Name := buf.takeWhile (· != 0)

/-- The bytes of an ASCII text. -/
def ascii (text : String) : List UInt8 := text.toList.map fun c => UInt8.ofNat c.toNat

/-- `isspace(3)` -/
def isSpace (byte : UInt8) : Bool := byte == 32 || (9 ≤ byte && byte ≤ 13)

/-- `tolower(3)` -/
def toLower (byte : UInt8) : UInt8 := if 65 ≤ byte ∧ byte ≤ 90 then byte + 32 else byte

/-- `strcasecmp(3)` finds no difference. -/
def strCaseEq (lhs rhs : List UInt8) : Bool := lhs.map toLower == rhs.map toLower

/-- `strncasecmp(3)` finds no difference. -/
def strnCaseEq (lhs rhs : List UInt8) (n : Nat) : Bool := strCaseEq (lhs.take n) (rhs.take n)

/-- `strcmp(3)`, which compares the bytes as unsigned. -/
def strcmp : Name → Name → Int
  | [], [] => 0
  | [], _ :: _ => -1
  | _ :: _, [] => 1
  | b :: lhs, b' :: rhs => if b = b' then strcmp lhs rhs else b.toNat - b'.toNat

/-- The value of a digit. -/
def digitOf (base : Nat) (byte : UInt8) : Option Nat :=
  if 48 ≤ byte.toNat ∧ byte.toNat < 48 + base then some (byte.toNat - 48) else none

/-- `isdigit(3)` -/
def isDigit (byte : UInt8) : Bool := (digitOf 10 byte).isSome

/-- The digits at the beginning of a string and what follows them. -/
def scanDigits (base : Nat) : Nat → List UInt8 → Nat × List UInt8
  | value, [] => (value, [])
  | value, byte :: rest =>
    match digitOf base byte with
    | some digit => scanDigits base (value * base + digit) rest
    | none => (value, byte :: rest)

/-- The optional sign at the beginning of a string: whether it is negative. -/
def scanSign : List UInt8 → Bool × List UInt8
  | 45 :: rest => (true, rest)
  | 43 :: rest => (false, rest)
  | text => (false, text)

/-- The sign, the magnitude and the end of the numeral at the beginning of a string.
There is none without a digit. -/
def scanNumeral (base : Nat) (text : List UInt8) : Option (Bool × Nat × List UInt8) :=
  let (negative, digits) := scanSign (text.dropWhile isSpace)
  match digits with
  | [] => none
  | byte :: _ =>
    if (digitOf base byte).isSome then some (negative, scanDigits base 0 digits) else none

/-- `strtoul(3)` with its end pointer, for a base up to ten. -/
def strtoul (base : Nat) (text : List UInt8) : Nat × List UInt8 :=
  match scanNumeral base text with
  | none => (0, text)
  | some (negative, value, rest) =>
    if 2 ^ 64 ≤ value then (2 ^ 64 - 1, rest)
    else if negative then ((2 ^ 64 - value) % 2 ^ 64, rest)
    else (value, rest)

/-- `strtol(3)` with its end pointer, for a base up to ten. -/
def strtol (base : Nat) (text : List UInt8) : Int × List UInt8 :=
  match scanNumeral base text with
  | none => (0, text)
  | some (true, value, rest) => (if 2 ^ 63 < value then -2 ^ 63 else -value, rest)
  | some (false, value, rest) => (if 2 ^ 63 ≤ value then 2 ^ 63 - 1 else value, rest)

/-- The byte of a digit. -/
def digitByte (digit : Nat) : UInt8 := UInt8.ofNat (48 + digit)

/-- The digits of a number, without leading zeros. -/
def numeral (base n : Nat) : List UInt8 :=
  if n = 0 then [digitByte 0] else (Nat.digits base n).reverse.map digitByte

/-- The digits of an integer after its sign. -/
def intNumeral (base : Nat) (n : Int) : List UInt8 :=
  if n < 0 then 45 :: numeral base n.natAbs else numeral base n.natAbs

/-- White space on both sides of a string. -/
def trim (text : List UInt8) : List UInt8 := (text.dropWhile isSpace).rdropWhile isSpace

/-- White space only. -/
def Blank (text : List UInt8) : Prop := ∀ byte ∈ text, isSpace byte = true

instance (text : List UInt8) : Decidable (Blank text) :=
  List.decidableBAll _ _

/-- No white space on either side. -/
structure Trimmed (text : List UInt8) : Prop where
  /-- The first byte is not white space. -/
  head : ∀ byte rest, text = byte :: rest → isSpace byte = false
  /-- The last byte is not white space. -/
  last : ∀ rest byte, text = rest ++ [byte] → isSpace byte = false

/-- The first different bytes decide of the order. -/
theorem strcmp_cons (b b' : UInt8) (lhs rhs : Name) :
    strcmp (b :: lhs) (b' :: rhs) = if b = b' then strcmp lhs rhs else b.toNat - b'.toNat := rfl

/-- Different bytes are at different places in the order. -/
private theorem toNat_ne {b b' : UInt8} (h : b ≠ b') : b.toNat ≠ b'.toNat :=
  fun heq => h (UInt8.toNat_inj.mp heq)

instance : ExactCompare strcmp where
  lt_iff_gt lhs rhs := by
    induction lhs generalizing rhs with
    | nil => cases rhs <;> simp [strcmp]
    | cons b lhs ih =>
      cases rhs with
      | nil => simp [strcmp]
      | cons b' rhs =>
        rw [strcmp_cons, strcmp_cons]
        by_cases hb : b = b'
        · rw [if_pos hb, if_pos hb.symm]
          exact ih rhs
        · rw [if_neg hb, if_neg (Ne.symm hb)]
          omega
  le_trans lhs middle rhs := by
    induction lhs generalizing middle rhs with
    | nil => cases rhs <;> simp [strcmp]
    | cons b lhs ih =>
      intro h h'
      cases middle with
      | nil => simp [strcmp] at h
      | cons b' middle =>
        cases rhs with
        | nil => simp [strcmp] at h'
        | cons b'' rhs =>
          rw [strcmp_cons] at *
          by_cases hb : b = b'
          · by_cases hb' : b' = b''
            · rw [if_pos hb] at h
              rw [if_pos hb'] at h'
              rw [if_pos (hb.trans hb')]
              exact ih middle rhs h h'
            · rw [if_neg hb'] at h'
              rw [if_neg (hb ▸ hb'), hb]
              exact h'
          · rw [if_neg hb] at h
            have hne := toNat_ne hb
            by_cases hb' : b' = b''
            · rw [if_neg (hb' ▸ hb), ← hb']
              exact h
            · rw [if_neg hb'] at h'
              have hne' := toNat_ne hb'
              rw [if_neg]
              · omega
              · rintro rfl
                omega
  eq_zero lhs rhs := by
    induction lhs generalizing rhs with
    | nil => cases rhs <;> simp [strcmp]
    | cons b lhs ih =>
      cases rhs with
      | nil => simp [strcmp]
      | cons b' rhs =>
        rw [strcmp_cons]
        by_cases hb : b = b'
        · rw [if_pos hb, ih, List.cons.injEq, and_iff_right hb]
        · have hne := toNat_ne hb
          rw [if_neg hb, List.cons.injEq]
          constructor
          · intro h
            omega
          · rintro ⟨rfl, -⟩
            exact absurd rfl hb

/-- A stored string ends at its terminating byte. -/
theorem cString_append {text : Name} (h : (0 : UInt8) ∉ text) (back : List UInt8) :
    cString (text ++ 0 :: back) = text := by
  rw [cString, List.takeWhile_append_of_pos]
  · simp
  · intro byte hbyte
    simpa using fun h0 : byte = 0 => h (h0 ▸ hbyte)

/-- The first byte after a prefix is replaced. -/
theorem set_append_cons (front back : List UInt8) (old new : UInt8) :
    (front ++ old :: back).set front.length new = front ++ new :: back := by
  rw [List.set_append_right _ _ (Nat.le_refl _), Nat.sub_self, List.set_cons_zero]

/-- White space in front of a string is dropped from it. -/
theorem dropWhile_blank {lead rest : List UInt8} (h : Blank lead)
    (hrest : ∀ byte tail, rest = byte :: tail → isSpace byte = false) :
    (lead ++ rest).dropWhile isSpace = rest := by
  rw [List.dropWhile_append_of_pos h]
  cases rest with
  | nil => rfl
  | cons byte tail => exact List.dropWhile_cons_of_neg (by simp [hrest byte tail rfl])

/-- White space after a string is dropped from it. -/
theorem rdropWhile_blank {text trail : List UInt8} (h : Blank trail)
    (hlast : ∀ rest byte, text = rest ++ [byte] → isSpace byte = false) :
    (text ++ trail).rdropWhile isSpace = text := by
  rw [List.rdropWhile, List.reverse_append, dropWhile_blank, List.reverse_reverse]
  · exact fun byte hbyte => h byte (List.mem_reverse.mp hbyte)
  · intro byte tail heq
    exact hlast tail.reverse byte (by rw [← List.reverse_reverse text, heq, List.reverse_cons])

/-- A trimmed string is what remains when white space around it is trimmed. -/
theorem trim_eq {lead text trail : List UInt8} (hlead : Blank lead) (htrail : Blank trail)
    (h : Trimmed text) (hnil : text = [] → trail = []) : trim (lead ++ text ++ trail) = text := by
  rw [trim, List.append_assoc, dropWhile_blank hlead, rdropWhile_blank htrail h.last]
  intro byte tail heq
  cases text with
  | nil => simp [hnil rfl] at heq
  | cons b text =>
    cases heq
    exact h.head byte text rfl

/-- A trimmed string stays as it is. -/
theorem Trimmed.trim {text : List UInt8} (h : Trimmed text) : trim text = text := by
  have hnone : Blank [] := by decide
  have heq := trim_eq hnone hnone h fun _ => rfl
  rwa [List.nil_append, List.append_nil] at heq

/-- A text trimmed at its beginning and one trimmed at its end. -/
theorem Trimmed.append {left right : List UInt8} (hl : Trimmed left) (hln : left ≠ [])
    (hr : ∀ rest byte, right = rest ++ [byte] → isSpace byte = false) (hrn : right ≠ []) :
    Trimmed (left ++ right) := by
  refine ⟨fun byte rest h => ?_, fun rest byte h => ?_⟩
  · cases left with
    | nil => exact absurd rfl hln
    | cons b left =>
      cases h
      exact hl.head _ left rfl
  · rcases List.eq_nil_or_concat' right with rfl | ⟨front, last, rfl⟩
    · exact absurd rfl hrn
    · rw [← List.append_assoc] at h
      obtain ⟨-, hlast⟩ := List.append_inj' h rfl
      cases hlast
      exact hr front _ rfl

/-- The end of a trimmed string has white space in front of it only. -/
theorem trim_end {front text : List UInt8} (h : Trimmed (front ++ text)) :
    trim text = text.dropWhile isSpace := by
  have hlast : ∀ rest byte, text.dropWhile isSpace = rest ++ [byte] → isSpace byte = false := by
    intro rest byte heq
    have hsplit := List.takeWhile_append_dropWhile (p := isSpace) (l := text)
    rw [heq] at hsplit
    refine h.last (front ++ (text.takeWhile isSpace ++ rest)) byte ?_
    conv_lhs => rw [← hsplit]
    simp
  have hnone : Blank [] := by decide
  have hblank := rdropWhile_blank hnone hlast
  rw [List.append_nil] at hblank
  exact hblank

/-- A string is made of white space, its trimmed string and white space. -/
theorem trim_shape (text : List UInt8) : ∃ lead trail, text = lead ++ trim text ++ trail ∧
    Blank lead ∧ Blank trail ∧ Trimmed (trim text) ∧ (trim text = [] → trail = []) := by
  have hlead := List.takeWhile_append_dropWhile (p := isSpace) (l := text)
  have htrail := @List.rdropWhile_append_rtakeWhile _ isSpace (text.dropWhile isSpace)
  have hhead : ∀ byte rest, text.dropWhile isSpace = byte :: rest → isSpace byte = false := by
    intro byte rest heq
    have := List.head?_dropWhile_not isSpace text
    rw [heq] at this
    simpa using this
  refine ⟨text.takeWhile isSpace, (text.dropWhile isSpace).rtakeWhile isSpace, ?_, ?_, ?_, ?_, ?_⟩
  · rw [trim, List.append_assoc, htrail, hlead]
  · exact fun byte hbyte => List.mem_takeWhile_imp hbyte
  · exact fun byte hbyte => List.mem_rtakeWhile_imp hbyte
  · constructor
    · intro byte rest heq
      rw [← htrail, show (text.dropWhile isSpace).rdropWhile isSpace = byte :: rest from heq]
        at hhead
      exact hhead byte _ rfl
    · intro rest byte heq
      have hne : (text.dropWhile isSpace).rdropWhile isSpace ≠ [] := by
        rw [show (text.dropWhile isSpace).rdropWhile isSpace = rest ++ [byte] from heq]
        simp
      have hlast := List.rdropWhile_last_not isSpace (text.dropWhile isSpace) hne
      simpa [show (text.dropWhile isSpace).rdropWhile isSpace = rest ++ [byte] from heq] using hlast
  · intro hnil
    have hall := List.rdropWhile_eq_nil_iff.mp hnil
    cases hbody : text.dropWhile isSpace with
    | nil => rfl
    | cons byte rest =>
      have := hhead byte rest hbody
      rw [hall byte (hbody ▸ List.mem_cons_self ..)] at this
      cases this

/-- A string that does not begin with white space is its trimmed string and white space. -/
theorem trim_shape_cons {byte : UInt8} {rest : List UInt8} (h : isSpace byte = false) :
    ∃ trail, byte :: rest = trim (byte :: rest) ++ trail ∧ Blank trail ∧
      Trimmed (trim (byte :: rest)) ∧ trim (byte :: rest) ≠ [] := by
  obtain ⟨lead, trail, hshape, hlead, htrail, htrim, hnil⟩ := trim_shape (byte :: rest)
  have hnolead : lead = [] := by
    cases lead with
    | nil => rfl
    | cons b lead =>
      injection hshape with hb
      rw [hb, hlead b (List.mem_cons_self ..)] at h
      cases h
  rw [hnolead, List.nil_append] at hshape
  refine ⟨trail, hshape, htrail, htrim, fun hempty => ?_⟩
  rw [hempty, hnil hempty] at hshape
  cases hshape

variable {base : Nat}

/-- A digit is read back. -/
theorem digitOf_digitByte {digit : Nat} (hb : base ≤ 10) (h : digit < base) :
    digitOf base (digitByte digit) = some digit := by
  have hn : (digitByte digit).toNat = 48 + digit := by
    rw [digitByte, UInt8.toNat_ofNat', Nat.mod_eq_of_lt (by omega)]
  rw [digitOf, hn, if_pos (by omega), Nat.add_sub_cancel_left]

/-- Digits are read by their positions, up to the end of the string. -/
theorem scanDigits_digits (hb : base ≤ 10) {digits : List Nat} (h : ∀ d ∈ digits, d < base)
    (value : Nat) :
    scanDigits base value (digits.map digitByte) =
      (digits.foldl (fun v d => v * base + d) value, []) := by
  induction digits generalizing value with
  | nil => rfl
  | cons d digits ih =>
    rw [List.map_cons, scanDigits, digitOf_digitByte hb (h d (List.mem_cons_self ..))]
    exact ih (fun e he => h e (List.mem_cons_of_mem _ he)) _

/-- The positions of the digits of a number give it back. -/
theorem foldl_digits (base n : Nat) :
    (Nat.digits base n).reverse.foldl (fun v d => v * base + d) 0 = n := by
  rw [List.foldl_reverse]
  calc
    (Nat.digits base n).foldr (fun d v => v * base + d) 0 =
        (Nat.digits base n).foldr (fun d v => d + base * v) 0 := by
      congr 1
      funext d v
      rw [Nat.mul_comm, Nat.add_comm]
    _ = Nat.ofDigits base (Nat.digits base n) := (Nat.ofDigits_eq_foldr _ _).symm
    _ = n := Nat.ofDigits_digits base n

/-- A numeral is a non-empty list of digits that are read back as its number. -/
theorem numeral_digits (hb : base ≤ 10) (hpos : 1 < base) (n : Nat) :
    ∃ d digits, numeral base n = digitByte d :: digits.map digitByte ∧ d < base ∧
      (∀ e ∈ digits, e < base) ∧ (d :: digits).foldl (fun v e => v * base + e) 0 = n := by
  unfold numeral
  split
  · rename_i hn
    exact ⟨0, [], rfl, by omega, by simp, by simp [hn]⟩
  · rename_i hn
    have hlt : ∀ e ∈ (Nat.digits base n).reverse, e < base := by
      intro e he
      exact Nat.digits_lt_base hpos (List.mem_reverse.mp he)
    have hfold := foldl_digits base n
    cases hd : (Nat.digits base n).reverse with
    | nil =>
      rw [List.reverse_eq_nil_iff, Nat.digits_eq_nil_iff_eq_zero] at hd
      exact absurd hd hn
    | cons d digits =>
      rw [hd] at hlt hfold
      exact ⟨d, digits, rfl, hlt d (List.mem_cons_self ..),
        fun e he => hlt e (List.mem_cons_of_mem _ he), hfold⟩

/-- A digit is neither white space nor a sign. -/
theorem digitByte_bounds {digit : Nat} (h : digit < 10) :
    isSpace (digitByte digit) = false ∧ digitByte digit ≠ 45 ∧ digitByte digit ≠ 43 ∧
      isDigit (digitByte digit) = true := by
  interval_cases digit <;> decide

/-- A numeral is read back, with or without a minus sign in front of it. -/
theorem scanNumeral_numeral (hb : base ≤ 10) (hpos : 1 < base) (n : Nat) :
    scanNumeral base (numeral base n) = some (false, n, []) ∧
      scanNumeral base (45 :: numeral base n) = some (true, n, []) := by
  obtain ⟨d, digits, hnum, hd, hdigits, hfold⟩ := numeral_digits hb hpos n
  obtain ⟨hspace, hminus, hplus, -⟩ := @digitByte_bounds d (by omega)
  have hscan : scanDigits base 0 (digitByte d :: digits.map digitByte) = (n, []) := by
    have := @scanDigits_digits base hb (d :: digits) (by simpa using ⟨hd, hdigits⟩) 0
    rw [hfold] at this
    exact this
  have hsign : scanSign (digitByte d :: digits.map digitByte) =
      (false, digitByte d :: digits.map digitByte) := by
    unfold scanSign
    split
    · rename_i heq
      exact absurd (List.cons.inj heq).1 hminus
    · rename_i heq
      exact absurd (List.cons.inj heq).1 hplus
    · rfl
  rw [hnum]
  constructor
  · rw [scanNumeral, List.dropWhile_cons_of_neg (by simp [hspace]), hsign]
    simp [digitOf_digitByte hb hd, hscan]
  · rw [scanNumeral, List.dropWhile_cons_of_neg (by decide), scanSign]
    simp [digitOf_digitByte hb hd, hscan]

/-- An unsigned numeral below the word size is read back as its number. -/
theorem strtoul_numeral (hb : base ≤ 10) (hpos : 1 < base) {n : Nat} (h : n < 2 ^ 64) :
    strtoul base (numeral base n) = (n, []) := by
  rw [strtoul, (scanNumeral_numeral hb hpos n).1]
  simp only [Bool.false_eq_true, if_false]
  rw [if_neg (by omega)]

/-- A signed numeral below the word size is read back as its number. -/
theorem strtol_intNumeral (hb : base ≤ 10) (hpos : 1 < base) {n : Int} (h : n.natAbs < 2 ^ 63) :
    strtol base (intNumeral base n) = (n, []) := by
  unfold intNumeral
  by_cases hneg : n < 0
  · rw [if_pos hneg, strtol, (scanNumeral_numeral hb hpos _).2]
    simp only
    rw [if_neg (by omega)]
    simp only [Prod.mk.injEq, and_true]
    omega
  · rw [if_neg hneg, strtol, (scanNumeral_numeral hb hpos _).1]
    simp only
    rw [if_neg (by omega)]
    simp only [Prod.mk.injEq, and_true]
    omega

/-- The first byte of a numeral is a digit. -/
theorem numeral_head (hb : base ≤ 10) (hpos : 1 < base) (n : Nat) :
    ∃ byte rest, numeral base n = byte :: rest ∧ isDigit byte = true := by
  obtain ⟨d, digits, hnum, hd, -⟩ := numeral_digits hb hpos n
  exact ⟨_, _, hnum, (digitByte_bounds (by omega)).2.2.2⟩

/-- Every byte of a numeral is a digit. -/
theorem numeral_isDigit (hb : base ≤ 10) (hpos : 1 < base) (n : Nat) :
    ∀ byte ∈ numeral base n, isDigit byte = true := by
  obtain ⟨d, digits, hnum, hd, hdigits, -⟩ := numeral_digits hb hpos n
  rw [hnum, ← List.map_cons]
  intro byte hbyte
  obtain ⟨e, he, rfl⟩ := List.mem_map.mp hbyte
  have hlt : e < base := by
    rcases List.mem_cons.mp he with rfl | he
    · exact hd
    · exact hdigits e he
  exact (digitByte_bounds (by omega)).2.2.2

end Cyberd.Library
