import Cyberd.Library.CString

/-!
# What the readers of numerals accept

A numeral is a non-empty list of digits, with the number they stand for by their
positions. The readers of the C library take more than that: white space and a
sign in front, no digit at all, and numbers beyond their words.
-/

namespace Cyberd.Library

/-- The number that digits stand for. -/
def digitsValue (base : Nat) (digits : List UInt8) : Nat :=
  digits.foldl (fun value byte => value * base + (byte.toNat - 48)) 0

/-- A numeral without sign. -/
structure Numeral (base : Nat) (text : List UInt8) (n : Nat) : Prop where
  /-- There is a digit. -/
  nonempty : text ≠ []
  /-- There is nothing else. -/
  digits : ∀ byte ∈ text, (digitOf base byte).isSome = true
  /-- The number is that of the digits. -/
  value : digitsValue base text = n

/-- A numeral with an optional sign. -/
inductive SignedNumeral (base : Nat) : List UInt8 → Int → Prop
  | plain {digits : List UInt8} {n : Nat} (h : Numeral base digits n) :
      SignedNumeral base digits n
  | plus {digits : List UInt8} {n : Nat} (h : Numeral base digits n) :
      SignedNumeral base (43 :: digits) n
  | minus {digits : List UInt8} {n : Nat} (h : Numeral base digits n) :
      SignedNumeral base (45 :: digits) (-n)

/-- What `strtol(3)` makes of a number: the closest one in its range. -/
def strtolValue (z : Int) : Int := max (-2 ^ 63) (min z (2 ^ 63 - 1))

/-- What `strtoul(3)` makes of a number: a negative one wraps around, and one whose
magnitude has no room is the greatest. -/
def strtoulValue (z : Int) : Nat := if 2 ^ 64 ≤ z.natAbs then 2 ^ 64 - 1 else (z % 2 ^ 64).toNat

variable {base : Nat} {text : List UInt8}

/-- A digit is read as its value. -/
theorem digitOf_some {byte : UInt8} (h : (digitOf base byte).isSome = true) :
    digitOf base byte = some (byte.toNat - 48) ∧ byte ≠ 43 ∧ byte ≠ 45 ∧ isSpace byte = false := by
  unfold digitOf at h ⊢
  split at h
  · rename_i hbyte
    rw [if_pos hbyte]
    refine ⟨rfl, ?_, ?_, ?_⟩
    · rintro rfl
      exact absurd hbyte.1 (by decide)
    · rintro rfl
      exact absurd hbyte.1 (by decide)
    · rw [isSpace, Bool.or_eq_false_iff, Bool.and_eq_false_iff]
      refine ⟨beq_eq_false_iff_ne.mpr ?_, Or.inr (decide_eq_false ?_)⟩
      · rintro rfl
        exact absurd hbyte.1 (by decide)
      · rw [UInt8.le_iff_toNat_le]
        exact fun hle => absurd (hbyte.1.trans hle) (by decide)
  · cases h

/-- All digits are read, with their value after the one already read. -/
theorem scanDigits_all (h : ∀ byte ∈ text, (digitOf base byte).isSome = true) (value : Nat) :
    scanDigits base value text =
      (text.foldl (fun value byte => value * base + (byte.toNat - 48)) value, []) := by
  induction text generalizing value with
  | nil => rfl
  | cons byte text ih =>
    rw [scanDigits, (digitOf_some (h byte (List.mem_cons_self ..))).1]
    exact ih (fun b hb => h b (List.mem_cons_of_mem _ hb)) _

/-- Nothing is left when everything was a digit. -/
theorem scanDigits_end {value : Nat} (h : (scanDigits base value text).2 = []) :
    ∀ byte ∈ text, (digitOf base byte).isSome = true := by
  induction text generalizing value with
  | nil => simp
  | cons byte text ih =>
    rw [scanDigits] at h
    cases hdigit : digitOf base byte with
    | none => simp [hdigit] at h
    | some digit =>
      rw [hdigit] at h
      refine List.forall_mem_cons.mpr ⟨by rw [hdigit]; rfl, ih h⟩

/-- The digits of a numeral are read after any sign. -/
theorem Numeral.scan {n : Nat} (h : Numeral base text n) :
    ∃ byte rest, text = byte :: rest ∧ (digitOf base byte).isSome = true ∧
      scanDigits base 0 text = (n, []) := by
  cases text with
  | nil => exact absurd rfl h.nonempty
  | cons byte rest =>
    refine ⟨byte, rest, rfl, h.digits byte (List.mem_cons_self ..), ?_⟩
    rw [scanDigits_all h.digits, ← h.value, digitsValue]

/-- A string has one value as a numeral. -/
theorem Numeral.unique {n n' : Nat} (h : Numeral base text n) (h' : Numeral base text n') :
    n = n' := h.value.symm.trans h'.value

/-- A numeral does not begin with white space. -/
theorem SignedNumeral.dropWhile {z : Int} (h : SignedNumeral base text z) :
    text.dropWhile isSpace = text := by
  cases h with
  | plain h =>
    obtain ⟨byte, rest, rfl, hdigit, -⟩ := h.scan
    exact List.dropWhile_cons_of_neg (by simp [(digitOf_some hdigit).2.2.2])
  | plus h => exact List.dropWhile_cons_of_neg (by decide)
  | minus h => exact List.dropWhile_cons_of_neg (by decide)

/-- There is no sign in front of a digit. -/
theorem scanSign_digit {byte : UInt8} {rest : List UInt8}
    (h : (digitOf base byte).isSome = true) : scanSign (byte :: rest) = (false, byte :: rest) := by
  obtain ⟨-, hplus, hminus, -⟩ := digitOf_some h
  unfold scanSign
  split
  · rename_i heq
    exact absurd (List.cons.inj heq).1 hminus
  · rename_i heq
    exact absurd (List.cons.inj heq).1 hplus
  · rfl

/-- The digits behind white space and a sign are read to their end. -/
theorem scanNumeral_of_sign {negative : Bool} {digits : List UInt8} {n : Nat}
    (hsign : scanSign (text.dropWhile isSpace) = (negative, digits)) (h : Numeral base digits n) :
    scanNumeral base text = some (negative, n, []) := by
  obtain ⟨byte, rest, rfl, hdigit, hscan⟩ := h.scan
  rw [scanNumeral, hsign]
  simp only [if_pos hdigit, hscan]

/-- A numeral behind white space is read to its end. -/
theorem scanNumeral_signed {z : Int} (h : SignedNumeral base (text.dropWhile isSpace) z) :
    ∃ negative n, scanNumeral base text = some (negative, n, []) ∧
      z = if negative then -(n : Int) else n := by
  generalize hdrop : text.dropWhile isSpace = body at h
  cases h with
  | plain h =>
    obtain ⟨byte, rest, hbody, hdigit, -⟩ := h.scan
    refine ⟨false, _, scanNumeral_of_sign ?_ h, rfl⟩
    rw [hdrop, hbody, scanSign_digit hdigit]
  | plus h => exact ⟨false, _, scanNumeral_of_sign (by rw [hdrop]; rfl) h, rfl⟩
  | minus h => exact ⟨true, _, scanNumeral_of_sign (by rw [hdrop]; rfl) h, rfl⟩

/-- What is in front of the digits is no sign or one of both. -/
theorem scanSign_cases (body : List UInt8) :
    (∃ digits, body = 45 :: digits ∧ scanSign body = (true, digits)) ∨
    (∃ digits, body = 43 :: digits ∧ scanSign body = (false, digits)) ∨
    scanSign body = (false, body) := by
  unfold scanSign
  split
  · exact Or.inl ⟨_, rfl, rfl⟩
  · exact Or.inr (Or.inl ⟨_, rfl, rfl⟩)
  · exact Or.inr (Or.inr rfl)

/-- What is read to its end is a numeral behind white space. -/
theorem signedNumeral_of_scan {negative : Bool} {n : Nat}
    (h : scanNumeral base text = some (negative, n, [])) :
    SignedNumeral base (text.dropWhile isSpace) (if negative then -(n : Int) else n) := by
  have hread : ∀ {digits}, scanSign (text.dropWhile isSpace) = (negative, digits) →
      Numeral base digits n := by
    intro digits hsign
    rw [scanNumeral, hsign] at h
    cases digits with
    | nil => cases h
    | cons byte rest =>
      simp only [Option.ite_none_right_eq_some, Option.some.injEq, Prod.mk.injEq] at h
      obtain ⟨hdigit, -, hscan⟩ := h
      have hall := scanDigits_end (by rw [hscan])
      rw [scanDigits_all hall] at hscan
      exact ⟨by simp, hall, congrArg Prod.fst hscan⟩
  have hnegative : negative = (scanSign (text.dropWhile isSpace)).1 := by
    rw [scanNumeral] at h
    generalize scanSign (text.dropWhile isSpace) = signed at h
    obtain ⟨sign, digits⟩ := signed
    cases digits with
    | nil => cases h
    | cons byte rest =>
      simp only [Option.ite_none_right_eq_some, Option.some.injEq, Prod.mk.injEq] at h
      exact h.2.1.symm
  rcases scanSign_cases (text.dropWhile isSpace) with
    ⟨digits, hbody, hsign⟩ | ⟨digits, hbody, hsign⟩ | hsign
  · rw [hsign] at hnegative
    subst hnegative
    rw [hbody]
    exact .minus (hread hsign)
  · rw [hsign] at hnegative
    subst hnegative
    rw [hbody]
    exact .plus (hread hsign)
  · rw [hsign] at hnegative
    subst hnegative
    exact .plain (hread hsign)

/-- A plain numeral is a signed one, without white space to pass over. -/
theorem Numeral.signed {n : Nat} (h : Numeral base text n) :
    SignedNumeral base (text.dropWhile isSpace) n := by
  have hsigned : SignedNumeral base text n := .plain h
  rw [hsigned.dropWhile]
  exact hsigned

/-- A string has one value as a numeral with a sign. -/
theorem SignedNumeral.unique {z z' : Int} (h : SignedNumeral base text z)
    (h' : SignedNumeral base text z') : z = z' := by
  have hdrop := h.dropWhile
  rw [← hdrop] at h h'
  obtain ⟨negative, n, hscan, rfl⟩ := scanNumeral_signed h
  obtain ⟨negative', n', hscan', rfl⟩ := scanNumeral_signed h'
  rw [hscan] at hscan'
  cases hscan'
  rfl

/-- `strtol(3)` on a numeral behind white space. -/
theorem strtol_signed {z : Int} (h : SignedNumeral base (text.dropWhile isSpace) z) :
    strtol base text = (strtolValue z, []) := by
  obtain ⟨negative, n, hscan, rfl⟩ := scanNumeral_signed h
  rw [strtol, hscan, strtolValue]
  cases negative with
  | false =>
    simp only [Bool.false_eq_true, if_false, Prod.mk.injEq, and_true]
    split <;> omega
  | true =>
    simp only [if_true, Prod.mk.injEq, and_true]
    split <;> omega

/-- `strtoul(3)` on a numeral behind white space. -/
theorem strtoul_signed {z : Int} (h : SignedNumeral base (text.dropWhile isSpace) z) :
    strtoul base text = (strtoulValue z, []) := by
  obtain ⟨negative, n, hscan, rfl⟩ := scanNumeral_signed h
  rw [strtoul, hscan, strtoulValue]
  cases negative with
  | false =>
    simp only [Bool.false_eq_true, if_false, Int.natAbs_natCast]
    split
    · rfl
    · simp only [Prod.mk.injEq, and_true]
      omega
  | true =>
    simp only [if_true, Int.natAbs_neg, Int.natAbs_natCast]
    split
    · rfl
    · simp only [Prod.mk.injEq, and_true]
      omega

/-- What `strtol(3)` does with a string: nothing of an empty one is left, nor of a
numeral behind white space, and something of every other one. -/
theorem strtol_cases (base : Nat) (text : List UInt8) :
    (text = [] ∧ strtol base text = (0, [])) ∨
    (∃ z, SignedNumeral base (text.dropWhile isSpace) z ∧
      strtol base text = (strtolValue z, [])) ∨
    ((∀ z, ¬ SignedNumeral base (text.dropWhile isSpace) z) ∧ (strtol base text).2 ≠ []) := by
  by_cases hnumeral : ∃ z, SignedNumeral base (text.dropWhile isSpace) z
  · obtain ⟨z, hz⟩ := hnumeral
    exact Or.inr (Or.inl ⟨z, hz, strtol_signed hz⟩)
  · by_cases htext : text = []
    · exact Or.inl ⟨htext, by rw [htext]; rfl⟩
    · refine Or.inr (Or.inr ⟨not_exists.mp hnumeral, fun hend => ?_⟩)
      rw [strtol] at hend
      cases hscan : scanNumeral base text with
      | none =>
        rw [hscan] at hend
        exact htext hend
      | some result =>
        obtain ⟨negative, n, rest⟩ := result
        rw [hscan] at hend
        obtain rfl : rest = [] := by cases negative <;> exact hend
        exact hnumeral ⟨_, signedNumeral_of_scan hscan⟩

/-- What `strtoul(3)` does with a string, likewise. -/
theorem strtoul_cases (base : Nat) (text : List UInt8) :
    (text = [] ∧ strtoul base text = (0, [])) ∨
    (∃ z, SignedNumeral base (text.dropWhile isSpace) z ∧
      strtoul base text = (strtoulValue z, [])) ∨
    ((∀ z, ¬ SignedNumeral base (text.dropWhile isSpace) z) ∧ (strtoul base text).2 ≠ []) := by
  by_cases hnumeral : ∃ z, SignedNumeral base (text.dropWhile isSpace) z
  · obtain ⟨z, hz⟩ := hnumeral
    exact Or.inr (Or.inl ⟨z, hz, strtoul_signed hz⟩)
  · by_cases htext : text = []
    · exact Or.inl ⟨htext, by rw [htext]; rfl⟩
    · refine Or.inr (Or.inr ⟨not_exists.mp hnumeral, fun hend => ?_⟩)
      rw [strtoul] at hend
      cases hscan : scanNumeral base text with
      | none =>
        rw [hscan] at hend
        exact htext hend
      | some result =>
        obtain ⟨negative, n, rest⟩ := result
        rw [hscan] at hend
        obtain rfl : rest = [] := by
          simp only at hend
          split at hend
          · exact hend
          · split at hend <;> exact hend
        exact hnumeral ⟨_, signedNumeral_of_scan hscan⟩

/-- There is no numeral in an empty string. -/
theorem not_signedNumeral_nil {z : Int} : ¬ SignedNumeral base [] z := by
  intro h
  generalize hnil : ([] : List UInt8) = body at h
  cases h with
  | plain h => exact h.nonempty hnil.symm
  | plus h => cases hnil
  | minus h => cases hnil

/-- A number that has room is the value of its numeral, any other one the greatest. -/
theorem strtoulValue_natCast (n : Nat) : strtoulValue n = min n (2 ^ 64 - 1) := by
  rw [strtoulValue, Int.natAbs_natCast]
  split <;> omega

end Cyberd.Library
