import Cyberd.Library.CString

/-!
# Options of a command line

The words after the program name are options, arguments of options, and
operands. A library that permutes goes on behind the first operand; one that
does not leaves everything from there as operands.
-/

namespace Cyberd.Library

/-- Why `getopt(3)` did not answer with an option, with `optopt`. -/
inductive GetoptError
  /-- The answer `':'`: the option lacks its argument. -/
  | missing (option : UInt8)
  /-- The answer `'?'`: there is no such option. -/
  | unrecognized (option : UInt8)
  deriving DecidableEq, Repr

/-- What is read of a command line: the options with their arguments, empty for
those that take none, and the operands. -/
abbrev Getopt := List (UInt8 × Name) × List Name

/-- `'-'` -/
def byteDash : UInt8 := 45

/-- The word is an option, or the end of them. -/
def isOption : Name → Bool
  | dash :: _ :: _ => dash == byteDash
  | _ => false

/-- The letters of one word: the options among them, and the last one when its
argument is the next word. The options say whether they take an argument. -/
def getoptLetters (options : UInt8 → Option Bool) :
    Name → Except GetoptError (List (UInt8 × Name) × Option UInt8)
  | [] => .ok ([], none)
  | letter :: rest =>
    match options letter with
    | none => .error (.unrecognized letter)
    | some false => (getoptLetters options rest).map fun (found, last) =>
      ((letter, []) :: found, last)
    | some true => .ok (if rest = [] then ([], some letter) else ([(letter, rest)], none))

/-- `getopt(3)` called until it has no option left. -/
def getopt (options : UInt8 → Option Bool) (permutes : Bool) :
    List Name → Except GetoptError Getopt
  | [] => .ok ([], [])
  | word :: words =>
    if isOption word then
      if word = [byteDash, byteDash] then .ok ([], words)
      else
        match getoptLetters options word.tail with
        | .error e => .error e
        | .ok (found, none) =>
          (getopt options permutes words).map fun (more, operands) => (found ++ more, operands)
        | .ok (found, some letter) =>
          match words with
          | [] => .error (.missing letter)
          | argument :: words =>
            (getopt options permutes words).map fun (more, operands) =>
              (found ++ (letter, argument) :: more, operands)
    else if permutes then
      (getopt options permutes words).map fun (more, operands) => (more, word :: operands)
    else .ok ([], word :: words)

variable {options : UInt8 → Option Bool} {permutes : Bool}

/-- An operand stays in front of the other operands. -/
theorem getopt_operand {word : Name} {words : List Name} (hword : isOption word = false)
    {found : List (UInt8 × Name)} {operands : List Name}
    (h : getopt options permutes (word :: words) = .ok (found, operands)) :
    ∃ more, operands = word :: more := by
  rw [getopt, if_neg (by simp [hword])] at h
  cases permutes with
  | false => exact ⟨words, by cases h; rfl⟩
  | true =>
    cases hrest : getopt options true words with
    | error e =>
      rw [hrest] at h
      cases h
    | ok result =>
      rw [hrest] at h
      exact ⟨result.2, by cases h; rfl⟩

/-- Words that are no options are all operands. -/
theorem getopt_operands {words : List Name} (hwords : ∀ word ∈ words, isOption word = false) :
    getopt options permutes words = .ok ([], words) := by
  induction words with
  | nil => rfl
  | cons word words ih =>
    have hword := hwords word (List.mem_cons_self ..)
    rw [getopt, if_neg (by simp [hword]), ih fun w hw => hwords w (List.mem_cons_of_mem _ hw)]
    cases permutes <;> rfl

/-- The letters of a word are options. -/
theorem getoptLetters_known {word : Name} {found : List (UInt8 × Name)} {last : Option UInt8}
    (h : getoptLetters options word = .ok (found, last)) :
    (∀ option ∈ found, (options option.1).isSome) ∧ ∀ letter ∈ last, (options letter).isSome := by
  induction word generalizing found with
  | nil =>
    cases h
    simp
  | cons letter rest ih =>
    rw [getoptLetters] at h
    cases hletter : options letter with
    | none =>
      rw [hletter] at h
      cases h
    | some takes =>
      rw [hletter] at h
      cases takes with
      | true =>
        by_cases hrest : rest = []
        · rw [if_pos hrest] at h
          cases h
          simp [hletter]
        · rw [if_neg hrest] at h
          cases h
          simp [hletter]
      | false =>
        cases hmore : getoptLetters options rest with
        | error e =>
          rw [hmore] at h
          cases h
        | ok result =>
          rw [hmore] at h
          cases h
          obtain ⟨hfound, hlast⟩ := ih hmore
          exact ⟨List.forall_mem_cons.mpr ⟨by simp [hletter], hfound⟩, hlast⟩

/-- What is read of a command line are options, and the operands are words of it. -/
theorem getopt_known {words : List Name} {found : List (UInt8 × Name)} {operands : List Name}
    (h : getopt options permutes words = .ok (found, operands)) :
    (∀ option ∈ found, (options option.1).isSome) ∧ operands.Sublist words := by
  induction words using getopt.induct options permutes generalizing found operands with
  | case1 =>
    cases h
    simp
  | case2 words hoption =>
    rw [getopt, if_pos hoption, if_pos rfl] at h
    cases h
    exact ⟨by simp, List.sublist_cons_self _ _⟩
  | case3 word words hoption hend e hletters =>
    rw [getopt, if_pos hoption, if_neg hend, hletters] at h
    cases h
  | case4 word words hoption hend front hletters ih =>
    rw [getopt, if_pos hoption, if_neg hend, hletters] at h
    obtain ⟨hfront, -⟩ := getoptLetters_known hletters
    cases hmore : getopt options permutes words with
    | error e => simp only [hmore, reduceCtorEq, Except.map] at h
    | ok result =>
      simp only [hmore, Except.map] at h
      cases h
      obtain ⟨hfound, hsub⟩ := ih hmore
      exact ⟨List.forall_mem_append.mpr ⟨hfront, hfound⟩, hsub.cons word⟩
  | case5 word hoption hend front letter hletters =>
    rw [getopt, if_pos hoption, if_neg hend, hletters] at h
    cases h
  | case6 word hoption hend front letter hletters argument words ih =>
    rw [getopt, if_pos hoption, if_neg hend, hletters] at h
    obtain ⟨hfront, hletter⟩ := getoptLetters_known hletters
    cases hmore : getopt options permutes words with
    | error e => simp only [hmore, reduceCtorEq, Except.map] at h
    | ok result =>
      simp only [hmore, Except.map] at h
      cases h
      obtain ⟨hfound, hsub⟩ := ih hmore
      have hlater : ∀ option ∈ (letter, argument) :: result.1, (options option.1).isSome :=
        List.forall_mem_cons.mpr ⟨hletter letter rfl, hfound⟩
      exact ⟨List.forall_mem_append.mpr ⟨hfront, hlater⟩, (hsub.cons argument).cons word⟩
  | case7 word words hoption hpermutes ih =>
    rw [getopt, if_neg hoption, if_pos hpermutes] at h
    cases hmore : getopt options permutes words with
    | error e => simp only [hmore, reduceCtorEq, Except.map] at h
    | ok result =>
      simp only [hmore, Except.map] at h
      cases h
      obtain ⟨hfound, hsub⟩ := ih hmore
      exact ⟨hfound, hsub.cons_cons word⟩
  | case8 word words hoption hpermutes =>
    rw [getopt, if_neg hoption, if_neg hpermutes] at h
    cases h
    exact ⟨by simp, .refl _⟩

end Cyberd.Library
