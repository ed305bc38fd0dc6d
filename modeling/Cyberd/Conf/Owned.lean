import Cyberd.Conf.Blocks

/-!
# What the pointers of a record own

A null pointer owns nothing, a string owns its block, and a list the array of its
pointers and the strings behind them. The functions on lists and on paths use what
they are given and nothing else, whichever of their allocations fails.
-/

namespace Cyberd

open Library Library.Memory

/-- The blocks that are owned, with their addresses. -/
abbrev Blocks : Type := Multiset (Nat × Block)

/-- The string behind a pointer. -/
def StringAt : Option Nat → Option Name → Blocks → Prop
  | none, none, blocks => blocks = 0
  | some a, some string, blocks => blocks = {(a, .string string)}
  | _, _, _ => False

/-- The strings of a list. -/
def stringBlocks : List Nat → List Name → Blocks
  | str :: strs, string :: strings => {(str, .string string)} + stringBlocks strs strings
  | _, _ => 0

/-- The array of a list, with its terminating pointer. -/
def arrayOf (strs : List Nat) : List (Option (Option Nat)) :=
  strs.map (fun str => some (some str)) ++ [some none]

/-- The list behind a pointer. -/
def ListAt : Option Nat → Option (List Name) → Blocks → Prop
  | none, none, blocks => blocks = 0
  | some a, some strings, blocks => ∃ strs : List Nat, strs.length = strings.length ∧
      blocks = {(a, .array (arrayOf strs))} + stringBlocks strs strings
  | _, _, _ => False

variable {stop : Trap → Prop} {a : Nat} {pointers : List (Option (Option Nat))}
  {strs : List Nat} {strings : List Name} {list : Option Nat} {l : Option (List Name)}
  {blocks : Blocks} {pointer : Option Nat} {string : Option Name}

end Cyberd
