import Cyberd.Conf.Owned

/-!
# The arguments on the heap

The expansion of the arguments, with its list on the heap: an iteration appends at
most one word, to whatever was appended before. When no allocation fails the list is
the one of the plain expansion. Otherwise it is some list, which is freed.
-/

namespace Cyberd

open Library Library.Memory

/-- The arguments before do not matter: at most one word is appended to them. -/
inductive OneWord (f : Option (List Name) → Except Trap Expansion) : Prop
  | traps (trap : Trap) (h : ∀ l, f l = .error trap)
  | keeps (e : Expansion) (h : ∀ l, f l = .ok { e with arguments := l })
  | appends (e : Expansion) (word : Name)
      (h : ∀ l, f l = .ok { e with arguments := daemonConfListAppend l word })

variable {stop : Trap → Prop} {e : Expansion} {list : Option Nat} {l : Option (List Name)}
  {blocks : Blocks}

/-- A condition that does not depend on the arguments. -/
theorem OneWord.ite {f g : Option (List Name) → Except Trap Expansion} {p : Prop} [Decidable p]
    (hf : OneWord f) (hg : OneWord g) : OneWord fun l => if p then f l else g l := by
  by_cases hp : p
  · simpa only [if_pos hp] using hf
  · simpa only [if_neg hp] using hg

end Cyberd
