import Cyberd.Conf.Copies

/-!
# A file read into allocated memory

The table of the parsers on the memory is the plain one, entry by entry. So what
`daemon_conf_parse` leaves in the memory is the record of the plain function for the
values of the file, except those whose parser ran out of memory: one for each allocation
that failed. `daemon_conf_deinit` frees all of it but the paths of the descriptors.
-/

namespace Cyberd

open Library Library.Memory

/-- The value, if there is one, is a string. -/
def HandedValue.Clean (handed : HandedValue) : Prop :=
  ∀ string, handed.value = some string → (0 : UInt8) ∉ string

/-- What is read from the values, when the parsers of `n` of them ran out of memory. -/
def Remains (host : Host) (values : List HandedValue) (c : DaemonConf) (n : Nat)
    (final : DaemonConf) : Prop :=
  ∃ kept : List HandedValue, kept.Sublist values ∧ kept.length + n = values.length ∧
    final = kept.foldl (HandedValue.parse host) c

/-- Strings in allocated blocks. -/
def Strings (strings : List Name) (blocks : Blocks) : Prop :=
  ∃ strs : List Nat, strs.length = strings.length ∧ blocks = stringBlocks strs strings

/-- The values that `daemon_conf_deinit` does not free. -/
def DaemonConf.unfreed (conf : DaemonConf) : List Name :=
  conf.stdin.toList ++ conf.stdout.toList ++ conf.stderr.toList

variable {stop : Trap → Prop} {p : StoredConf} {c : DaemonConf} {blocks : Blocks}
  {host : Host} {handed : HandedValue}

/-- Nothing is missing when no allocation failed. -/
theorem remains_zero {values : List HandedValue} {final : DaemonConf} :
    Remains host values c 0 final ↔ final = values.foldl (HandedValue.parse host) c := by
  constructor
  · rintro ⟨kept, hsub, hlen, rfl⟩
    rw [hsub.eq_of_length (by omega)]
  · rintro rfl
    exact ⟨values, .refl _, rfl, rfl⟩

/-- The string of a pointer, if there is one. -/
theorem StringAt.strings {pointer : Option Nat} {string : Option Name}
    (h : StringAt pointer string blocks) : Strings string.toList blocks := by
  cases pointer with
  | none =>
    cases string with
    | none => exact ⟨[], rfl, h⟩
    | some s => exact h.elim
  | some a =>
    cases string with
    | none => exact h.elim
    | some s => exact ⟨[a], rfl, h.trans (add_zero _).symm⟩

/-- Some strings, and others. -/
theorem Strings.append {strings strings' : List Name} {blocks blocks' : Blocks}
    (h : Strings strings blocks) (h' : Strings strings' blocks') :
    Strings (strings ++ strings') (blocks + blocks') := by
  obtain ⟨strs, hlen, rfl⟩ := h
  obtain ⟨strs', hlen', rfl⟩ := h'
  refine ⟨strs ++ strs', by simp [hlen, hlen'], ?_⟩
  clear hlen'
  induction strs generalizing strings with
  | nil =>
    cases strings with
    | nil => exact zero_add _
    | cons string strings => cases hlen
  | cons str strs ih =>
    cases strings with
    | nil => cases hlen
    | cons string strings =>
      simp only [List.cons_append, stringBlocks]
      rw [add_assoc, ih (Nat.succ.inj hlen)]

end Cyberd
