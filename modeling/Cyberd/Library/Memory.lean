import Cyberd.Library.Outcome
import Mathlib.Algebra.Order.Group.Multiset
import Mathlib.Data.Multiset.MapFold

/-!
# Allocated memory

A memory has live cells, and an allocator that may fail at any time and may reuse the
address of a freed cell. A computation is described by the cells it owns: it leaves the
others as they are, whatever they are. So descriptions of parts make one of the whole.
-/

namespace Cyberd.Library

/-- What a computation stops with, when it uses a pointer that is not live. -/
class Faulty (ε : Type) where
  /-- A dereferenced or freed pointer to no live cell. -/
  badPointer : ε

/-- A memory and its allocator. -/
structure Memory (β : Type) where
  /-- What a cell contains, none when it is not live. -/
  cells : Nat → Option β
  /-- The places the allocator will propose, none when it will fail. -/
  answers : List (Option Nat)
  /-- How many allocations failed. -/
  failures : Nat

/-- A computation on a memory, which may stop. -/
abbrev MemoryM (ε β : Type) : Type → Type := StateT (Memory β) (Except ε)

variable {ε β α γ ι : Type}

namespace Memory

/-- A memory in which nothing was allocated, with what its allocator will propose. -/
def empty (answers : List (Option Nat)) : Memory β := ⟨fun _ => none, answers, 0⟩

/-- The place the allocator proposes. -/
def proposal (m : Memory β) : Option Nat := m.answers.head?.join

/-- An allocation succeeded, and the cell at an address has a new content. -/
def allocated (m : Memory β) (a : Nat) (b : β) : Memory β :=
  { m with cells := Function.update m.cells a (some b), answers := m.answers.tail }

/-- An allocation failed. -/
def failed (m : Memory β) : Memory β :=
  { m with answers := m.answers.tail, failures := m.failures + 1 }

/-- The cell at an address is not live anymore. -/
def freed (m : Memory β) (a : Nat) : Memory β :=
  { m with cells := Function.update m.cells a none }

/-- The cell at an address has a new content. -/
def stored (m : Memory β) (a : Nat) (b : β) : Memory β :=
  { m with cells := Function.update m.cells a (some b) }

/-- A new cell, at a proposed place that is not in use. -/
def malloc (b : β) : MemoryM ε β (Option Nat) := fun m =>
  match m.proposal.filter fun a => (m.cells a).isNone with
  | some a => .ok (some a, m.allocated a b)
  | none => .ok (none, m.failed)

variable [Faulty ε]

/-- The cell is freed. -/
def free (a : Nat) : MemoryM ε β Unit := fun m =>
  match m.cells a with
  | none => .error Faulty.badPointer
  | some _ => .ok ((), m.freed a)

/-- The content of the cell. -/
def load (a : Nat) : MemoryM ε β β := fun m =>
  match m.cells a with
  | none => .error Faulty.badPointer
  | some b => .ok (b, m)

/-- The content of the cell is replaced. -/
def store (a : Nat) (b : β) : MemoryM ε β Unit := fun m =>
  match m.cells a with
  | none => .error Faulty.badPointer
  | some _ => .ok ((), m.stored a b)

/-- The cell is resized, at its place or at another one. On failure it stays. -/
def realloc (a : Nat) (resize : β → β) : MemoryM ε β (Option Nat) := fun m =>
  match m.cells a with
  | none => .error Faulty.badPointer
  | some b =>
    match m.proposal.filter fun a' => a' == a || (m.cells a').isNone with
    | some a' => .ok (some a', (m.freed a).allocated a' (resize b))
    | none => .ok (none, m.failed)

/-- The live cells of the memory are these. -/
structure Holds (m : Memory β) (cells : Multiset (Nat × β)) : Prop where
  /-- A cell is counted once. -/
  nodup : (cells.map Prod.fst).Nodup
  /-- The cells with their contents. -/
  cell : ∀ a b, m.cells a = some b ↔ (a, b) ∈ cells

variable {m : Memory β} {cells cells' rest : Multiset (Nat × β)} {a a' : Nat} {b b' : β}

/-- The memory in which nothing was allocated has no live cells. -/
theorem holds_empty (answers : List (Option Nat)) : (empty answers : Memory β).Holds 0 :=
  ⟨Multiset.nodup_zero, fun a b => by simp [empty]⟩

/-- The content of an owned cell. -/
theorem Holds.owned (h : m.Holds ({(a, b)} + rest)) : m.cells a = some b :=
  (h.cell a b).mpr (Multiset.mem_add.mpr (Or.inl (Multiset.mem_singleton_self _)))

/-- The other cells are at other places. -/
theorem Holds.other (h : m.Holds ({(a, b)} + rest)) {b' : β} : (a, b') ∉ rest := by
  intro hmem
  have hnodup := h.nodup
  rw [Multiset.singleton_add, Multiset.map_cons, Multiset.nodup_cons] at hnodup
  exact hnodup.1 (Multiset.mem_map.mpr ⟨_, hmem, rfl⟩)

/-- The allocator and its failures do not matter. -/
theorem Holds.congr {m' : Memory β} (h : m.Holds cells) (hcells : m'.cells = m.cells) :
    m'.Holds cells :=
  ⟨h.nodup, by rw [hcells]; exact h.cell⟩

/-- A cell that is not live becomes so. -/
theorem Holds.insert (h : m.Holds rest) (hnone : m.cells a = none) {m' : Memory β}
    (hcells : m'.cells = Function.update m.cells a (some b)) : m'.Holds ({(a, b)} + rest) := by
  have hnot : ∀ c, (a, c) ∉ rest := fun c hmem => by simp [(h.cell a c).mpr hmem] at hnone
  constructor
  · rw [Multiset.singleton_add, Multiset.map_cons, Multiset.nodup_cons]
    refine ⟨fun hmem => ?_, h.nodup⟩
    obtain ⟨⟨a', c⟩, hc, rfl⟩ := Multiset.mem_map.mp hmem
    exact hnot c hc
  · intro a' c
    rw [hcells, Multiset.singleton_add, Multiset.mem_cons, Prod.mk.injEq]
    by_cases ha : a' = a
    · subst ha
      rw [Function.update_self, Option.some.injEq, or_iff_left (hnot c)]
      exact ⟨fun heq => ⟨rfl, heq.symm⟩, fun heq => heq.2.symm⟩
    · rw [Function.update_of_ne ha, h.cell, or_iff_right fun heq => ha heq.1]

/-- An owned cell is not live anymore. -/
theorem Holds.erase (h : m.Holds ({(a, b)} + rest)) {m' : Memory β}
    (hcells : m'.cells = Function.update m.cells a none) : m'.Holds rest := by
  constructor
  · have hnodup := h.nodup
    rw [Multiset.singleton_add, Multiset.map_cons, Multiset.nodup_cons] at hnodup
    exact hnodup.2
  · intro a' c
    rw [hcells]
    by_cases ha : a' = a
    · subst ha
      simp [h.other]
    · rw [Function.update_of_ne ha, h.cell, Multiset.singleton_add, Multiset.mem_cons,
        Prod.mk.injEq, or_iff_right fun heq => ha heq.1]

end Memory

open Memory

/-- From any memory that has the owned cells and others, the computation returns, or stops
for a reason with `stop`. The others are left as they were, and what is owned then is with
`post`, which may depend on how many allocations failed. -/
def Safely (stop : ε → Prop) (c : MemoryM ε β α)
    (post : α → Nat → Multiset (Nat × β) → Prop) (owned : Multiset (Nat × β)) : Prop :=
  ∀ rest (m : Memory β), m.Holds (owned + rest) →
    Outcome stop (fun r => ∃ n owned', r.2.failures = m.failures + n ∧ post r.1 n owned' ∧
      r.2.Holds (owned' + rest)) (c m)

variable {stop : ε → Prop} {c : MemoryM ε β α} {f : α → MemoryM ε β γ}
  {post post' : α → Nat → Multiset (Nat × β) → Prop}
  {owned used other : Multiset (Nat × β)} {a : Nat} {b : β}

/-- A computation that owns every live cell. -/
theorem Safely.whole (h : Safely stop c post owned) {m : Memory β} (hm : m.Holds owned) :
    Outcome stop (fun r => ∃ n left, r.2.failures = m.failures + n ∧ post r.1 n left ∧
      r.2.Holds left) (c m) := by
  rw [← add_zero owned] at hm
  refine (h 0 m hm).mono ?_ fun _ ht => ht
  rintro r ⟨n, left, hn, hq, hleft⟩
  rw [add_zero] at hleft
  exact ⟨n, left, hn, hq, hleft⟩

/-- A computation in a memory in which nothing was allocated. -/
theorem Safely.start (h : Safely stop c post 0) (answers : List (Option Nat)) :
    Outcome stop (fun r => ∃ left, post r.1 r.2.failures left ∧ r.2.Holds left)
      (c (empty answers)) := by
  refine (h.whole (holds_empty answers)).mono ?_ fun _ ht => ht
  rintro r ⟨n, left, hn, hq, hleft⟩
  obtain rfl : r.2.failures = n := hn.trans (Nat.zero_add n)
  exact ⟨left, hq, hleft⟩

/-- What is promised can be weakened. -/
theorem Safely.mono (h : Safely stop c post owned)
    (hpost : ∀ x n left, post x n left → post' x n left) : Safely stop c post' owned := by
  intro rest m hm
  refine (h rest m hm).mono ?_ fun _ ht => ht
  rintro r ⟨n, left, hn, hq, hleft⟩
  exact ⟨n, left, hn, hpost _ _ _ hq, hleft⟩

/-- Nothing is done. -/
theorem Safely.pure {x : α} (h : post x 0 owned) : Safely stop (pure x) post owned :=
  fun _ _ hm => ⟨0, owned, rfl, h, hm⟩

/-- The computation stops for a reason. -/
theorem Safely.throw {e : ε} (h : stop e) : Safely stop (throw e) post owned := fun _ _ _ => h

/-- A sequence: the second part owns what the first one left. -/
theorem Safely.bind {post' : γ → Nat → Multiset (Nat × β) → Prop} (hc : Safely stop c post owned)
    (hf : ∀ x n left, post x n left → Safely stop (f x) (fun y n' => post' y (n + n')) left) :
    Safely stop (c >>= f) post' owned := by
  intro rest m hm
  apply (hc rest m hm).bind
  rintro ⟨x, m'⟩ ⟨n, left, hn, hq, hleft⟩
  refine (hf x n left hq rest m' hleft).mono ?_ fun _ ht => ht
  rintro ⟨y, m''⟩ ⟨n', left', hn', hq', hleft'⟩
  exact ⟨n + n', left', by rw [hn', hn, Nat.add_assoc], hq', hleft'⟩

/-- A computation that uses a part of what is owned keeps the rest. -/
theorem Safely.frame (hc : Safely stop c post used) (howned : owned = used + other)
    (hpost : ∀ x n left, post x n left → post' x n (left + other)) :
    Safely stop c post' owned := by
  intro rest m hm
  rw [howned, add_assoc] at hm
  refine (hc (other + rest) m hm).mono ?_ fun _ ht => ht
  rintro r ⟨n, left, hn, hq, hleft⟩
  exact ⟨n, left + other, hn, hpost _ _ _ hq, by rwa [add_assoc]⟩

/-- A step that uses a part of what is owned, and then the rest of the computation. -/
theorem Safely.step {post' : γ → Nat → Multiset (Nat × β) → Prop} (hc : Safely stop c post used)
    (howned : owned = used + other)
    (hf : ∀ x n left, post x n left →
      Safely stop (f x) (fun y n' => post' y (n + n')) (left + other)) :
    Safely stop (c >>= f) post' owned := by
  have hframe : Safely stop c (fun x n left => ∃ left', left = left' + other ∧ post x n left')
      owned := hc.frame howned fun x n left h => ⟨left, rfl, h⟩
  refine hframe.bind ?_
  rintro x n _ ⟨left, rfl, hq⟩
  exact hf x n left hq

/-- No allocation fails. -/
abbrev Quietly (stop : ε → Prop) (c : MemoryM ε β α) (post : α → Multiset (Nat × β) → Prop)
    (owned : Multiset (Nat × β)) : Prop :=
  Safely stop c (fun x n left => n = 0 ∧ post x left) owned

/-- A step in which no allocation fails, and then the rest of the computation. -/
theorem Quietly.step {post : α → Multiset (Nat × β) → Prop}
    {post' : γ → Nat → Multiset (Nat × β) → Prop} (hc : Quietly stop c post used)
    (howned : owned = used + other)
    (hf : ∀ x left, post x left → Safely stop (f x) post' (left + other)) :
    Safely stop (c >>= f) post' owned := by
  refine Safely.step hc howned ?_
  rintro x _ left ⟨rfl, hq⟩
  simpa only [Nat.zero_add] using hf x left hq

/-- A loop keeps an invariant of the elements it has gone through. -/
theorem Safely.foldlM {σ : Type} {g : σ → ι → MemoryM ε β σ}
    (inv : List ι → σ → Nat → Multiset (Nat × β) → Prop) {l : List ι} {s : σ}
    (hs : inv [] s 0 owned)
    (hstep : ∀ done x rest s n left, l = done ++ x :: rest → inv done s n left →
      Safely stop (g s x) (fun s' n' => inv (done ++ [x]) s' (n + n')) left) :
    Safely stop (l.foldlM g s) (inv l) owned := by
  have hloop : ∀ (rest done : List ι) (s : σ) (n : Nat) (left : Multiset (Nat × β)),
      l = done ++ rest → inv done s n left →
      Safely stop (rest.foldlM g s) (fun s' n' => inv l s' (n + n')) left := by
    intro rest
    induction rest with
    | nil =>
      rintro done s n left rfl h
      rw [List.append_nil]
      exact Safely.pure h
    | cons x rest ih =>
      intro done s n left hl h
      rw [List.foldlM_cons]
      refine (hstep done x rest s n left hl h).bind fun s' n' left' h' => ?_
      simpa only [Nat.add_assoc] using ih (done ++ [x]) s' (n + n') left' (by simp [hl]) h'
  have h := hloop l [] s 0 owned rfl hs
  simpa only [Nat.zero_add] using h

/-- Steps one after the other, with the failures of all of them. -/
def Counted {σ : Type} (step : ι → σ → Nat → σ → Prop) : List ι → σ → Nat → σ → Prop
  | [], s, n, s' => n = 0 ∧ s' = s
  | x :: l, s, n, s' => ∃ t n' n'', step x s n' t ∧ Counted step l t n'' s' ∧ n = n' + n''

/-- Steps without any failure that are a function make a fold of it. -/
theorem Counted.zero {σ : Type} {step : ι → σ → Nat → σ → Prop} {f : σ → ι → σ} {l : List ι}
    {s s' : σ} (hf : ∀ x ∈ l, ∀ s s', step x s 0 s' → s' = f s x)
    (h : Counted step l s 0 s') : s' = l.foldl f s := by
  induction l generalizing s with
  | nil => exact h.2
  | cons x l ih =>
    obtain ⟨t, n', n'', hx, hl, hsum⟩ := h
    obtain ⟨rfl, rfl⟩ : n' = 0 ∧ n'' = 0 := by omega
    rw [List.foldl_cons, ← hf x (List.mem_cons_self ..) s t hx]
    exact ih (fun y hy => hf y (List.mem_cons_of_mem _ hy)) hl

section Pointers

variable [Faulty ε]

end Pointers

variable {κ : Type} {front back : List (Multiset κ → Prop)} {part : Multiset κ → Prop}
  {x : Multiset κ}

/-- What is owned is divided between the parts. -/
def Divided : List (Multiset κ → Prop) → Multiset κ → Prop
  | [], x => x = 0
  | part :: parts, x => ∃ y z, x = y + z ∧ part y ∧ Divided parts z

end Cyberd.Library
