import Mathlib.Data.List.Sort

/-!
# Comparators and sorted lists

A three-way comparator answers with the sign of an integer. Elements are
compared through a key, so that two elements may share one key and a list can
be searched for a key that belongs to none of its elements. Searching, removing
and inserting in a sorted list are split at an arbitrary pivot.
-/

namespace Cyberd.Library

variable {α κ : Type*}

/-- The sign of the comparator is a total order of the keys, up to equal keys. -/
class LawfulCompare (compare : κ → κ → Int) : Prop where
  /-- Swapping the operands swaps the strict signs. -/
  lt_iff_gt : ∀ a b, compare a b < 0 ↔ 0 < compare b a
  /-- The non-strict order is transitive. -/
  le_trans : ∀ a b c, compare a b ≤ 0 → compare b c ≤ 0 → compare a c ≤ 0

namespace LawfulCompare

variable (compare : κ → κ → Int) [LawfulCompare compare]

/-- A strict comparison changes its sign with its sides. -/
theorem swap (a b : κ) : compare a b < 0 ↔ 0 < compare b a := lt_iff_gt a b

/-- Every key is equal to itself. -/
theorem self (a : κ) : compare a a = 0 := by
  have h := swap compare a a
  omega

/-- Equality of keys does not depend on the side. -/
theorem eq_comm {a b : κ} : compare a b = 0 ↔ compare b a = 0 := by
  have h := swap compare a b
  have h' := swap compare b a
  omega

/-- A non-strict step followed by a strict one is strict. -/
theorem lt_of_le_of_lt {a b c : κ} (hab : compare a b ≤ 0) (hbc : compare b c < 0) :
    compare a c < 0 := by
  by_contra hac
  have hca : compare c a ≤ 0 := by
    have h := swap compare a c
    have h' := swap compare c a
    omega
  have hcb := le_trans c a b hca hab
  have h := swap compare b c
  omega

/-- A strict step followed by a non-strict one is strict. -/
theorem lt_of_lt_of_le {a b c : κ} (hab : compare a b < 0) (hbc : compare b c ≤ 0) :
    compare a c < 0 := by
  by_contra hac
  have hca : compare c a ≤ 0 := by
    have h := swap compare a c
    omega
  have hba := le_trans b c a hbc hca
  have h := swap compare a b
  omega

/-- The strict order is transitive. -/
theorem lt_trans {a b c : κ} (hab : compare a b < 0) (hbc : compare b c < 0) :
    compare a c < 0 :=
  lt_of_le_of_lt compare hab.le hbc

end LawfulCompare

/-- Three-way comparison by subtraction, exact as long as it does not overflow. -/
def compareBySub (a b : Int) : Int := a - b

instance : LawfulCompare compareBySub where
  lt_iff_gt a b := by unfold compareBySub; omega
  le_trans a b c hab hbc := by unfold compareBySub at *; omega

/-- The comparator only confuses a key with itself. -/
class ExactCompare (compare : κ → κ → Int) : Prop extends LawfulCompare compare where
  /-- Zero is answered for equal keys only. -/
  eq_zero : ∀ a b, compare a b = 0 ↔ a = b

instance : ExactCompare compareBySub where
  eq_zero a b := by unfold compareBySub; omega

/-- The comparator of the opposite order. -/
def compareNeg (compare : κ → κ → Int) (a b : κ) : Int := -compare a b

instance (compare : κ → κ → Int) [LawfulCompare compare] : LawfulCompare (compareNeg compare) where
  lt_iff_gt a b := by
    have h := LawfulCompare.swap compare b a
    unfold compareNeg
    omega
  le_trans a b c hab hbc := by
    have hba := LawfulCompare.swap compare a b
    have hcb := LawfulCompare.swap compare b c
    have hca := LawfulCompare.swap compare a c
    have h : compare c b ≤ 0 → compare b a ≤ 0 → compare c a ≤ 0 := LawfulCompare.le_trans c b a
    unfold compareNeg at *
    omega

/-- The list is strictly increasing in the order of its keys. -/
abbrev KeySorted (compare : κ → κ → Int) (load : α → κ) (l : List α) : Prop :=
  l.Pairwise fun a b => compare (load a) (load b) < 0

/-- The element is stored under the key. -/
def keyEq (compare : κ → κ → Int) (load : α → κ) (k : κ) (a : α) : Bool :=
  compare k (load a) == 0

/-- The element with this key, when the list holds one. -/
def sortedFind (compare : κ → κ → Int) (load : α → κ) (k : κ) (l : List α) : Option α :=
  l.find? (keyEq compare load k)

/-- The list without the element of this key. -/
def sortedErase (compare : κ → κ → Int) (load : α → κ) (k : κ) (l : List α) : List α :=
  l.eraseP (keyEq compare load k)

/-- The list with the element put before the first greater one. -/
def sortedInsert (compare : κ → κ → Int) (load : α → κ) (x : α) (l : List α) : List α :=
  l.orderedInsert (fun a b => compare (load a) (load b) < 0) x

variable {compare : κ → κ → Int} {load : α → κ}

@[simp] theorem keyEq_iff {k : κ} {a : α} :
    keyEq compare load k a = true ↔ compare k (load a) = 0 := by
  simp [keyEq]

/-- Around a pivot, the left part is below it, the right part above it. -/
theorem keySorted_split {l r : List α} {e : α} :
    KeySorted compare load (l ++ e :: r) ↔
      KeySorted compare load l ∧ KeySorted compare load r ∧
      (∀ a ∈ l, compare (load a) (load e) < 0) ∧
      (∀ a ∈ r, compare (load e) (load a) < 0) ∧
      ∀ a ∈ l, ∀ b ∈ r, compare (load a) (load b) < 0 := by
  simp only [KeySorted, List.pairwise_append, List.pairwise_cons, List.mem_cons,
    forall_eq_or_imp]
  constructor
  · rintro ⟨hl, ⟨he, hr⟩, hx⟩
    exact ⟨hl, hr, fun a ha => (hx a ha).1, he, fun a ha => (hx a ha).2⟩
  · rintro ⟨hl, hr, hle, he, hx⟩
    exact ⟨hl, ⟨he, hr⟩, fun a ha => ⟨hle a ha, hx a ha⟩⟩

/-- Sortedness only reads the keys of the elements. -/
theorem KeySorted.congr {load' : α → κ} {l : List α} (h : KeySorted compare load l)
    (he : ∀ a ∈ l, load' a = load a) : KeySorted compare load' l :=
  h.imp_of_mem fun {a b} ha hb hlt => by rw [he a ha, he b hb]; exact hlt

/-- A list that decreases in an order increases in the opposite one. -/
theorem keySorted_compareNeg [LawfulCompare compare] {l : List α} :
    KeySorted (compareNeg compare) load l ↔ KeySorted compare load l.reverse := by
  rw [KeySorted, KeySorted, List.pairwise_reverse]
  apply List.Pairwise.iff
  intro a b
  have h := LawfulCompare.swap compare (load b) (load a)
  unfold compareNeg
  omega

/-- The found element is stored and has the key. -/
theorem sortedFind_some {k : κ} {l : List α} {e : α}
    (h : sortedFind compare load k l = some e) : e ∈ l ∧ compare k (load e) = 0 :=
  ⟨List.mem_of_find?_eq_some h, by simpa using List.find?_some h⟩

/-- Nothing is found exactly when no element has the key. -/
theorem sortedFind_none {k : κ} {l : List α} :
    sortedFind compare load k l = none ↔ ∀ e ∈ l, compare k (load e) ≠ 0 := by
  simp [sortedFind]

/-- Erasing the key of the first element drops just this one. -/
theorem sortedErase_head {l : List α} {e : α} {k : κ} (hk : compare k (load e) = 0) :
    sortedErase compare load k (e :: l) = l :=
  List.eraseP_cons_of_pos (by simpa using hk)

/-- Erasing keeps the order. -/
theorem KeySorted.erase {l : List α} (h : KeySorted compare load l) (k : κ) :
    KeySorted compare load (sortedErase compare load k l) :=
  h.sublist List.eraseP_sublist

section Search

variable [LawfulCompare compare]

/-- A sorted list holds no two elements of one key. -/
theorem KeySorted.eq_of_key {l : List α} (h : KeySorted compare load l) {a b : α}
    (ha : a ∈ l) (hb : b ∈ l) (he : compare (load a) (load b) = 0) : a = b := by
  induction l with
  | nil => cases ha
  | cons x xs ih =>
    obtain ⟨hx, hxs⟩ := List.pairwise_cons.mp h
    rcases List.mem_cons.mp ha with rfl | ha' <;> rcases List.mem_cons.mp hb with rfl | hb'
    · rfl
    · have := hx b hb'; omega
    · have := hx a ha'
      have := (LawfulCompare.eq_comm compare).mp he
      omega
    · exact ih hxs ha' hb'

/-- A sorted list has no duplicates. -/
theorem KeySorted.nodup {l : List α} (h : KeySorted compare load l) : l.Nodup :=
  h.imp fun {a b} hlt he => by
    subst he
    have := LawfulCompare.self compare (load a)
    omega

/-- The element of a key is found wherever it stands. -/
theorem KeySorted.find_eq {l : List α} (h : KeySorted compare load l) {k : κ} {e : α}
    (he : e ∈ l) (hk : compare k (load e) = 0) : sortedFind compare load k l = some e := by
  cases hf : sortedFind compare load k l with
  | none => exact absurd hk (sortedFind_none.mp hf e he)
  | some a =>
    obtain ⟨ha, hak⟩ := sortedFind_some hf
    have hae : compare (load a) (load e) = 0 := by
      have h1 := LawfulCompare.le_trans (load a) k (load e)
        ((LawfulCompare.eq_comm compare).mp hak).le hk.le
      have h2 := LawfulCompare.le_trans (load e) k (load a)
        ((LawfulCompare.eq_comm compare).mp hk).le hak.le
      have h3 := LawfulCompare.swap compare (load a) (load e)
      have h4 := LawfulCompare.swap compare (load e) (load a)
      omega
    rw [h.eq_of_key ha he hae]

/-- Below the pivot, the search goes on in the left part. -/
theorem sortedFind_left {l r : List α} {e : α} {k : κ}
    (h : KeySorted compare load (l ++ e :: r)) (hk : compare k (load e) < 0) :
    sortedFind compare load k (l ++ e :: r) = sortedFind compare load k l := by
  obtain ⟨-, -, -, he, -⟩ := keySorted_split.mp h
  have hnone : (e :: r).find? (keyEq compare load k) = none := by
    simp only [List.find?_eq_none, List.mem_cons, forall_eq_or_imp, keyEq_iff]
    refine ⟨hk.ne, fun a ha => ?_⟩
    exact (LawfulCompare.lt_trans compare hk (he a ha)).ne
  rw [sortedFind, List.find?_append, hnone, Option.or_none]
  rfl

/-- No element of the left part has a key above the pivot. -/
theorem keyEq_left_of_gt {l r : List α} {e : α} {k : κ}
    (h : KeySorted compare load (l ++ e :: r)) (hk : 0 ≤ compare k (load e)) :
    ∀ a ∈ l, compare k (load a) ≠ 0 := by
  obtain ⟨-, -, hl, -, -⟩ := keySorted_split.mp h
  intro a ha hka
  have hlt := LawfulCompare.lt_of_le_of_lt compare hka.le (hl a ha)
  omega

/-- Above the pivot, the search goes on in the right part. -/
theorem sortedFind_right {l r : List α} {e : α} {k : κ}
    (h : KeySorted compare load (l ++ e :: r)) (hk : 0 < compare k (load e)) :
    sortedFind compare load k (l ++ e :: r) = sortedFind compare load k r := by
  have hnone : l.find? (keyEq compare load k) = none := by
    simpa using keyEq_left_of_gt h hk.le
  have hne : keyEq compare load k e = false := by simp [keyEq, hk.ne']
  rw [sortedFind, List.find?_append, hnone, Option.none_or, List.find?_cons, hne]
  rfl

/-- At the pivot, the search stops. -/
theorem sortedFind_pivot {l r : List α} {e : α} {k : κ}
    (h : KeySorted compare load (l ++ e :: r)) (hk : compare k (load e) = 0) :
    sortedFind compare load k (l ++ e :: r) = some e :=
  h.find_eq (by simp) hk

/-- Below the pivot, the left part loses the element. -/
theorem sortedErase_left {l r : List α} {e : α} {k : κ}
    (h : KeySorted compare load (l ++ e :: r)) (hk : compare k (load e) < 0) :
    sortedErase compare load k (l ++ e :: r) = sortedErase compare load k l ++ e :: r := by
  have hf := sortedFind_left h hk
  by_cases hex : ∃ a ∈ l, keyEq compare load k a = true
  · obtain ⟨a, ha, hka⟩ := hex
    exact List.eraseP_append_left hka _ ha
  · push Not at hex
    have hnone : ∀ a ∈ l ++ e :: r, ¬ keyEq compare load k a = true := by
      rw [← List.find?_eq_none]
      exact hf.trans (List.find?_eq_none.mpr hex)
    rw [sortedErase, sortedErase, List.eraseP_of_forall_not hnone,
      List.eraseP_of_forall_not hex]

/-- Above the pivot, the right part loses the element. -/
theorem sortedErase_right {l r : List α} {e : α} {k : κ}
    (h : KeySorted compare load (l ++ e :: r)) (hk : 0 < compare k (load e)) :
    sortedErase compare load k (l ++ e :: r) = l ++ e :: sortedErase compare load k r := by
  have hl : ∀ a ∈ l, ¬ keyEq compare load k a = true := by
    simpa using keyEq_left_of_gt h hk.le
  have hne : ¬ keyEq compare load k e = true := by simp [hk.ne']
  rw [sortedErase, List.eraseP_append_right _ hl, List.eraseP_cons_of_neg hne]
  rfl

/-- At the pivot, both parts are joined. -/
theorem sortedErase_pivot {l r : List α} {e : α} {k : κ}
    (h : KeySorted compare load (l ++ e :: r)) (hk : compare k (load e) = 0) :
    sortedErase compare load k (l ++ e :: r) = l ++ r := by
  have hl : ∀ a ∈ l, ¬ keyEq compare load k a = true := by
    simpa using keyEq_left_of_gt h hk.ge
  rw [sortedErase, List.eraseP_append_right _ hl, List.eraseP_cons_of_pos (by simpa using hk)]

/-- What remains is every element of another key. -/
theorem KeySorted.mem_erase {l : List α} (h : KeySorted compare load l) {k : κ} {a : α} :
    a ∈ sortedErase compare load k l ↔ a ∈ l ∧ compare k (load a) ≠ 0 := by
  constructor
  · intro ha
    refine ⟨List.mem_of_mem_eraseP ha, fun hk => ?_⟩
    have hal := List.mem_of_mem_eraseP ha
    obtain ⟨l₁, l₂, rfl⟩ := List.append_of_mem hal
    rw [sortedErase_pivot h hk] at ha
    obtain ⟨-, -, hl, hr, -⟩ := keySorted_split.mp h
    have hself := LawfulCompare.self compare (load a)
    rcases List.mem_append.mp ha with ha | ha
    · have := hl a ha; omega
    · have := hr a ha; omega
  · rintro ⟨ha, hk⟩
    exact (List.mem_eraseP_of_neg (by simpa using hk)).mpr ha

/-- The found element and the rest are the whole list. -/
theorem KeySorted.perm_erase {l : List α} (h : KeySorted compare load l) {k : κ} {e : α}
    (hf : sortedFind compare load k l = some e) :
    l.Perm (e :: sortedErase compare load k l) := by
  obtain ⟨he, hk⟩ := sortedFind_some hf
  obtain ⟨l₁, l₂, rfl⟩ := List.append_of_mem he
  rw [sortedErase_pivot h hk]
  exact List.perm_middle

end Search

section Insert

@[simp] theorem mem_sortedInsert {x a : α} {l : List α} :
    a ∈ sortedInsert compare load x l ↔ a = x ∨ a ∈ l := by
  simp [sortedInsert, List.mem_orderedInsert]

/-- Below the pivot, the element goes into the left part. -/
theorem sortedInsert_left {l r : List α} {x e : α} (hx : compare (load x) (load e) < 0) :
    sortedInsert compare load x (l ++ e :: r) = sortedInsert compare load x l ++ e :: r := by
  induction l with
  | nil => simp [sortedInsert, hx]
  | cons a l ih =>
    simp only [sortedInsert, List.cons_append, List.orderedInsert_cons] at ih ⊢
    split
    · rfl
    · rw [ih, List.cons_append]

/-- The element goes after everything that is not above it. -/
theorem sortedInsert_append {p r : List α} {x : α}
    (hp : ∀ a ∈ p, ¬ compare (load x) (load a) < 0) :
    sortedInsert compare load x (p ++ r) = p ++ sortedInsert compare load x r := by
  induction p with
  | nil => rfl
  | cons a p ih =>
    have ha := hp a (List.mem_cons_self ..)
    have ih' := ih fun b hb => hp b (List.mem_cons_of_mem _ hb)
    simp only [sortedInsert, List.cons_append, List.orderedInsert_cons] at ih' ⊢
    rw [if_neg ha, ih']

variable [LawfulCompare compare]

/-- Above the pivot, the element goes into the right part. -/
theorem sortedInsert_right {l r : List α} {x e : α} (h : KeySorted compare load (l ++ e :: r))
    (hx : 0 < compare (load x) (load e)) :
    sortedInsert compare load x (l ++ e :: r) = l ++ e :: sortedInsert compare load x r := by
  have hge : ∀ a ∈ l ++ [e], ¬ compare (load x) (load a) < 0 := by
    intro a ha hxa
    have hae : compare (load a) (load e) ≤ 0 := by
      obtain ⟨-, -, hl, -, -⟩ := keySorted_split.mp h
      rcases List.mem_append.mp ha with ha | ha
      · exact (hl a ha).le
      · rw [List.mem_singleton.mp ha, LawfulCompare.self compare]
    have := LawfulCompare.lt_of_lt_of_le compare hxa hae
    omega
  simpa using sortedInsert_append (r := r) hge

/-- An element above all others goes to the end. -/
theorem sortedInsert_last {l : List α} {x : α} (hx : ∀ a ∈ l, compare (load a) (load x) < 0) :
    sortedInsert compare load x l = l ++ [x] := by
  have hge : ∀ a ∈ l, ¬ compare (load x) (load a) < 0 := fun a ha hlt => by
    have hgt := (LawfulCompare.swap compare _ _).mp (hx a ha)
    omega
  simpa [sortedInsert] using sortedInsert_append (r := []) hge

/-- Inserting an element of a new key keeps the order. -/
theorem KeySorted.insert {l : List α} (h : KeySorted compare load l) {x : α}
    (hx : ∀ a ∈ l, compare (load x) (load a) ≠ 0) :
    KeySorted compare load (sortedInsert compare load x l) := by
  induction l with
  | nil => simp [sortedInsert]
  | cons a l ih =>
    obtain ⟨ha, hl⟩ := List.pairwise_cons.mp h
    have ih' := ih hl fun b hb => hx b (List.mem_cons_of_mem _ hb)
    simp only [sortedInsert, List.orderedInsert_cons] at ih' ⊢
    split
    · rename_i hxa
      refine List.pairwise_cons.mpr ⟨fun b hb => ?_, h⟩
      rcases List.mem_cons.mp hb with rfl | hb
      · exact hxa
      · exact LawfulCompare.lt_trans compare hxa (ha b hb)
    · rename_i hxa
      refine List.pairwise_cons.mpr ⟨fun b hb => ?_, ih'⟩
      rcases (List.mem_orderedInsert _).mp hb with rfl | hb
      · have := hx a (List.mem_cons_self ..)
        exact (LawfulCompare.swap compare (load a) (load b)).mpr (by omega)
      · exact ha b hb

end Insert

end Cyberd.Library
