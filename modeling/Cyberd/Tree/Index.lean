import Cyberd.Tree.Order

/-!
# Trees indexed by a key

When the comparator is exact, a well-formed tree is a set of elements with different
keys: an insertion adds an element, a removal takes out the one of a key.
-/

namespace Cyberd

open Library

variable {α κ : Type} {compare : κ → κ → Int} {load : α → κ} [ExactCompare compare]
variable {t : TreeNode α}

/-- Elements with one key are the same. -/
theorem TreeNode.WellFormed.eq_of_key (h : t.WellFormed compare load) {a b : α}
    (ha : a ∈ t.toList) (hb : b ∈ t.toList) (hkey : load a = load b) : a = b :=
  h.sorted.eq_of_key ha hb ((ExactCompare.eq_zero _ _).mpr hkey)

/-- The keys of the elements are all different. -/
theorem TreeNode.WellFormed.nodup_map (h : t.WellFormed compare load) :
    (t.toList.map load).Nodup :=
  List.Nodup.map_on (fun _ ha _ hb hkey => h.eq_of_key ha hb hkey) h.sorted.nodup

/-- An element with a new key is added. -/
theorem treeInsert_key (h : t.WellFormed compare load) {x : α}
    (hx : ∀ a ∈ t.toList, load a ≠ load x) :
    ∃ t', treeInsert compare load x t = .ok t' ∧ t'.WellFormed compare load ∧
      ∀ a, a ∈ t'.toList ↔ a = x ∨ a ∈ t.toList := by
  obtain ⟨t', hins, hwf, hlist⟩ := treeInsert_ok h fun a ha hkey =>
    hx a ha ((ExactCompare.eq_zero _ _).mp hkey).symm
  exact ⟨t', hins, hwf, fun a => by rw [hlist, mem_sortedInsert]⟩

/-- The element of a key is found in a list sorted by it. -/
private theorem sortedFind_key (h : t.WellFormed compare load) (k : κ) (a : α) :
    sortedFind compare load k t.toList = some a ↔ a ∈ t.toList ∧ load a = k := by
  constructor
  · intro hf
    obtain ⟨ha, hk⟩ := sortedFind_some hf
    exact ⟨ha, ((ExactCompare.eq_zero _ _).mp hk).symm⟩
  · rintro ⟨ha, rfl⟩
    exact h.sorted.find_eq ha (LawfulCompare.self compare _)

/-- The element of a key is taken out. -/
theorem treeRemove_key (h : t.WellFormed compare load) (k : κ) :
    ∃ r, treeRemove compare load k t = .ok r ∧ r.root.WellFormed compare load ∧
      (∀ a, r.element = some a ↔ a ∈ t.toList ∧ load a = k) ∧
      ∀ a, a ∈ r.root.toList ↔ a ∈ t.toList ∧ load a ≠ k := by
  obtain ⟨t', hrem, hwf, hlist, -⟩ := treeRemove_ok h k
  refine ⟨_, hrem, hwf, sortedFind_key h k, fun a => ?_⟩
  rw [hlist, h.sorted.mem_erase, Ne, ExactCompare.eq_zero, eq_comm]

/-- The element of a key is found. -/
theorem treeFind_key (h : t.WellFormed compare load) (k : κ) (a : α) :
    treeFind compare load k t = some a ↔ a ∈ t.toList ∧ load a = k := by
  rw [treeFind_eq h, sortedFind_key h]

end Cyberd
