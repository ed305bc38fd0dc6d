import Cyberd.Tree.Order

/-!
# Runs of insertions and removals

Every tree reached from the empty one is well formed, hence every operation on
it behaves as the one on the sorted list, never stops for another reason than a
repeated element, and recurses no deeper than the logarithmic height.
-/

namespace Cyberd

open Library

variable {α κ : Type}

/-- Trees built from the empty one by operations that returned. -/
inductive TreeReachable (compare : κ → κ → Int) (load : α → κ) : TreeNode α → Prop
  | empty : TreeReachable compare load .null
  | insert {t t' : TreeNode α} (x : α) (ht : TreeReachable compare load t)
      (h : treeInsert compare load x t = .ok t') : TreeReachable compare load t'
  | remove {t : TreeNode α} {r : Removal α} (k : κ) (ht : TreeReachable compare load t)
      (h : treeRemove compare load k t = .ok r) : TreeReachable compare load r.root

section Depth

variable (compare : κ → κ → Int) (load : α → κ)

/-- Nested calls of `tree_node_insert`. -/
def treeNodeInsertDepth (x : α) : TreeNode α → Nat
  | .null => 1
  | .node element left right _ =>
    if compare (load x) (load element) < 0 then treeNodeInsertDepth x left + 1
    else if 0 < compare (load x) (load element) then treeNodeInsertDepth x right + 1
    else 1

/-- Nested calls of `tree_node_remove`, the removal of the successor included. -/
def treeNodeRemoveDepth : TreeNode α → κ → Nat
  | .null, _ => 1
  | .node element left right _, key =>
    if compare key (load element) < 0 then treeNodeRemoveDepth left key + 1
    else if 0 < compare key (load element) then treeNodeRemoveDepth right key + 1
    else
      match left, right with
      | .node .., .node .. =>
        match treeNodeLeftmost right with
        | none => 1
        | some successor => treeNodeRemoveDepth right (load successor) + 1
      | _, _ => 1

/-- Nested calls of `tree_node_destroy` and of `tree_node_preorder_mutate`. -/
def treeNodeTraversalDepth : TreeNode α → Nat
  | .null => 1
  | .node _ left right _ => max (treeNodeTraversalDepth left) (treeNodeTraversalDepth right) + 1

/-- An insertion recurses along one branch. -/
theorem treeNodeInsertDepth_le (x : α) (t : TreeNode α) :
    treeNodeInsertDepth compare load x t ≤ t.depth + 1 := by
  induction t with
  | null => exact Nat.le_refl _
  | node e l r c ihl ihr =>
    rw [treeNodeInsertDepth, TreeNode.depth_node]
    split
    · omega
    · split <;> omega

/-- A removal recurses along one branch, then along the one of the successor. -/
theorem treeNodeRemoveDepth_le (t : TreeNode α) (k : κ) :
    treeNodeRemoveDepth compare load t k ≤ t.depth + 1 := by
  induction t generalizing k with
  | null => exact Nat.le_refl _
  | node e l r c ihl ihr =>
    unfold treeNodeRemoveDepth
    rw [TreeNode.depth_node]
    split
    · have := ihl k; omega
    · split
      · have := ihr k; omega
      · split
        · split
          · omega
          · rename_i s _
            have := ihr (load s)
            omega
        · omega

/-- A traversal recurses down to every null pointer. -/
theorem treeNodeTraversalDepth_eq (t : TreeNode α) : treeNodeTraversalDepth t = t.depth + 1 := by
  induction t with
  | null => rfl
  | node e l r c ihl ihr =>
    rw [treeNodeTraversalDepth, ihl, ihr, TreeNode.depth_node]
    omega

end Depth

variable {compare : κ → κ → Int} [LawfulCompare compare] {load : α → κ}

/-- The well-formedness of a run, by induction over its operations. -/
theorem TreeReachable.wellFormed {t : TreeNode α} (h : TreeReachable compare load t) :
    t.WellFormed compare load := by
  induction h with
  | empty => exact TreeNode.wellFormed_null
  | insert x ht h ih =>
    rcases treeNodeInsert_spec ih x with ⟨-, hi⟩ | ⟨hf, t', hi, havl, hlist, -⟩
    · rw [treeInsert, hi] at h
      cases h
    · rw [treeInsert, hi] at h
      cases h
      exact ⟨havl, hlist ▸ ih.sorted.insert (sortedFind_none.mp hf)⟩
  | remove k ht h ih =>
    obtain ⟨t', hrem, hwf, -⟩ := treeRemove_ok ih k
    rw [hrem] at h
    cases h
    exact hwf

/-- On every reachable tree each operation is the one on the sorted list of its
elements; only the insertion of a present element aborts. -/
theorem tree_refines_sorted_list {t : TreeNode α} (ht : TreeReachable compare load t) :
    KeySorted compare load t.toList ∧
    (∀ x, (treeInsert compare load x t = .error .abort ↔
        ∃ a ∈ t.toList, compare (load x) (load a) = 0) ∧
      ((∀ a ∈ t.toList, compare (load x) (load a) ≠ 0) →
        ∃ t', treeInsert compare load x t = .ok t' ∧
          t'.toList = sortedInsert compare load x t.toList ∧
          KeySorted compare load t'.toList)) ∧
    (∀ k, (∀ e ∈ t.toList, compare k (load e) = 0 →
        ∃ t', treeNodeRemove compare load t k = .ok (t', .node e .null .null 1) ∧
          treeRemove compare load k t = .ok ⟨t', some e, [e]⟩ ∧
          t'.toList = sortedErase compare load k t.toList ∧
          t.toList.Perm (e :: t'.toList)) ∧
      ((∀ e ∈ t.toList, compare k (load e) ≠ 0) →
        treeRemove compare load k t = .ok ⟨t, none, []⟩)) ∧
    (∀ k, (∀ e ∈ t.toList, compare k (load e) = 0 → treeFind compare load k t = some e) ∧
      (treeFind compare load k t = none ↔ ∀ e ∈ t.toList, compare k (load e) ≠ 0)) ∧
    (treeLast t = t.toList.getLast? ∧ (treeLast t = none ↔ t.toList = [])) ∧
    (∃ visits : List α, visits.Perm t.toList ∧
      ∀ (σ : Type) (mutate : α → σ → Except Trap σ) (s : σ),
        treeMutate mutate t s = visits.foldlM (fun s a => mutate a s) s) := by
  have h := ht.wellFormed
  refine ⟨h.sorted, fun x => ⟨?_, fun hx => ?_⟩, fun k => ⟨fun e he hk => ?_, fun hk => ?_⟩,
    fun k => ⟨fun e he hk => ?_, ?_⟩, ⟨treeLast_eq t, ?_⟩,
    ⟨t.preorder, t.preorder_perm, fun σ mutate s => treeMutate_eq mutate t s⟩⟩
  · constructor
    · intro habort
      by_contra hne
      push Not at hne
      obtain ⟨t', hi, -⟩ := treeInsert_ok h hne
      rw [hi] at habort
      cases habort
    · rintro ⟨a, ha, hxa⟩
      exact treeInsert_abort h ha hxa
  · obtain ⟨t', hi, hwf, hlist⟩ := treeInsert_ok h hx
    exact ⟨t', hi, hlist, hwf.sorted⟩
  · have hf := h.sorted.find_eq he hk
    obtain ⟨t', hrem, -, hlist, -⟩ := treeNodeRemove_spec h k
    rw [hf] at hrem
    refine ⟨t', hrem, ?_, hlist, hlist ▸ h.sorted.perm_erase hf⟩
    rw [treeRemove, hrem]
    rfl
  · obtain ⟨t', hrem, -, -, hsame⟩ := treeRemove_ok h k
    have hf := sortedFind_none.mpr hk
    rw [hrem, hf, hsame hf]
    rfl
  · rw [treeFind_eq h]
    exact h.sorted.find_eq he hk
  · rw [treeFind_eq h]
    exact sortedFind_none
  · rw [treeLast_eq, List.getLast?_eq_none_iff]

/-- What five ascending pids are rotated into. -/
def fivePids : TreeNode Int :=
  .node 2 (treeNodeCreate 1) (.node 4 (treeNodeCreate 3) (treeNodeCreate 5) 2) 3

/-- The removal of the root, which has two subtrees, leaves the other pids. An absent pid is
inserted, a present one is not. -/
theorem tree_refines_sorted_list_five :
    (∃ t, treeRemove compareBySub id 2 fivePids = .ok ⟨t, some 2, [2]⟩ ∧
      t.toList = [1, 3, 4, 5]) ∧
    treeRemove compareBySub id 9 fivePids = .ok ⟨fivePids, none, []⟩ ∧
    (∃ t, treeInsert compareBySub id 6 fivePids = .ok t ∧ t.toList = [1, 2, 3, 4, 5, 6]) ∧
    treeInsert compareBySub id 4 fivePids = .error .abort ∧
    treeFind compareBySub id 3 fivePids = some 3 ∧ treeFind compareBySub id 9 fivePids = none ∧
    treeLast fivePids = some 5 ∧
    ∃ visits : List Int, visits.Perm [1, 2, 3, 4, 5] ∧
      treeMutate (fun pid (seen : List Int) => .ok (pid :: seen)) fivePids [] =
        visits.foldlM (fun seen pid => .ok (pid :: seen)) [] := by
  have h1 : TreeReachable compareBySub id (treeNodeCreate (1 : Int)) := .insert 1 .empty rfl
  have h2 : TreeReachable compareBySub id
      (.node (1 : Int) .null (treeNodeCreate 2) 2) := .insert 2 h1 (by decide)
  have h3 : TreeReachable compareBySub id
      (.node (2 : Int) (treeNodeCreate 1) (treeNodeCreate 3) 2) := .insert 3 h2 (by decide)
  have h4 : TreeReachable compareBySub id
      (.node (2 : Int) (treeNodeCreate 1) (.node 3 .null (treeNodeCreate 4) 2) 3) :=
    .insert 4 h3 (by decide)
  have h5 : TreeReachable compareBySub id fivePids := .insert 5 h4 (by decide)
  obtain ⟨-, hinsert, hremove, hfind, ⟨hlast, -⟩, visits, hperm, hvisits⟩ :=
    tree_refines_sorted_list h5
  obtain ⟨removed, -, hremoved, hlist, -⟩ := (hremove 2).1 2 (by decide) (by decide)
  obtain ⟨inserted, hinserted, hlist', -⟩ := (hinsert 6).2 (by decide)
  exact ⟨⟨removed, hremoved, hlist⟩, (hremove 9).2 (by decide), ⟨inserted, hinserted, hlist'⟩,
    (hinsert 4).1.mpr ⟨4, by decide, by decide⟩, (hfind 3).1 3 (by decide) (by decide),
    (hfind 9).2.mpr (by decide), hlast, visits, hperm, hvisits _ _ _⟩

/-- Every reachable tree has true cached heights and close siblings, no operation
on it misses a rotated child or fails an assert, and its height, which bounds
every recursion, is logarithmic in the number of its elements. -/
theorem tree_balanced_over_runs {t : TreeNode α} (ht : TreeReachable compare load t) :
    t.Avl ∧
    (∀ x, (∀ a ∈ t.toList, compare (load x) (load a) ≠ 0) →
      ∃ t', treeInsert compare load x t = .ok t') ∧
    (∀ k, ∃ r, treeRemove compare load k t = .ok r) ∧
    Nat.fib (t.depth + 2) - 1 ≤ t.toList.length ∧
    (∀ x, treeNodeInsertDepth compare load x t ≤ t.depth + 1) ∧
    (∀ k, treeNodeRemoveDepth compare load t k ≤ t.depth + 1) ∧
    treeNodeTraversalDepth t = t.depth + 1 := by
  have h := ht.wellFormed
  refine ⟨h.avl, fun x hx => ?_, fun k => ?_, ?_, fun x => treeNodeInsertDepth_le compare load x t,
    treeNodeRemoveDepth_le compare load t, treeNodeTraversalDepth_eq t⟩
  · obtain ⟨t', hi, -⟩ := treeInsert_ok h hx
    exact ⟨t', hi⟩
  · obtain ⟨t', hrem, -⟩ := treeRemove_ok h k
    exact ⟨_, hrem⟩
  · rw [TreeNode.length_toList]
    have := h.avl.fib_le_size
    omega

/-- Three ascending pids are rotated into a tree of height two. -/
theorem tree_balanced_over_runs_three :
    ∃ t : TreeNode Int, t.depth = 2 ∧ t.Avl ∧ ∃ r, treeRemove compareBySub id 2 t = .ok r := by
  have h1 : TreeReachable compareBySub id (treeNodeCreate (1 : Int)) := .insert 1 .empty rfl
  have h2 : TreeReachable compareBySub id
      (.node (1 : Int) .null (treeNodeCreate 2) 2) := .insert 2 h1 (by decide)
  have h3 : TreeReachable compareBySub id
      (.node (2 : Int) (treeNodeCreate 1) (treeNodeCreate 3) 2) := .insert 3 h2 (by decide)
  obtain ⟨havl, -, hremove, -⟩ := tree_balanced_over_runs h3
  exact ⟨_, rfl, havl, hremove 2⟩

end Cyberd
