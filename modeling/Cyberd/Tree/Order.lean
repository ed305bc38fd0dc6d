import Cyberd.Tree.Balance

/-!
# The tree refines a sorted list

Each operation is described once, on a balanced tree whose elements in order are
sorted: what it answers, what list it leaves, and how the height moves. The
sorted list is the abstract state; the tree only decides how fast it is reached.
-/

namespace Cyberd

open Library

variable {α κ : Type}

/-- A balanced tree whose elements in order are sorted by their keys. -/
structure TreeNode.WellFormed (compare : κ → κ → Int) (load : α → κ) (t : TreeNode α) : Prop where
  /-- Heights are cached and close. -/
  avl : t.Avl
  /-- Keys are strictly increasing. -/
  sorted : KeySorted compare load t.toList

variable {compare : κ → κ → Int} {load : α → κ}

/-- The empty tree is well formed. -/
theorem TreeNode.wellFormed_null : (TreeNode.null : TreeNode α).WellFormed compare load :=
  ⟨.null, List.Pairwise.nil⟩

/-- Reading the same keys keeps the tree well formed. -/
theorem TreeNode.WellFormed.congr {load' : α → κ} {t : TreeNode α}
    (h : t.WellFormed compare load) (he : ∀ a ∈ t.toList, load' a = load a) :
    t.WellFormed compare load' :=
  ⟨h.avl, h.sorted.congr he⟩

/-- A child of a well-formed tree is well formed. -/
theorem TreeNode.WellFormed.children {e : α} {l r : TreeNode α} {c : Int}
    (h : (TreeNode.node e l r c).WellFormed compare load) :
    l.WellFormed compare load ∧ r.WellFormed compare load := by
  obtain ⟨hl, hr, -⟩ := keySorted_split.mp h.sorted
  cases h.avl with
  | node hal har _ _ => exact ⟨⟨hal, hl⟩, ⟨har, hr⟩⟩

section Insert

variable [LawfulCompare compare]

/-- An insertion aborts on an equal element; otherwise it returns a balanced tree
of the list with the element at its sorted place. -/
theorem treeNodeInsert_spec {t : TreeNode α} (h : t.WellFormed compare load) (x : α) :
    (sortedFind compare load (load x) t.toList ≠ none ∧
      treeNodeInsert compare load x t = .error .abort) ∨
    (sortedFind compare load (load x) t.toList = none ∧
      ∃ t', treeNodeInsert compare load x t = .ok t' ∧ t'.Avl ∧
        t'.toList = sortedInsert compare load x t.toList ∧
        (t'.depth = t.depth ∨ t'.depth = t.depth + 1 ∧ t'.GrewTowards compare load x)) := by
  induction t with
  | null =>
    refine Or.inr ⟨rfl, _, rfl, .node .null .null rfl (by simp), rfl, Or.inr ⟨rfl, ?_⟩⟩
    exact Or.inl ⟨rfl, rfl⟩
  | node e l r c ihl ihr =>
    obtain ⟨hl, hr⟩ := h.children
    have hs := h.sorted
    cases h.avl with
    | node _ _ hc hb =>
    simp only [TreeNode.toList_node, TreeNode.depth_node] at hs ⊢
    rcases lt_trichotomy (compare (load x) (load e)) 0 with hlt | heq | hgt
    · rw [sortedFind_left hs hlt, sortedInsert_left hlt, treeNodeInsert]
      simp only [if_pos hlt]
      rcases ihl hl with ⟨hf, hi⟩ | ⟨hf, l', hi, havl, hlist, hd⟩
      · exact Or.inl ⟨hf, by rw [hi, except_bind_error]⟩
      · obtain ⟨t, ht, htavl, htlist, htd⟩ :=
          treeNodeInsertBalanceLeft_avl c havl hr.avl hb hlt hd
        refine Or.inr ⟨hf, _, by rw [hi, except_bind_ok, ht, except_bind_ok, except_pure],
          htavl, by rw [htlist, hlist], htd⟩
    · refine Or.inl ⟨by simp [sortedFind_pivot hs heq], ?_⟩
      simp [treeNodeInsert, heq]
    · rw [sortedFind_right hs hgt, sortedInsert_right hs hgt, treeNodeInsert]
      simp only [if_neg hgt.not_gt, if_pos hgt]
      rcases ihr hr with ⟨hf, hi⟩ | ⟨hf, r', hi, havl, hlist, hd⟩
      · exact Or.inl ⟨hf, by rw [hi, except_bind_error]⟩
      · obtain ⟨t, ht, htavl, htlist, htd⟩ :=
          treeNodeInsertBalanceRight_avl c hl.avl havl hb hgt hd
        refine Or.inr ⟨hf, _, by rw [hi, except_bind_ok, ht, except_bind_ok, except_pure],
          htavl, by rw [htlist, hlist], htd⟩

/-- An absent element is inserted at its sorted place. -/
theorem treeInsert_ok {t : TreeNode α} (h : t.WellFormed compare load) {x : α}
    (hx : ∀ a ∈ t.toList, compare (load x) (load a) ≠ 0) :
    ∃ t', treeInsert compare load x t = .ok t' ∧ t'.WellFormed compare load ∧
      t'.toList = sortedInsert compare load x t.toList := by
  rcases treeNodeInsert_spec h x with ⟨hf, -⟩ | ⟨-, t', hi, havl, hlist, -⟩
  · exact absurd (sortedFind_none.mpr hx) hf
  · exact ⟨t', hi, ⟨havl, hlist ▸ h.sorted.insert hx⟩, hlist⟩

/-- A present element aborts the insertion. -/
theorem treeInsert_abort {t : TreeNode α} (h : t.WellFormed compare load) {x a : α}
    (ha : a ∈ t.toList) (hx : compare (load x) (load a) = 0) :
    treeInsert compare load x t = .error .abort := by
  rcases treeNodeInsert_spec h x with ⟨-, hi⟩ | ⟨hf, -⟩
  · exact hi
  · exact absurd hx (sortedFind_none.mp hf a ha)

end Insert

/-- The walk to the successor ends on the first element in order. -/
theorem treeNodeLeftmost_eq (t : TreeNode α) : treeNodeLeftmost t = t.toList.head? := by
  induction t with
  | null => rfl
  | node e l r c ihl _ =>
    cases l with
    | null => rfl
    | node e1 l1 r1 c1 =>
      rw [treeNodeLeftmost, ihl, TreeNode.toList_node, List.head?_append]
      simp

section Remove

variable [LawfulCompare compare]

/-- What a removal answers: the unlinked node is a single leaf. -/
def unlinkedNode (found : Option α) : TreeNode α :=
  match found with
  | none => .null
  | some e => .node e .null .null 1

/-- The end of a removal after the left subtree has lost at most one level. -/
theorem treeNodeRemoveBalance_left {e : α} {l r l' : TreeNode α} (c : Int) (hl : l'.Avl)
    (hr : r.Avl) (hb : l.depth ≤ r.depth + 1 ∧ r.depth ≤ l.depth + 1)
    (hd : l'.depth = l.depth ∨ l'.depth + 1 = l.depth) :
    ∃ t, treeNodeRemoveBalance (.node e l' r c) = .ok t ∧ t.Avl ∧
      t.toList = l'.toList ++ e :: r.toList ∧
      (t.depth = max l.depth r.depth + 1 ∨ t.depth + 1 = max l.depth r.depth + 1) := by
  obtain ⟨t, ht, havl, hlist, htd⟩ := treeNodeRemoveBalance_avl (e := e) c hl hr (by omega)
  exact ⟨t, ht, havl, hlist, by omega⟩

/-- The end of a removal after the right subtree has lost at most one level. -/
theorem treeNodeRemoveBalance_right {e : α} {l r r' : TreeNode α} (c : Int) (hl : l.Avl)
    (hr : r'.Avl) (hb : l.depth ≤ r.depth + 1 ∧ r.depth ≤ l.depth + 1)
    (hd : r'.depth = r.depth ∨ r'.depth + 1 = r.depth) :
    ∃ t, treeNodeRemoveBalance (.node e l r' c) = .ok t ∧ t.Avl ∧
      t.toList = l.toList ++ e :: r'.toList ∧
      (t.depth = max l.depth r.depth + 1 ∨ t.depth + 1 = max l.depth r.depth + 1) := by
  obtain ⟨t, ht, havl, hlist, htd⟩ := treeNodeRemoveBalance_avl (e := e) c hl hr (by omega)
  exact ⟨t, ht, havl, hlist, by omega⟩

/-- A removal never stops: it unlinks the element of the key, if any, as a single
leaf, and leaves a balanced tree of the remaining list; without such an element
the tree is left untouched. -/
theorem treeNodeRemove_spec {t : TreeNode α} (h : t.WellFormed compare load) (k : κ) :
    ∃ t', treeNodeRemove compare load t k =
        .ok (t', unlinkedNode (sortedFind compare load k t.toList)) ∧
      t'.Avl ∧ t'.toList = sortedErase compare load k t.toList ∧
      (t'.depth = t.depth ∨ t'.depth + 1 = t.depth) ∧
      (sortedFind compare load k t.toList = none → t' = t) := by
  induction t generalizing k with
  | null => exact ⟨.null, rfl, .null, rfl, Or.inl rfl, fun _ => rfl⟩
  | node e l r c ihl ihr =>
    obtain ⟨hl, hr⟩ := h.children
    have hs := h.sorted
    have hself := treeNodeRemoveBalance_self h.avl
    cases h.avl with
    | node _ _ hc hb =>
    simp only [TreeNode.toList_node, TreeNode.depth_node] at hs ⊢
    rw [treeNodeRemove]
    rcases lt_trichotomy (compare k (load e)) 0 with hlt | heq | hgt
    · obtain ⟨l', hrem, havl, hlist, hd, hsame⟩ := ihl hl k
      obtain ⟨t, ht, htavl, htlist, htd⟩ :=
        treeNodeRemoveBalance_left (e := e) c havl hr.avl hb hd
      rw [sortedFind_left hs hlt, sortedErase_left hs hlt]
      refine ⟨t, by simp [hlt, hrem, ht], htavl, by rw [htlist, hlist], htd, fun hf => ?_⟩
      rw [hsame hf] at ht
      exact Except.ok.inj (ht.symm.trans hself)
    · rw [sortedFind_pivot hs heq, sortedErase_pivot hs heq]
      cases l with
      | null =>
        refine ⟨r, ?_, hr.avl, rfl, by simp only [TreeNode.depth_null] at hb ⊢; omega,
          fun hf => by cases hf⟩
        simp [heq, treeNodeRemoveBalance_self hr.avl, unlinkedNode]
      | node e1 l1 r1 c1 =>
        cases r with
        | null =>
          refine ⟨_, ?_, hl.avl, by simp, by simp only [TreeNode.depth_null] at hb ⊢; omega,
            fun hf => by cases hf⟩
          simp [heq, treeNodeRemoveBalance_self hl.avl, unlinkedNode]
        | node e2 l2 r2 c2 =>
          -- the successor is the first element of the right subtree, and found by its key
          obtain ⟨s, tail, hright⟩ : ∃ s tail, (TreeNode.node e2 l2 r2 c2).toList = s :: tail := by
            cases hr2 : (TreeNode.node e2 l2 r2 c2).toList with
            | nil => simp at hr2
            | cons s tail => exact ⟨s, tail, rfl⟩
          have hsucc : treeNodeLeftmost (.node e2 l2 r2 c2) = some s := by
            rw [treeNodeLeftmost_eq, hright]
            rfl
          have hkey := LawfulCompare.self compare (load s)
          obtain ⟨r', hrem, havl, hlist, hd, -⟩ := ihr hr (load s)
          rw [hright, sortedErase_head hkey] at hlist
          have hfind : sortedFind compare load (load s)
              (TreeNode.node e2 l2 r2 c2).toList = some s :=
            hr.sorted.find_eq (by rw [hright]; exact List.mem_cons_self ..) hkey
          rw [hfind] at hrem
          obtain ⟨t, ht, htavl, htlist, htd⟩ :=
            treeNodeRemoveBalance_right (e := s) 1 hl.avl havl hb hd
          refine ⟨t, ?_, htavl, by rw [htlist, hright, hlist], htd, fun hf => by cases hf⟩
          simp [heq, hsucc, hrem, unlinkedNode, ht]
    · obtain ⟨r', hrem, havl, hlist, hd, hsame⟩ := ihr hr k
      obtain ⟨t, ht, htavl, htlist, htd⟩ :=
        treeNodeRemoveBalance_right (e := e) c hl.avl havl hb hd
      rw [sortedFind_right hs hgt, sortedErase_right hs hgt]
      refine ⟨t, by simp [hgt.not_gt, hgt, hrem, ht], htavl, by rw [htlist, hlist], htd,
        fun hf => ?_⟩
      rw [hsame hf] at ht
      exact Except.ok.inj (ht.symm.trans hself)

/-- `tree_remove` returns the found element, frees its node only, and leaves the
remaining list; an absent key leaves the very same tree. -/
theorem treeRemove_ok {t : TreeNode α} (h : t.WellFormed compare load) (k : κ) :
    ∃ t', treeRemove compare load k t =
        .ok ⟨t', sortedFind compare load k t.toList,
          (sortedFind compare load k t.toList).toList⟩ ∧
      t'.WellFormed compare load ∧ t'.toList = sortedErase compare load k t.toList ∧
      (sortedFind compare load k t.toList = none → t' = t) := by
  obtain ⟨t', hrem, havl, hlist, -, hsame⟩ := treeNodeRemove_spec h k
  refine ⟨t', ?_, ⟨havl, hlist ▸ h.sorted.erase k⟩, hlist, hsame⟩
  rw [treeRemove, hrem, except_bind_ok]
  cases sortedFind compare load k t.toList with
  | none => rfl
  | some e => rfl

/-- `tree_find` finds what the sorted list holds. -/
theorem treeFind_eq {t : TreeNode α} (h : t.WellFormed compare load) (k : κ) :
    treeFind compare load k t = sortedFind compare load k t.toList := by
  induction t with
  | null => rfl
  | node e l r c ihl ihr =>
    obtain ⟨hl, hr⟩ := h.children
    have hs := h.sorted
    simp only [TreeNode.toList_node] at hs ⊢
    rw [treeFind]
    rcases lt_trichotomy (compare k (load e)) 0 with hlt | heq | hgt
    · simp only [hlt.ne, if_false, if_pos hlt]
      rw [ihl hl, sortedFind_left hs hlt]
    · simp only [heq, if_true]
      rw [sortedFind_pivot hs heq]
    · simp only [hgt.ne', if_false, if_neg hgt.not_gt]
      rw [ihr hr, sortedFind_right hs hgt]

end Remove

/-- `tree_last` is the last element in order. -/
theorem treeLast_eq (t : TreeNode α) : treeLast t = t.toList.getLast? := by
  induction t with
  | null => rfl
  | node e l r c _ ihr =>
    cases r with
    | null => simp [treeLast]
    | node e1 l1 r1 c1 =>
      have hne : (TreeNode.node e1 l1 r1 c1).toList ≠ [] := by simp
      obtain ⟨a, tail, hr⟩ := List.exists_cons_of_ne_nil hne
      rw [treeLast, ihr, TreeNode.toList_node e l, hr, List.getLast?_append_of_ne_nil _ (by simp),
        List.getLast?_cons_cons]

/-- The last element has the greatest key. -/
theorem treeLast_some {t : TreeNode α} (h : t.WellFormed compare load) {a : α}
    (ha : treeLast t = some a) :
    a ∈ t.toList ∧ ∀ b ∈ t.toList, b = a ∨ compare (load b) (load a) < 0 := by
  rw [treeLast_eq] at ha
  obtain ⟨before, hlist⟩ := List.getLast?_eq_some_iff.mp ha
  have hsorted := h.sorted
  rw [hlist] at hsorted ⊢
  refine ⟨List.mem_append_right _ List.mem_cons_self, fun b hb => ?_⟩
  rcases List.mem_append.mp hb with hb | hb
  · exact Or.inr ((keySorted_split.mp hsorted).2.2.1 b hb)
  · exact Or.inl (List.mem_singleton.mp hb)

/-- There is a last element unless the tree is empty. -/
theorem treeLast_none {t : TreeNode α} (h : treeLast t = none) : t.toList = [] := by
  rw [treeLast_eq] at h
  exact List.getLast?_eq_none_iff.mp h

/-- The preorder visits every element in order exactly once. -/
theorem TreeNode.preorder_perm (t : TreeNode α) : t.preorder.Perm t.toList := by
  induction t with
  | null => exact List.Perm.refl _
  | node e l r c ihl ihr =>
    exact ((ihl.append ihr).cons e).trans List.perm_middle.symm

/-- `tree_mutate` runs the callback along the preorder, and stops when it stops. -/
theorem treeMutate_eq {σ : Type} (mutate : α → σ → Except Trap σ) (t : TreeNode α) (s : σ) :
    treeMutate mutate t s = t.preorder.foldlM (fun s a => mutate a s) s := by
  unfold treeMutate
  induction t generalizing s with
  | null => rfl
  | node e l r c ihl ihr =>
    rw [treeNodePreorderMutate, TreeNode.preorder, List.foldlM_cons]
    refine bind_congr fun s' => ?_
    rw [List.foldlM_append, ihl]
    exact bind_congr fun s'' => ihr s''

end Cyberd
