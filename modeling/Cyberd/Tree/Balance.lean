import Cyberd.Tree.Node
import Cyberd.Library.Comparator
import Mathlib.Data.Nat.Fib.Basic
import Mathlib.Tactic.Ring

/-!
# Heights and rotations

The balance invariant speaks of true heights and says that the cached ones agree
with them. Insertion keeps it whatever the comparator answers: the key that
chose the branch of a grown subtree chooses its rotation too. The end of a
removal is described for any two balanced subtrees whose heights differ by two.
-/

namespace Cyberd

open Library

variable {α κ : Type}

/-- The elements in order. -/
def TreeNode.toList : TreeNode α → List α
  | .null => []
  | .node element left right _ => left.toList ++ element :: right.toList

/-- The elements in the order of a preorder traversal. -/
def TreeNode.preorder : TreeNode α → List α
  | .null => []
  | .node element left right _ => element :: (left.preorder ++ right.preorder)

/-- The true height, recomputed from the shape. -/
def TreeNode.depth : TreeNode α → Nat
  | .null => 0
  | .node _ left right _ => max left.depth right.depth + 1

/-- Number of nodes. -/
def TreeNode.size : TreeNode α → Nat
  | .null => 0
  | .node _ left right _ => left.size + right.size + 1

@[simp] theorem TreeNode.toList_null : (TreeNode.null : TreeNode α).toList = [] := rfl

@[simp] theorem TreeNode.toList_node (e : α) (l r : TreeNode α) (h : Int) :
    (TreeNode.node e l r h).toList = l.toList ++ e :: r.toList := rfl

@[simp] theorem TreeNode.depth_null : (TreeNode.null : TreeNode α).depth = 0 := rfl

@[simp] theorem TreeNode.depth_node (e : α) (l r : TreeNode α) (h : Int) :
    (TreeNode.node e l r h).depth = max l.depth r.depth + 1 := rfl

/-- The size counts the elements in order. -/
theorem TreeNode.length_toList (t : TreeNode α) : t.toList.length = t.size := by
  induction t with
  | null => rfl
  | node e l r h ihl ihr =>
    simp only [toList_node, List.length_append, List.length_cons, size, ihl, ihr]
    omega

/-- Every cached height is the true one, and the heights of any two siblings
differ by at most one. -/
inductive TreeNode.Avl : TreeNode α → Prop
  | null : Avl .null
  | node {e : α} {l r : TreeNode α} {h : Int} (left : l.Avl) (right : r.Avl)
      (height : h = max l.depth r.depth + 1)
      (balance : l.depth ≤ r.depth + 1 ∧ r.depth ≤ l.depth + 1) : Avl (.node e l r h)

/-- The cached height of a balanced tree is its true height. -/
theorem TreeNode.Avl.height_eq {t : TreeNode α} (h : t.Avl) : treeNodeHeight t = t.depth := by
  cases h with
  | null => rfl
  | node hl hr hh hb => simpa [treeNodeHeight] using hh

/-- The height assigned over balanced trees is the true one. -/
theorem treeNodeHeightOver_eq {l r : TreeNode α} (hl : l.Avl) (hr : r.Avl) :
    treeNodeHeightOver l r = ((max l.depth r.depth : Nat) : Int) + 1 := by
  rw [treeNodeHeightOver, hl.height_eq, hr.height_eq]
  omega

/-- Two balanced trees of close heights make a balanced node. -/
theorem TreeNode.Avl.mk {e : α} {l r : TreeNode α} (hl : l.Avl) (hr : r.Avl)
    (hb : l.depth ≤ r.depth + 1 ∧ r.depth ≤ l.depth + 1) :
    (TreeNode.node e l r (treeNodeHeightOver l r)).Avl :=
  .node hl hr (treeNodeHeightOver_eq hl hr) hb

/-- The freshly assigned height over balanced trees. -/
theorem TreeNode.Avl.update {t : TreeNode α} (h : t.Avl) : treeNodeUpdateHeight t = t := by
  cases h with
  | null => rfl
  | node hl hr hh hb =>
    rw [treeNodeUpdateHeight, treeNodeHeightOver_eq hl hr, hh]

/-- The balance of a node over balanced trees. -/
theorem treeNodeBalance_node {e : α} {l r : TreeNode α} {h : Int} (hl : l.Avl) (hr : r.Avl) :
    treeNodeBalance (.node e l r h) = (r.depth : Int) - l.depth := by
  rw [treeNodeBalance, hl.height_eq, hr.height_eq]

section Rotations

variable {e c : α} {l r l2 r2 : TreeNode α} {h g : Int}

/-- A right rotation of a node with a left child keeps the order, and is
balanced when the outer grandchild is at least as high as the inner one. -/
theorem treeNodeRotateRight_avl (hl2 : l2.Avl) (hr2 : r2.Avl) (hr : r.Avl)
    (hinner : r2.depth ≤ r.depth + 1 ∧ r.depth ≤ r2.depth)
    (houter : l2.depth = r.depth + 1) :
    ∃ t, treeNodeRotateRight (.node e (.node c l2 r2 g) r h) = .ok t ∧ t.Avl ∧
      t.toList = (TreeNode.node e (.node c l2 r2 g) r h).toList ∧
      t.depth = r2.depth + 2 := by
  refine ⟨_, rfl, .mk hl2 (.mk hr2 hr (by omega)) ?_, by simp, ?_⟩
  all_goals simp only [TreeNode.depth_node]; omega

/-- The mirror image of the right rotation. -/
theorem treeNodeRotateLeft_avl (hl : l.Avl) (hl2 : l2.Avl) (hr2 : r2.Avl)
    (hinner : l2.depth ≤ l.depth + 1 ∧ l.depth ≤ l2.depth)
    (houter : r2.depth = l.depth + 1) :
    ∃ t, treeNodeRotateLeft (.node e l (.node c l2 r2 g) h) = .ok t ∧ t.Avl ∧
      t.toList = (TreeNode.node e l (.node c l2 r2 g) h).toList ∧
      t.depth = l2.depth + 2 := by
  refine ⟨_, rfl, .mk (.mk hl hl2 (by omega)) hr2 ?_, by simp, ?_⟩
  all_goals simp only [TreeNode.depth_node]; omega

/-- A double rotation needs the inner grandchild, and always loses one level. -/
theorem treeNodeRotateLeftRight_avl (hl2 : l2.Avl) (hr2 : r2.Avl) (hr : r.Avl)
    (hinner : r2.depth = r.depth + 1) (houter : l2.depth = r.depth) :
    ∃ t, treeNodeRotateLeftRight (.node e (.node c l2 r2 g) r h) = .ok t ∧ t.Avl ∧
      t.toList = (TreeNode.node e (.node c l2 r2 g) r h).toList ∧
      t.depth = r.depth + 2 := by
  cases hr2 with
  | null => simp at hinner
  | @node e3 a b h3 ha hb hh3 hab =>
    simp only [TreeNode.depth_node] at hinner
    refine ⟨_, rfl, .mk (.mk hl2 ha (by omega)) (.mk hb hr (by omega)) ?_, by simp, ?_⟩
    all_goals simp only [TreeNode.depth_node]; omega

/-- The mirror image of the double rotation. -/
theorem treeNodeRotateRightLeft_avl (hl : l.Avl) (hl2 : l2.Avl) (hr2 : r2.Avl)
    (hinner : l2.depth = l.depth + 1) (houter : r2.depth = l.depth) :
    ∃ t, treeNodeRotateRightLeft (.node e l (.node c l2 r2 g) h) = .ok t ∧ t.Avl ∧
      t.toList = (TreeNode.node e l (.node c l2 r2 g) h).toList ∧
      t.depth = l.depth + 2 := by
  cases hl2 with
  | null => simp at hinner
  | @node e3 a b h3 ha hb hh3 hab =>
    simp only [TreeNode.depth_node] at hinner
    refine ⟨_, rfl, .mk (.mk hl ha (by omega)) (.mk hb hr2 (by omega)) ?_, by simp, ?_⟩
    all_goals simp only [TreeNode.depth_node]; omega

end Rotations

section Insert

variable (compare : κ → κ → Int) (load : α → κ)

/-- A tree that has just grown is a leaf, or leans where the key was put. -/
def TreeNode.GrewTowards (x : α) : TreeNode α → Prop
  | .null => False
  | .node e l r _ => (l = .null ∧ r = .null) ∨
    (compare (load x) (load e) < 0 ∧ l.depth = r.depth + 1) ∨
    (0 < compare (load x) (load e) ∧ r.depth = l.depth + 1)

variable {compare load} {x e : α} {l r : TreeNode α}

/-- An insertion into the left subtree is rebalanced to the former height, or
leans to the left when it grows the tree. -/
theorem treeNodeInsertBalanceLeft_avl {l' : TreeNode α} (h : Int) (hl : l'.Avl) (hr : r.Avl)
    (hb : l.depth ≤ r.depth + 1 ∧ r.depth ≤ l.depth + 1)
    (hx : compare (load x) (load e) < 0)
    (hd : l'.depth = l.depth ∨ l'.depth = l.depth + 1 ∧ l'.GrewTowards compare load x) :
    ∃ t, treeNodeInsertBalanceLeft compare load x e l' r h = .ok t ∧
      (treeNodeUpdateHeight t).Avl ∧
      (treeNodeUpdateHeight t).toList = l'.toList ++ e :: r.toList ∧
      ((treeNodeUpdateHeight t).depth = max l.depth r.depth + 1 ∨
        (treeNodeUpdateHeight t).depth = max l.depth r.depth + 2 ∧
        (treeNodeUpdateHeight t).GrewTowards compare load x) := by
  unfold treeNodeInsertBalanceLeft
  rw [treeNodeBalance_node hl hr]
  by_cases hrot : (r.depth : Int) - l'.depth = -2
  · rw [if_pos hrot]
    obtain ⟨hd', hgrew⟩ : l'.depth = l.depth + 1 ∧ l'.GrewTowards compare load x :=
      hd.resolve_left (by omega)
    cases hl with
    | null => simp at hd'
    | @node e2 l2 r2 h2 hl2 hr2 hh2 hb2 =>
      simp only [TreeNode.depth_node] at hd' hrot
      obtain ⟨rfl, rfl⟩ | ⟨hlt, hlean⟩ | ⟨hgt, hlean⟩ := hgrew
      · simp at hrot; omega
      · obtain ⟨t, ht, havl, hlist, hdepth⟩ := treeNodeRotateRight_avl (e := e) (c := e2)
          (h := h) (g := h2) hl2 hr2 hr (by omega) (by omega)
        refine ⟨t, by simpa only [if_pos hlt] using ht, ?_⟩
        rw [havl.update]
        exact ⟨havl, by simpa using hlist, Or.inl (by omega)⟩
      · obtain ⟨t, ht, havl, hlist, hdepth⟩ := treeNodeRotateLeftRight_avl (e := e) (c := e2)
          (h := h) (g := h2) hl2 hr2 hr (by omega) (by omega)
        refine ⟨t, by simpa only [if_neg (not_lt.mpr hgt.le)] using ht, ?_⟩
        rw [havl.update]
        exact ⟨havl, by simpa using hlist, Or.inl (by omega)⟩
  · rw [if_neg hrot]
    refine ⟨_, rfl, .mk hl hr (by omega), rfl, ?_⟩
    simp only [treeNodeUpdateHeight, TreeNode.depth_node, TreeNode.GrewTowards]
    rcases hd with hd | ⟨hd, -⟩
    · exact Or.inl (by omega)
    · by_cases hlean : l.depth = r.depth
      · exact Or.inr ⟨by omega, Or.inr (Or.inl ⟨hx, by omega⟩)⟩
      · exact Or.inl (by omega)

/-- The mirror image for an insertion into the right subtree. -/
theorem treeNodeInsertBalanceRight_avl {r' : TreeNode α} (h : Int) (hl : l.Avl) (hr : r'.Avl)
    (hb : l.depth ≤ r.depth + 1 ∧ r.depth ≤ l.depth + 1)
    (hx : 0 < compare (load x) (load e))
    (hd : r'.depth = r.depth ∨ r'.depth = r.depth + 1 ∧ r'.GrewTowards compare load x) :
    ∃ t, treeNodeInsertBalanceRight compare load x e l r' h = .ok t ∧
      (treeNodeUpdateHeight t).Avl ∧
      (treeNodeUpdateHeight t).toList = l.toList ++ e :: r'.toList ∧
      ((treeNodeUpdateHeight t).depth = max l.depth r.depth + 1 ∨
        (treeNodeUpdateHeight t).depth = max l.depth r.depth + 2 ∧
        (treeNodeUpdateHeight t).GrewTowards compare load x) := by
  unfold treeNodeInsertBalanceRight
  rw [treeNodeBalance_node hl hr]
  by_cases hrot : (r'.depth : Int) - l.depth = 2
  · rw [if_pos hrot]
    obtain ⟨hd', hgrew⟩ : r'.depth = r.depth + 1 ∧ r'.GrewTowards compare load x :=
      hd.resolve_left (by omega)
    cases hr with
    | null => simp at hd'
    | @node e2 l2 r2 h2 hl2 hr2 hh2 hb2 =>
      simp only [TreeNode.depth_node] at hd' hrot
      obtain ⟨rfl, rfl⟩ | ⟨hlt, hlean⟩ | ⟨hgt, hlean⟩ := hgrew
      · simp at hrot; omega
      · obtain ⟨t, ht, havl, hlist, hdepth⟩ := treeNodeRotateRightLeft_avl (e := e) (c := e2)
          (h := h) (g := h2) hl hl2 hr2 (by omega) (by omega)
        refine ⟨t, by simpa only [if_neg (not_lt.mpr hlt.le)] using ht, ?_⟩
        rw [havl.update]
        exact ⟨havl, by simpa using hlist, Or.inl (by omega)⟩
      · obtain ⟨t, ht, havl, hlist, hdepth⟩ := treeNodeRotateLeft_avl (e := e) (c := e2)
          (h := h) (g := h2) hl hl2 hr2 (by omega) (by omega)
        refine ⟨t, by simpa only [if_pos hgt] using ht, ?_⟩
        rw [havl.update]
        exact ⟨havl, by simpa using hlist, Or.inl (by omega)⟩
  · rw [if_neg hrot]
    refine ⟨_, rfl, .mk hl hr (by omega), rfl, ?_⟩
    simp only [treeNodeUpdateHeight, TreeNode.depth_node, TreeNode.GrewTowards]
    rcases hd with hd | ⟨hd, -⟩
    · exact Or.inl (by omega)
    · by_cases hlean : l.depth = r.depth
      · exact Or.inr ⟨by omega, Or.inr (Or.inr ⟨hx, by omega⟩)⟩
      · exact Or.inl (by omega)

end Insert

/-- Both asserts hold over balanced children, whatever their heights. -/
theorem treeNodeRemoveBalance_asserts {e : α} {l r : TreeNode α} (h : Int) (hl : l.Avl)
    (hr : r.Avl) :
    treeNodeRemoveBalance (.node e l r h) =
      if 1 < (r.depth : Int) - l.depth then
        if 0 ≤ treeNodeBalance r then treeNodeRotateLeft (.node e l r (treeNodeHeightOver l r))
        else treeNodeRotateRightLeft (.node e l r (treeNodeHeightOver l r))
      else if (r.depth : Int) - l.depth < -1 then
        if treeNodeBalance l ≤ 0 then treeNodeRotateRight (.node e l r (treeNodeHeightOver l r))
        else treeNodeRotateLeftRight (.node e l r (treeNodeHeightOver l r))
      else .ok (.node e l r (treeNodeHeightOver l r)) := by
  have hleft : ¬ (l.isNull ∧ (r.depth : Int) - l.depth < 0) := by
    rintro ⟨hn, hlt⟩
    cases l with
    | null => simp only [TreeNode.depth_null] at hlt; omega
    | node => cases hn
  have hright : ¬ (r.isNull ∧ 0 < (r.depth : Int) - l.depth) := by
    rintro ⟨hn, hlt⟩
    cases r with
    | null => simp only [TreeNode.depth_null] at hlt; omega
    | node => cases hn
  simp only [treeNodeRemoveBalance, hl.height_eq, hr.height_eq, if_neg hleft, if_neg hright]

/-- The end of a removal over two balanced subtrees whose heights differ by at
most two: the rotation finds its grandchild, the order is kept, and the height
is the one before the removal or one less. -/
theorem treeNodeRemoveBalance_avl {e : α} {l r : TreeNode α} (h : Int) (hl : l.Avl) (hr : r.Avl)
    (hb : l.depth ≤ r.depth + 2 ∧ r.depth ≤ l.depth + 2) :
    ∃ t, treeNodeRemoveBalance (.node e l r h) = .ok t ∧ t.Avl ∧
      t.toList = l.toList ++ e :: r.toList ∧
      (t.depth = max l.depth r.depth + 1 ∨
        t.depth = max l.depth r.depth ∧ ¬ (l.depth ≤ r.depth + 1 ∧ r.depth ≤ l.depth + 1)) := by
  rw [treeNodeRemoveBalance_asserts h hl hr]
  by_cases hright : 1 < (r.depth : Int) - l.depth
  · rw [if_pos hright]
    cases hr with
    | null => simp only [TreeNode.depth_null] at hright; omega
    | @node e2 l2 r2 h2 hl2 hr2 hh2 hb2 =>
      simp only [TreeNode.depth_node] at hright hb
      rw [treeNodeBalance_node hl2 hr2]
      by_cases hlean : (0 : Int) ≤ (r2.depth : Int) - l2.depth
      · obtain ⟨t, ht, havl, hlist, hdepth⟩ := treeNodeRotateLeft_avl (e := e) (c := e2)
          (h := treeNodeHeightOver l (.node e2 l2 r2 h2)) (g := h2) hl hl2 hr2
          (by omega) (by omega)
        refine ⟨t, by rw [if_pos hlean, ht], havl, by simpa using hlist, ?_⟩
        simp only [TreeNode.depth_node]
        omega
      · obtain ⟨t, ht, havl, hlist, hdepth⟩ := treeNodeRotateRightLeft_avl (e := e) (c := e2)
          (h := treeNodeHeightOver l (.node e2 l2 r2 h2)) (g := h2) hl hl2 hr2
          (by omega) (by omega)
        refine ⟨t, by rw [if_neg hlean, ht], havl, by simpa using hlist, ?_⟩
        simp only [TreeNode.depth_node]
        omega
  · rw [if_neg hright]
    by_cases hleft : (r.depth : Int) - l.depth < -1
    · rw [if_pos hleft]
      cases hl with
      | null => simp only [TreeNode.depth_null] at hleft; omega
      | @node e2 l2 r2 h2 hl2 hr2 hh2 hb2 =>
        simp only [TreeNode.depth_node] at hleft hb
        rw [treeNodeBalance_node hl2 hr2]
        by_cases hlean : (r2.depth : Int) - l2.depth ≤ 0
        · obtain ⟨t, ht, havl, hlist, hdepth⟩ := treeNodeRotateRight_avl (e := e) (c := e2)
            (h := treeNodeHeightOver (.node e2 l2 r2 h2) r) (g := h2) hl2 hr2 hr
            (by omega) (by omega)
          refine ⟨t, by rw [if_pos hlean, ht], havl, by simpa using hlist, ?_⟩
          simp only [TreeNode.depth_node]
          omega
        · obtain ⟨t, ht, havl, hlist, hdepth⟩ := treeNodeRotateLeftRight_avl (e := e) (c := e2)
            (h := treeNodeHeightOver (.node e2 l2 r2 h2) r) (g := h2) hl2 hr2 hr
            (by omega) (by omega)
          refine ⟨t, by rw [if_neg hlean, ht], havl, by simpa using hlist, ?_⟩
          simp only [TreeNode.depth_node]
          omega
    · rw [if_neg hleft]
      exact ⟨_, rfl, .mk hl hr (by omega), rfl, Or.inl rfl⟩

/-- A removal that changed nothing below changes nothing here. -/
theorem treeNodeRemoveBalance_self {t : TreeNode α} (h : t.Avl) :
    treeNodeRemoveBalance t = .ok t := by
  cases h with
  | null => rfl
  | @node e l r c hl hr hh hb =>
    rw [treeNodeRemoveBalance_asserts c hl hr, if_neg (by omega), if_neg (by omega)]
    exact congrArg Except.ok (TreeNode.Avl.node hl hr hh hb).update

/-- A balanced tree of height `h` holds at least `fib (h + 2) - 1` elements. -/
theorem TreeNode.Avl.fib_le_size {t : TreeNode α} (h : t.Avl) :
    Nat.fib (t.depth + 2) ≤ t.size + 1 := by
  induction h with
  | null => simp [size]
  | @node e l r c hl hr hh hb ihl ihr =>
    simp only [depth_node, size]
    rw [show max l.depth r.depth + 1 + 2 = (max l.depth r.depth + 1) + 2 from rfl,
      Nat.fib_add_two]
    rcases le_total l.depth r.depth with hle | hle
    · rw [max_eq_right hle]
      have hmono : Nat.fib (r.depth + 1) ≤ Nat.fib (l.depth + 2) := Nat.fib_mono (by omega)
      have : r.depth + 1 + 1 = r.depth + 2 := rfl
      rw [this]
      omega
    · rw [max_eq_left hle]
      have hmono : Nat.fib (l.depth + 1) ≤ Nat.fib (r.depth + 2) := Nat.fib_mono (by omega)
      have : l.depth + 1 + 1 = l.depth + 2 := rfl
      rw [this]
      omega

end Cyberd
