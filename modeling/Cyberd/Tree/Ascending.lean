import Cyberd.Tree.Order

/-!
# Insertions in order

Elements inserted in ascending order leave a tree whose right spine carries
perfect subtrees: going down the spine, each left subtree is full and its depth
is that of the right subtree or one less. Such a tree is as low as its size
allows. Descending insertions are ascending ones in the mirror.
-/

namespace Cyberd

open Library

variable {α κ : Type}

/-- Every level of the tree is full. -/
inductive TreeNode.Perfect : Nat → TreeNode α → Prop
  | null : Perfect 0 .null
  | node {depth : Nat} {e : α} {l r : TreeNode α} {h : Int} (left : l.Perfect depth)
      (right : r.Perfect depth) : Perfect (depth + 1) (.node e l r h)

/-- The shape of a tree built in ascending order: perfect subtrees hang to the
left of the right spine, at most one level lower than what is right of them. -/
inductive TreeNode.Ascending : Nat → TreeNode α → Prop
  | null : Ascending 0 .null
  | node {depth spine : Nat} {e : α} {l r : TreeNode α} {h : Int} (left : l.Perfect depth)
      (right : r.Ascending spine) (lean : spine = depth ∨ spine = depth + 1) :
      Ascending (spine + 1) (.node e l r h)

/-- The index of a perfect tree is its depth. -/
theorem TreeNode.Perfect.depth_eq {depth : Nat} {t : TreeNode α} (h : t.Perfect depth) :
    t.depth = depth := by
  induction h with
  | null => rfl
  | node _ _ ihl ihr => rw [depth_node, ihl, ihr, Nat.max_self]

/-- The index of an ascending tree is its depth. -/
theorem TreeNode.Ascending.depth_eq {depth : Nat} {t : TreeNode α} (h : t.Ascending depth) :
    t.depth = depth := by
  induction h with
  | null => rfl
  | node hl _ lean ihr =>
    rw [depth_node, hl.depth_eq, ihr]
    omega

/-- A perfect tree lacks one element of a power of two. -/
theorem TreeNode.Perfect.size_add_one {depth : Nat} {t : TreeNode α} (h : t.Perfect depth) :
    t.size + 1 = 2 ^ depth := by
  induction h with
  | null => rfl
  | node _ _ ihl ihr =>
    rw [size, Nat.pow_succ]
    omega

/-- An ascending tree of one level more has room for its last level only. -/
theorem TreeNode.Ascending.size_bounds {depth : Nat} {t : TreeNode α} (h : t.Ascending depth) :
    2 ^ depth ≤ 2 * t.size + 1 ∧ t.size + 1 ≤ 2 ^ depth := by
  induction h with
  | null => exact ⟨Nat.le_refl _, Nat.le_refl _⟩
  | node hl _ lean ihr =>
    have hsize := hl.size_add_one
    rcases lean with rfl | rfl
    · rw [size, Nat.pow_succ]
      omega
    · rw [Nat.pow_succ] at ihr
      rw [size, Nat.pow_succ, Nat.pow_succ]
      omega

/-- The depth of an ascending tree is the least one for its size. -/
theorem TreeNode.Ascending.depth_eq_log2 {depth : Nat} {t : TreeNode α} (h : t.Ascending depth)
    (hne : t.size ≠ 0) : t.depth = Nat.log2 t.size + 1 := by
  obtain ⟨hlow, hhigh⟩ := h.size_bounds
  rw [h.depth_eq]
  cases depth with
  | zero => omega
  | succ depth =>
    rw [Nat.pow_succ] at hlow hhigh
    have hlog : Nat.log2 t.size = depth :=
      (Nat.log2_eq_iff hne).mpr ⟨by omega, by rw [Nat.pow_succ]; omega⟩
    rw [hlog]

/-- A tree that has just grown from the given depth: a leaf, or a node whose
right side is now one level higher than its left one. -/
inductive TreeNode.LeansRight : Nat → TreeNode α → Prop
  | leaf {e : α} {h : Int} : LeansRight 0 (.node e .null .null h)
  | node {depth : Nat} {e : α} {l r : TreeNode α} {h : Int} (left : l.Perfect depth)
      (right : r.Ascending (depth + 1)) : LeansRight (depth + 1) (.node e l r h)

/-- A tree that leans to the right is still ascending. -/
theorem TreeNode.LeansRight.ascending {depth : Nat} {t : TreeNode α} (h : t.LeansRight depth) :
    t.Ascending (depth + 1) := by
  cases h with
  | leaf => exact .node .null .null (Or.inl rfl)
  | node hl hr => exact .node hl hr (Or.inr rfl)

/-- The new height of the root changes nothing of the shape. -/
theorem TreeNode.Ascending.update {depth : Nat} {t : TreeNode α} (h : t.Ascending depth) :
    (treeNodeUpdateHeight t).Ascending depth := by
  cases h with
  | null => exact .null
  | node hl hr lean => exact .node hl hr lean

/-- The left rotation of a node whose right child has grown by one level. -/
theorem treeNodeRotateLeft_ascending {depth : Nat} {e : α} {l r : TreeNode α} {h : Int}
    (hl : l.Perfect depth) (hr : r.LeansRight (depth + 1)) :
    ∃ t, treeNodeRotateLeft (.node e l r h) = .ok t ∧ t.Ascending (depth + 2) := by
  cases hr with
  | node hl2 hr2 => exact ⟨_, rfl, .node (.node hl hl2) hr2 (Or.inl rfl)⟩

section Insert

variable {compare : κ → κ → Int} {load : α → κ}

/-- A tree that has grown towards a key and leans to the right has its root
below this key. -/
theorem TreeNode.LeansRight.root_lt {depth : Nat} {x e : α} {l r : TreeNode α} {h : Int}
    (hlean : (TreeNode.node e l r h).LeansRight (depth + 1))
    (hgrew : (TreeNode.node e l r h).GrewTowards compare load x) :
    0 < compare (load x) (load e) := by
  cases hlean with
  | node hl hr =>
    have hdl := hl.depth_eq
    have hdr := hr.depth_eq
    rcases hgrew with ⟨-, rfl⟩ | ⟨-, hd⟩ | ⟨hx, -⟩
    · rw [depth_null] at hdr
      omega
    · omega
    · exact hx

/-- The end of an insertion that went to the right of an ascending node: a right
subtree that has grown too high is rotated onto the perfect one. -/
theorem treeNodeInsertBalanceRight_ascending {depth spine : Nat} {x e : α}
    {l r' : TreeNode α} (h : Int) (hl : l.Perfect depth) (hlavl : l.Avl) (hravl : r'.Avl)
    (lean : spine = depth ∨ spine = depth + 1)
    (hr : r'.Ascending spine ∨ r'.LeansRight spine ∧ r'.GrewTowards compare load x) :
    ∃ t, treeNodeInsertBalanceRight compare load x e l r' h = .ok t ∧
      ((treeNodeUpdateHeight t).Ascending (spine + 1) ∨
        (treeNodeUpdateHeight t).LeansRight (spine + 1)) := by
  unfold treeNodeInsertBalanceRight
  rw [treeNodeBalance_node hlavl hravl, hl.depth_eq]
  rcases hr with hr | ⟨hlean, hgrew⟩
  · rw [hr.depth_eq, if_neg (by omega)]
    exact ⟨_, rfl, Or.inl (.node hl hr lean)⟩
  · rw [hlean.ascending.depth_eq]
    rcases lean with rfl | rfl
    · rw [if_neg (by omega)]
      exact ⟨_, rfl, Or.inr (.node hl hlean.ascending)⟩
    · rw [if_pos (by omega)]
      obtain ⟨t, ht, hshape⟩ := treeNodeRotateLeft_ascending (e := e) (h := h) hl hlean
      cases r' with
      | null => cases hlean
      | node e2 l2 r2 h2 =>
        refine ⟨t, ?_, Or.inl hshape.update⟩
        simpa only [if_pos (hlean.root_lt hgrew)] using ht

variable [LawfulCompare compare]

/-- Inserting a greatest element keeps the ascending shape. -/
theorem treeNodeInsert_ascending {depth : Nat} {t : TreeNode α} (h : t.WellFormed compare load)
    (hshape : t.Ascending depth) {x : α}
    (hx : ∀ a ∈ t.toList, compare (load a) (load x) < 0) :
    ∃ t', treeNodeInsert compare load x t = .ok t' ∧
      (t'.Ascending depth ∨ t'.LeansRight depth) := by
  induction hshape with
  | null => exact ⟨_, rfl, Or.inr .leaf⟩
  | @node depth spine e l r c hl hr lean ihr =>
    obtain ⟨hwl, hwr⟩ := h.children
    have hgt : 0 < compare (load x) (load e) :=
      (LawfulCompare.swap compare _ _).mp (hx e (by simp))
    have hxr : ∀ a ∈ r.toList, compare (load a) (load x) < 0 := fun a ha => hx a (by simp [ha])
    obtain ⟨r', hi, hgrown⟩ := ihr hwr hxr
    rcases treeNodeInsert_spec hwr x with ⟨-, hstop⟩ | ⟨-, r'', hi', havl, -, hd⟩
    · rw [hi] at hstop
      cases hstop
    · obtain rfl : r' = r'' := by
        rw [hi] at hi'
        exact Except.ok.inj hi'
      have hr' : r'.Ascending spine ∨ r'.LeansRight spine ∧ r'.GrewTowards compare load x := by
        rcases hgrown with hsame | hlean
        · exact Or.inl hsame
        · refine Or.inr ⟨hlean, (hd.resolve_left ?_).2⟩
          rw [hlean.ascending.depth_eq, hr.depth_eq]
          omega
      obtain ⟨t, ht, hout⟩ :=
        treeNodeInsertBalanceRight_ascending (e := e) c hl hwl.avl havl lean hr'
      refine ⟨_, ?_, hout⟩
      simp only [treeNodeInsert, if_neg hgt.not_gt, if_pos hgt]
      rw [hi, except_bind_ok, ht, except_bind_ok, except_pure]

end Insert

section Runs

variable (compare : κ → κ → Int) (load : α → κ)

/-- The elements inserted one after the other. -/
def treeInsertAll (elements : List α) (root : TreeNode α) : Except Trap (TreeNode α) :=
  elements.foldlM (fun root element => treeInsert compare load element root) root

end Runs

section Ascending

variable {compare : κ → κ → Int} [LawfulCompare compare] {load : α → κ}

/-- Elements that follow those of an ascending tree are all inserted, and the
tree stays ascending. -/
theorem treeInsertAll_ascending {elements : List α} {depth : Nat} {t : TreeNode α}
    (h : t.Avl) (hshape : t.Ascending depth)
    (hsorted : KeySorted compare load (t.toList ++ elements)) :
    ∃ t' depth', treeInsertAll compare load elements t = .ok t' ∧ t'.Avl ∧
      t'.Ascending depth' ∧ t'.toList = t.toList ++ elements := by
  induction elements generalizing depth t with
  | nil => exact ⟨t, depth, rfl, h, hshape, by simp⟩
  | cons x elements ih =>
    obtain ⟨hleft, -, hx, -, -⟩ := keySorted_split.mp hsorted
    have hwf : t.WellFormed compare load := ⟨h, hleft⟩
    obtain ⟨t₁, hi, hshape₁⟩ := treeNodeInsert_ascending hwf hshape hx
    have hnew : ∀ a ∈ t.toList, compare (load x) (load a) ≠ 0 := fun a ha => by
      have hgt := (LawfulCompare.swap compare _ _).mp (hx a ha)
      omega
    obtain ⟨t₂, hi₂, hwf₂, hlist⟩ := treeInsert_ok hwf hnew
    obtain rfl : t₁ = t₂ := by
      rw [treeInsert, hi] at hi₂
      exact Except.ok.inj hi₂
    obtain ⟨depth₁, hshape₁⟩ : ∃ depth₁, t₁.Ascending depth₁ :=
      hshape₁.elim (fun hs => ⟨_, hs⟩) fun hs => ⟨_, hs.ascending⟩
    have hlast : t₁.toList = t.toList ++ [x] := by
      rw [hlist]
      exact sortedInsert_last hx
    have hsorted₁ : KeySorted compare load (t₁.toList ++ elements) := by
      simpa [hlast] using hsorted
    obtain ⟨t', depth', hall, havl, hshape', hlist'⟩ := ih hwf₂.avl hshape₁ hsorted₁
    refine ⟨t', depth', ?_, havl, hshape', by simp [hlist', hlast]⟩
    rw [treeInsertAll, List.foldlM_cons, hi₂, except_bind_ok]
    exact hall

/-- Ascending insertions into the empty tree leave the least height. -/
theorem treeInsertAll_height {elements : List α} (hne : elements ≠ [])
    (hsorted : KeySorted compare load elements) :
    ∃ t, treeInsertAll compare load elements .null = .ok t ∧ t.toList = elements ∧
      treeNodeHeight t = Nat.log2 elements.length + 1 := by
  obtain ⟨t, depth, hall, havl, hshape, hlist⟩ :=
    treeInsertAll_ascending .null .null (by simpa using hsorted)
  have hsize : t.size = elements.length := by
    rw [← t.length_toList, hlist]
    rfl
  refine ⟨t, hall, hlist, ?_⟩
  rw [havl.height_eq, hshape.depth_eq_log2, hsize]
  · omega
  · rw [hsize]
    exact fun hlen => hne (List.length_eq_zero_iff.mp hlen)

end Ascending

/-- The tree with the sides of every node exchanged. -/
def TreeNode.mirror : TreeNode α → TreeNode α
  | .null => .null
  | .node element left right height => .node element right.mirror left.mirror height

@[simp] theorem TreeNode.mirror_null : (TreeNode.null : TreeNode α).mirror = .null := rfl

@[simp] theorem TreeNode.mirror_node (e : α) (l r : TreeNode α) (h : Int) :
    (TreeNode.node e l r h).mirror = .node e r.mirror l.mirror h := rfl

@[simp] theorem treeNodeHeight_node (e : α) (l r : TreeNode α) (h : Int) :
    treeNodeHeight (.node e l r h) = h := rfl

@[simp] theorem treeNodeHeight_mirror (t : TreeNode α) :
    treeNodeHeight t.mirror = treeNodeHeight t := by
  cases t <;> rfl

/-- The height over both children does not depend on their sides. -/
@[simp] theorem treeNodeHeightOver_mirror (l r : TreeNode α) :
    treeNodeHeightOver l.mirror r.mirror = treeNodeHeightOver r l := by
  rw [treeNodeHeightOver, treeNodeHeightOver, treeNodeHeight_mirror, treeNodeHeight_mirror,
    max_comm]

@[simp] theorem treeNodeUpdateHeight_mirror (t : TreeNode α) :
    treeNodeUpdateHeight t.mirror = (treeNodeUpdateHeight t).mirror := by
  cases t with
  | null => rfl
  | node e l r h => simp [treeNodeUpdateHeight]

@[simp] theorem treeNodeBalance_mirror (t : TreeNode α) :
    treeNodeBalance t.mirror = -treeNodeBalance t := by
  cases t with
  | null => rfl
  | node e l r h => simp [treeNodeBalance]

/-- A left rotation is a right rotation in the mirror. -/
theorem treeNodeRotateLeft_mirror (t : TreeNode α) :
    treeNodeRotateLeft t.mirror = TreeNode.mirror <$> treeNodeRotateRight t := by
  rcases t with _ | ⟨e, _ | ⟨e2, l2, r2, h2⟩, r, h⟩
  · rfl
  · rfl
  · simp [treeNodeRotateLeft, treeNodeRotateRight, treeNodeHeightOver, max_comm]

/-- A right rotation is a left rotation in the mirror. -/
theorem treeNodeRotateRight_mirror (t : TreeNode α) :
    treeNodeRotateRight t.mirror = TreeNode.mirror <$> treeNodeRotateLeft t := by
  rcases t with _ | ⟨e, l, _ | ⟨e2, l2, r2, h2⟩, h⟩
  · rfl
  · rfl
  · simp [treeNodeRotateLeft, treeNodeRotateRight, treeNodeHeightOver, max_comm]

/-- The double rotations are mirror images too. -/
theorem treeNodeRotateRightLeft_mirror (t : TreeNode α) :
    treeNodeRotateRightLeft t.mirror = TreeNode.mirror <$> treeNodeRotateLeftRight t := by
  cases t with
  | null => rfl
  | node e l r h =>
    rw [TreeNode.mirror_node, treeNodeRotateRightLeft, treeNodeRotateLeftRight,
      treeNodeRotateRight_mirror]
    cases treeNodeRotateLeft l with
    | error s => rfl
    | ok l' => exact treeNodeRotateLeft_mirror (.node e l' r h)

/-- The double rotations, the other way. -/
theorem treeNodeRotateLeftRight_mirror (t : TreeNode α) :
    treeNodeRotateLeftRight t.mirror = TreeNode.mirror <$> treeNodeRotateRightLeft t := by
  cases t with
  | null => rfl
  | node e l r h =>
    rw [TreeNode.mirror_node, treeNodeRotateRightLeft, treeNodeRotateLeftRight,
      treeNodeRotateLeft_mirror]
    cases treeNodeRotateRight r with
    | error s => rfl
    | ok r' => exact treeNodeRotateRight_mirror (.node e l r' h)

section Mirror

variable {compare : κ → κ → Int} {load : α → κ} {x : α}

/-- Rebalancing to the right in the mirror, under the opposite order. -/
theorem treeNodeInsertBalanceRight_mirror (e : α) (l r : TreeNode α) (h : Int) :
    treeNodeInsertBalanceRight (compareNeg compare) load x e r.mirror l.mirror h =
      TreeNode.mirror <$> treeNodeInsertBalanceLeft compare load x e l r h := by
  unfold treeNodeInsertBalanceRight treeNodeInsertBalanceLeft
  rw [← TreeNode.mirror_node, treeNodeBalance_mirror]
  by_cases hrot : treeNodeBalance (.node e l r h) = -2
  · rw [if_pos hrot, if_pos (by omega)]
    cases l with
    | null => rfl
    | node e2 l2 r2 h2 =>
      simp only [TreeNode.mirror_node, compareNeg, Left.neg_pos_iff]
      split
      · exact treeNodeRotateLeft_mirror (.node e (.node e2 l2 r2 h2) r h)
      · exact treeNodeRotateRightLeft_mirror (.node e (.node e2 l2 r2 h2) r h)
  · rw [if_neg hrot, if_neg (by omega)]
    rfl

/-- Rebalancing to the left in the mirror, under the opposite order. -/
theorem treeNodeInsertBalanceLeft_mirror (e : α) (l r : TreeNode α) (h : Int) :
    treeNodeInsertBalanceLeft (compareNeg compare) load x e r.mirror l.mirror h =
      TreeNode.mirror <$> treeNodeInsertBalanceRight compare load x e l r h := by
  unfold treeNodeInsertBalanceRight treeNodeInsertBalanceLeft
  rw [← TreeNode.mirror_node, treeNodeBalance_mirror]
  by_cases hrot : treeNodeBalance (.node e l r h) = 2
  · rw [if_pos hrot, if_pos (by omega)]
    cases r with
    | null => rfl
    | node e2 l2 r2 h2 =>
      simp only [TreeNode.mirror_node, compareNeg, Left.neg_neg_iff]
      split
      · exact treeNodeRotateRight_mirror (.node e l (.node e2 l2 r2 h2) h)
      · exact treeNodeRotateLeftRight_mirror (.node e l (.node e2 l2 r2 h2) h)
  · rw [if_neg hrot, if_neg (by omega)]
    rfl

/-- An insertion is the same in the mirror, under the opposite order. -/
theorem treeNodeInsert_mirror (t : TreeNode α) :
    treeNodeInsert (compareNeg compare) load x t.mirror =
      TreeNode.mirror <$> treeNodeInsert compare load x t := by
  induction t with
  | null => rfl
  | node e l r h ihl ihr =>
    simp only [TreeNode.mirror_node, treeNodeInsert, compareNeg, Left.neg_neg_iff,
      Left.neg_pos_iff]
    rcases lt_trichotomy (compare (load x) (load e)) 0 with hlt | heq | hgt
    · rw [if_neg hlt.not_gt, if_pos hlt, if_pos hlt, ihl]
      cases treeNodeInsert compare load x l with
      | error s => rfl
      | ok l' =>
        simp only [except_map_ok, except_bind_ok, treeNodeInsertBalanceRight_mirror]
        cases treeNodeInsertBalanceLeft compare load x e l' r h with
        | error s => rfl
        | ok t => exact congrArg Except.ok (treeNodeUpdateHeight_mirror t)
    · rw [heq]
      rfl
    · rw [if_pos hgt, if_neg hgt.not_gt, if_pos hgt, ihr]
      cases treeNodeInsert compare load x r with
      | error s => rfl
      | ok r' =>
        simp only [except_map_ok, except_bind_ok, treeNodeInsertBalanceLeft_mirror]
        cases treeNodeInsertBalanceRight compare load x e l r' h with
        | error s => rfl
        | ok t => exact congrArg Except.ok (treeNodeUpdateHeight_mirror t)

/-- A run of insertions is the same in the mirror, under the opposite order. -/
theorem treeInsertAll_mirror (elements : List α) (t : TreeNode α) :
    treeInsertAll (compareNeg compare) load elements t.mirror =
      TreeNode.mirror <$> treeInsertAll compare load elements t := by
  induction elements generalizing t with
  | nil => rfl
  | cons x elements ih =>
    simp only [treeInsertAll, List.foldlM_cons, treeInsert, treeNodeInsert_mirror] at ih ⊢
    cases treeNodeInsert compare load x t with
    | error s => rfl
    | ok t' => exact ih t'

end Mirror

section Height

variable {compare : κ → κ → Int} [LawfulCompare compare] {load : α → κ}

/-- Elements inserted in ascending order, or in descending order, into an empty
tree leave the least height for their number. -/
theorem treeInsertAll_minimal {elements : List α} (hne : elements ≠ [])
    (hsorted : KeySorted compare load elements ∨ KeySorted compare load elements.reverse) :
    ∃ t, treeInsertAll compare load elements .null = .ok t ∧
      treeNodeHeight t = Nat.log2 elements.length + 1 := by
  rcases hsorted with hup | hdown
  · obtain ⟨t, hall, -, hheight⟩ := treeInsertAll_height hne hup
    exact ⟨t, hall, hheight⟩
  · obtain ⟨t, hall, -, hheight⟩ :=
      treeInsertAll_height hne (keySorted_compareNeg.mpr hdown)
    have hmirror : treeInsertAll (compareNeg compare) load elements .null =
        TreeNode.mirror <$> treeInsertAll compare load elements .null :=
      treeInsertAll_mirror elements .null
    rw [hall] at hmirror
    cases hrun : treeInsertAll compare load elements .null with
    | error s =>
      rw [hrun] at hmirror
      cases hmirror
    | ok t' =>
      rw [hrun] at hmirror
      obtain rfl : t = t'.mirror := Except.ok.inj hmirror
      exact ⟨t', rfl, by rw [← hheight, treeNodeHeight_mirror]⟩

end Height

/-- The integers of the test pool, in the order of their insertion. -/
def testTreeIntegerPool (count : Nat) : List Int :=
  (List.range count).map fun i : Nat => (i : Int) + -32768

/-- The pool has the announced number of integers. -/
theorem length_testTreeIntegerPool (count : Nat) : (testTreeIntegerPool count).length = count := by
  rw [testTreeIntegerPool, List.length_map, List.length_range]

/-- The pool is strictly ascending. -/
theorem testTreeIntegerPool_sorted (count : Nat) :
    KeySorted compareBySub id (testTreeIntegerPool count) := by
  rw [testTreeIntegerPool, KeySorted, List.pairwise_map]
  refine List.pairwise_lt_range.imp ?_
  intro a b hab
  simp only [compareBySub, id_eq]
  omega

/-- The height that the test of the repository expects of its 65536 integers. -/
theorem treeInsertAll_minimal_pool :
    ∃ t, treeInsertAll compareBySub id (testTreeIntegerPool 65536) .null = .ok t ∧
      treeNodeHeight t = 17 := by
  have hlen := length_testTreeIntegerPool 65536
  have hlog : Nat.log2 65536 = 16 := by decide
  have hne : testTreeIntegerPool 65536 ≠ [] := by
    rw [← List.length_pos_iff, hlen]
    decide
  obtain ⟨t, hall, hheight⟩ :=
    treeInsertAll_minimal hne (Or.inl (testTreeIntegerPool_sorted 65536))
  refine ⟨t, hall, ?_⟩
  rw [hheight, hlen, hlog]
  rfl

end Cyberd
