import Cyberd.Trap

/-!
# The balanced tree of `tree.c`

Nodes carry the cached height of the source. Elements are pointers: the
comparator reads what they point at, so `load` is the dereference and the
comparator works on what was read. The element searched for by the callers is a
stack-allocated key, which is no element of the tree.
-/

namespace Cyberd

variable {α κ : Type}

/-- `struct tree_node *`, with `null` for the null pointer. -/
inductive TreeNode (α : Type)
  | null
  | node (element : α) (left right : TreeNode α) (height : Int)
  deriving DecidableEq, Repr

/-- `tree_node_create`: a leaf holding the element. -/
def treeNodeCreate (element : α) : TreeNode α := .node element .null .null 1

/-- `tree_node_height` -/
def treeNodeHeight : TreeNode α → Int
  | .null => 0
  | .node _ _ _ height => height

/-- `tree_node_balance` -/
def treeNodeBalance : TreeNode α → Int
  | .null => 0
  | .node _ left right _ => treeNodeHeight right - treeNodeHeight left

/-- The height assigned from the cached heights of both children. -/
def treeNodeHeightOver (left right : TreeNode α) : Int :=
  max (treeNodeHeight left) (treeNodeHeight right) + 1

/-- `tree_node_rotate_right`, which dereferences the left child. -/
def treeNodeRotateRight : TreeNode α → Except Trap (TreeNode α)
  | .node element (.node element2 left2 right2 _) right _ =>
    let node := .node element right2 right (treeNodeHeightOver right2 right)
    .ok (.node element2 left2 node (treeNodeHeightOver left2 node))
  | _ => .error .badPointer

/-- `tree_node_rotate_left`, which dereferences the right child. -/
def treeNodeRotateLeft : TreeNode α → Except Trap (TreeNode α)
  | .node element left (.node element2 left2 right2 _) _ =>
    let node := .node element left left2 (treeNodeHeightOver left left2)
    .ok (.node element2 node right2 (treeNodeHeightOver node right2))
  | _ => .error .badPointer

/-- `tree_node_rotate_left_right` -/
def treeNodeRotateLeftRight : TreeNode α → Except Trap (TreeNode α)
  | .null => .error .badPointer
  | .node element left right height => do
    let left' ← treeNodeRotateLeft left
    treeNodeRotateRight (.node element left' right height)

/-- `tree_node_rotate_right_left` -/
def treeNodeRotateRightLeft : TreeNode α → Except Trap (TreeNode α)
  | .null => .error .badPointer
  | .node element left right height => do
    let right' ← treeNodeRotateRight right
    treeNodeRotateLeft (.node element left right' height)

/-- The last assignment of an insertion, `root->height = max(...) + 1`. -/
def treeNodeUpdateHeight : TreeNode α → TreeNode α
  | .null => .null
  | .node element left right _ => .node element left right (treeNodeHeightOver left right)

section Compare

variable (compare : κ → κ → Int) (load : α → κ)

/-- Rebalancing of an insertion that went to the left. -/
def treeNodeInsertBalanceLeft (x element : α) (left right : TreeNode α) (height : Int) :
    Except Trap (TreeNode α) :=
  if treeNodeBalance (.node element left right height) = -2 then
    match left with
    | .null => .error .badPointer
    | .node element2 .. =>
      if compare (load x) (load element2) < 0 then
        treeNodeRotateRight (.node element left right height)
      else treeNodeRotateLeftRight (.node element left right height)
  else .ok (.node element left right height)

/-- Rebalancing of an insertion that went to the right. -/
def treeNodeInsertBalanceRight (x element : α) (left right : TreeNode α) (height : Int) :
    Except Trap (TreeNode α) :=
  if treeNodeBalance (.node element left right height) = 2 then
    match right with
    | .null => .error .badPointer
    | .node element2 .. =>
      if 0 < compare (load x) (load element2) then
        treeNodeRotateLeft (.node element left right height)
      else treeNodeRotateRightLeft (.node element left right height)
  else .ok (.node element left right height)

/-- `tree_node_insert` of a freshly created node. -/
def treeNodeInsert (x : α) : TreeNode α → Except Trap (TreeNode α)
  | .null => .ok (treeNodeCreate x)
  | .node element left right height =>
    let comparison := compare (load x) (load element)
    if comparison < 0 then do
      let left' ← treeNodeInsert x left
      let root ← treeNodeInsertBalanceLeft compare load x element left' right height
      return treeNodeUpdateHeight root
    else if 0 < comparison then do
      let right' ← treeNodeInsert x right
      let root ← treeNodeInsertBalanceRight compare load x element left right' height
      return treeNodeUpdateHeight root
    else .error .abort

end Compare

/-- The loop of a removal that walks down to the in-order successor. -/
def treeNodeLeftmost : TreeNode α → Option α
  | .null => none
  | .node element .null _ _ => some element
  | .node _ (.node element left right height) _ _ =>
    treeNodeLeftmost (.node element left right height)

/-- The comparison with the null pointer. -/
def TreeNode.isNull : TreeNode α → Bool
  | .null => true
  | .node .. => false

/-- The end of a removal on a non-null root: both asserts, the new height, and
the rotation chosen by the balance of the higher child. -/
def treeNodeRemoveBalance : TreeNode α → Except Trap (TreeNode α)
  | .null => .ok .null
  | .node element left right _ =>
    let balance := treeNodeHeight right - treeNodeHeight left
    let root := .node element left right (treeNodeHeightOver left right)
    if left.isNull ∧ balance < 0 then .error .assertion
    else if right.isNull ∧ 0 < balance then .error .assertion
    else if 1 < balance then
      if 0 ≤ treeNodeBalance right then treeNodeRotateLeft root
      else treeNodeRotateRightLeft root
    else if balance < -1 then
      if treeNodeBalance left ≤ 0 then treeNodeRotateRight root
      else treeNodeRotateLeftRight root
    else .ok root

section Remove

variable (compare : κ → κ → Int) (load : α → κ)

/-- `tree_node_remove`: the new root and the removed node, null if none was found. -/
def treeNodeRemove : TreeNode α → κ → Except Trap (TreeNode α × TreeNode α)
  | .null, _ => .ok (.null, .null)
  | .node element left right height, key => do
    let comparison := compare key (load element)
    if comparison < 0 then
      let (left', removed) ← treeNodeRemove left key
      return (← treeNodeRemoveBalance (.node element left' right height), removed)
    else if 0 < comparison then
      let (right', removed) ← treeNodeRemove right key
      return (← treeNodeRemoveBalance (.node element left right' height), removed)
    else
      let removed := .node element .null .null 1
      match left, right with
      | .node .., .node .. =>
        match treeNodeLeftmost right with
        | none => .error .badPointer
        | some successor =>
          let (right', unlinked) ← treeNodeRemove right (load successor)
          match unlinked with
          | .null => .error .badPointer
          | .node successor _ _ height' =>
            return (← treeNodeRemoveBalance (.node successor left right' height'), removed)
      | .null, _ => return (← treeNodeRemoveBalance right, removed)
      | _, .null => return (← treeNodeRemoveBalance left, removed)

/-- `tree_node_destroy`: the elements of the nodes that are freed, in order. -/
def treeNodeDestroy : TreeNode α → List α
  | .null => []
  | .node element left right _ => treeNodeDestroy left ++ treeNodeDestroy right ++ [element]

/-- `tree_node_preorder_mutate` with a callback that changes the state it runs in. -/
def treeNodePreorderMutate {σ : Type} (mutate : α → σ → Except Trap σ) :
    TreeNode α → σ → Except Trap σ
  | .null, s => .ok s
  | .node element left right _, s => do
    let s ← mutate element s
    let s ← treeNodePreorderMutate mutate left s
    treeNodePreorderMutate mutate right s

/-- What `tree_remove` leaves: the root, the removed element, the freed nodes. -/
structure Removal (α : Type) where
  /-- Root of the tree after the removal. -/
  root : TreeNode α
  /-- The returned element, `none` for the null pointer. -/
  element : Option α
  /-- Elements of the nodes given back by `tree_node_destroy`. -/
  freed : List α
  deriving DecidableEq, Repr

/-- `tree_insert` -/
def treeInsert (x : α) (root : TreeNode α) : Except Trap (TreeNode α) :=
  treeNodeInsert compare load x root

/-- `tree_remove` -/
def treeRemove (key : κ) (root : TreeNode α) : Except Trap (Removal α) := do
  let (root', removed) ← treeNodeRemove compare load root key
  match removed with
  | .null => return ⟨root', none, []⟩
  | .node element left right height =>
    return ⟨root', some element, treeNodeDestroy (.node element left right height)⟩

/-- `tree_find`, whose assert is the last branch of a three-way sign. -/
def treeFind (key : κ) : TreeNode α → Option α
  | .null => none
  | .node element left right _ =>
    let comparison := compare key (load element)
    if comparison = 0 then some element
    else if comparison < 0 then treeFind key left
    else treeFind key right

end Remove

/-- `tree_last` -/
def treeLast : TreeNode α → Option α
  | .null => none
  | .node element _ .null _ => some element
  | .node _ _ (.node element left right height) _ =>
    treeLast (.node element left right height)

/-- `tree_mutate` -/
def treeMutate {σ : Type} (mutate : α → σ → Except Trap σ) (root : TreeNode α) (s : σ) :
    Except Trap σ :=
  treeNodePreorderMutate mutate root s

end Cyberd
