/-
The traversals of the algorithm notes that link the nodes instead of keeping a stack.

The postorder traversal is the preorder traversal from the other side, with the result turned round
at the end, so both are one loop.  Below the node where a walk starts, the last node of a subtree is
linked to where the walk goes on: to nothing in the tree itself, and to the node above while the
subtree is walked.
-/

import MyNotes.DataStructures.TreeNode

namespace MyNotes.Algorithms.MorrisTraversal

open DataStructures DataStructures.TreeNode Library.SearchTree Library.TreeMirror Function List
open TreeNode

inductive Side where
 | left
 | right

def Side.other : Side → Side
 | .left => .right
 | .right => .left

def child : Side → TreeNode → ℕ
 | .left, node => node.left
 | .right, node => node.right

def setChild : Side → ℕ → TreeNode → TreeNode
 | .left, pointer, node => { node with left := pointer }
 | .right, pointer, node => { node with right := pointer }

/-- `while (pre->right && pre->right != root) pre = pre->right;`, or the same with `pre->left`. -/
def predecessorLoop (side : Side) (node : ℕ → TreeNode) (root : ℕ) : ℕ → ℕ → Option ℕ
 | 0, _ => none
 | steps + 1, pre =>
  if child side (node pre) ≠ 0 ∧ child side (node pre) ≠ root then
   predecessorLoop side node root steps (child side (node pre))
  else some pre

/-- The loop of the traversal that goes to that side first, at most so many rounds, each with at
most so many steps to the predecessor. -/
def traversalLoop (side : Side) (steps : ℕ) :
 ℕ → ℕ → (ℕ → TreeNode) → List ℤ → Option (List ℤ × (ℕ → TreeNode))
 | 0, _, _, _ => none
 | rounds + 1, root, node, res =>
  if root = 0 then some (res, node)
  else if child side (node root) ≠ 0 then
   (predecessorLoop side.other node root steps (child side (node root))).bind fun pre =>
    if child side.other (node pre) = 0 then
     let res := res ++ [(node root).val]
     let node := update node pre (setChild side.other root (node pre))
     traversalLoop side steps rounds (child side (node root)) node res
    else
     let node := update node pre (setChild side.other 0 (node pre))
     traversalLoop side steps rounds (child side.other (node root)) node res
  else
   traversalLoop side steps rounds (child side.other (node root)) node
    (res ++ [(node root).val])

def preorderTraversal (steps rounds root : ℕ) (node : ℕ → TreeNode) :
 Option (List ℤ × (ℕ → TreeNode)) :=
 traversalLoop .left steps rounds root node []

def postorderTraversal (steps rounds root : ℕ) (node : ℕ → TreeNode) :
 Option (List ℤ × (ℕ → TreeNode)) :=
 (traversalLoop .right steps rounds root node []).map fun (res, node) => (res.reverse, node)

/-! ### Trees with an exit -/

/-- Where a walk through the tree starts that goes on at the exit. -/
def entry (exit : ℕ) : BinaryTree (ℕ × ℤ) → ℕ
 | .nil => exit
 | .node item _ _ => item.1

/-- The nodes of the tree, seen from that side, are at their addresses, and the last one is linked
to the exit. -/
def LaidTo (side : Side) (node : ℕ → TreeNode) : ℕ → BinaryTree (ℕ × ℤ) → Prop
 | _, .nil => True
 | exit, .node item near far =>
  item.1 ≠ 0 ∧ (node item.1).val = item.2 ∧ child side (node item.1) = pointer near ∧
   child side.other (node item.1) = entry exit far ∧ LaidTo side node 0 near ∧
    LaidTo side node exit far

def lastPlace (place : ℕ) : BinaryTree (ℕ × ℤ) → ℕ
 | .nil => place
 | .node item _ far => lastPlace item.1 far

def visits : BinaryTree (ℕ × ℤ) → ℕ
 | .nil => 0
 | .node _ .nil far => visits far + 1
 | .node _ (.node item near far) far' => visits (.node item near far) + visits far' + 2

variable {side : Side} {node node' : ℕ → TreeNode} {tree near far : BinaryTree (ℕ × ℤ)}
 {item : ℕ × ℤ} {exit root steps place : ℕ}

theorem entry_zero (tree : BinaryTree (ℕ × ℤ)) : entry 0 tree = pointer tree := by
 cases tree <;> rfl

theorem visits_le (tree : BinaryTree (ℕ × ℤ)) : visits tree ≤ 2 * tree.numNodes := by
 induction tree with
 | nil => exact le_rfl
 | node item near far ihNear ihFar =>
  cases near with
  | nil =>
   rw [visits, BinaryTree.numNodes]
   omega
  | node next below below' =>
   rw [visits, BinaryTree.numNodes.eq_2 item]
   omega

theorem LaidTo.congr (laid : LaidTo side node exit tree)
 (same : ∀ address ∈ addresses tree, node' address = node address) :
 LaidTo side node' exit tree := by
 induction tree generalizing exit with
 | nil => trivial
 | node item near far ihNear ihFar =>
  obtain ⟨nonnull, value, at_near, at_far, below, below'⟩ := laid
  have here := same item.1 (mem_addresses.mpr (.inl rfl))
  refine ⟨nonnull, here ▸ value, here ▸ at_near, here ▸ at_far, ?_, ?_⟩
  · exact ihNear below fun address member =>
     same address (mem_addresses.mpr (.inr (.inl member)))
  · exact ihFar below' fun address member =>
     same address (mem_addresses.mpr (.inr (.inr member)))

theorem laidTo_left (laid : Laid node tree) : LaidTo .left node 0 tree := by
 induction tree with
 | nil => trivial
 | node item left right ihLeft ihRight =>
  obtain ⟨nonnull, here, below, below'⟩ := laid
  refine ⟨nonnull, congrArg TreeNode.val here, congrArg TreeNode.left here, ?_, ihLeft below,
   ihRight below'⟩
  exact (congrArg TreeNode.right here).trans (entry_zero right).symm

theorem pointer_mirror (tree : BinaryTree (ℕ × ℤ)) : pointer (mirror tree) = pointer tree := by
 cases tree <;> rfl

theorem laidTo_right (laid : Laid node tree) : LaidTo .right node 0 (mirror tree) := by
 induction tree with
 | nil => trivial
 | node item left right ihLeft ihRight =>
  obtain ⟨nonnull, here, below, below'⟩ := laid
  refine ⟨nonnull, congrArg TreeNode.val here, ?_, ?_, ihRight below', ihLeft below⟩
  · exact (congrArg TreeNode.right here).trans (pointer_mirror right).symm
  · rw [entry_zero, pointer_mirror]
    exact congrArg TreeNode.left here

theorem lastPlace_mem (item : ℕ × ℤ) (near far : BinaryTree (ℕ × ℤ)) :
 lastPlace item.1 far ∈ addresses (.node item near far) := by
 induction far generalizing item near with
 | nil => exact mem_addresses.mpr (.inl rfl)
 | node next below below' _ ih => exact mem_addresses.mpr (.inr (.inr (ih next below)))

@[simp] theorem child_setChild (side : Side) (pointer : ℕ) (node : TreeNode) :
 child side (setChild side pointer node) = pointer := by
 cases side <;> rfl

@[simp] theorem child_other_setChild (side : Side) (pointer : ℕ) (node : TreeNode) :
 child side (setChild side.other pointer node) = child side node := by
 cases side <;> rfl

@[simp] theorem val_setChild (side : Side) (pointer : ℕ) (node : TreeNode) :
 (setChild side pointer node).val = node.val := by
 cases side <;> rfl

theorem setChild_child (side : Side) (node : TreeNode) :
 setChild side (child side node) node = node := by
 cases side <;> rfl

theorem setChild_setChild (side : Side) (first second : ℕ) (node : TreeNode) :
 setChild side second (setChild side first node) = setChild side second node := by
 cases side <;> rfl

/-! ### The link to the exit -/

section

variable (laid : LaidTo side node exit (.node item near far))
include laid

theorem predecessorLoop_eq (ends : exit = 0 ∨ exit = root)
 (outside : root ∉ addresses (.node item near far)) (enough : far.numNodes < steps) :
 predecessorLoop side.other node root steps item.1 = some (lastPlace item.1 far) := by
 induction far generalizing item near steps with
 | nil =>
  obtain ⟨-, -, -, at_far, -⟩ := laid
  cases steps with
  | zero => cases enough
  | succ steps =>
   rw [predecessorLoop, at_far, entry, if_neg fun both => ends.elim both.1 both.2]
   rfl
 | node next below below' _ ih =>
  obtain ⟨-, -, -, at_far, -, laid_far⟩ := laid
  cases steps with
  | zero => cases enough
  | succ steps =>
   have not_root : next.1 ≠ root := by
    rintro rfl
    exact outside (mem_addresses.mpr (.inr (.inr (mem_addresses.mpr (.inl rfl)))))
   have fewer : below'.numNodes < steps := by
    rw [BinaryTree.numNodes] at enough
    omega
   rw [predecessorLoop, at_far, entry, if_pos ⟨laid_far.1, not_root⟩]
   refine ih laid_far (fun member => outside ?_) fewer
   exact mem_addresses.mpr (.inr (.inr member))

theorem LaidTo.last : child side.other (node (lastPlace item.1 far)) = exit := by
 induction far generalizing item near with
 | nil => exact laid.2.2.2.1
 | node next below below' _ ih => exact ih laid.2.2.2.2.2

theorem LaidTo.relink (distinct : (addresses (.node item near far)).Nodup) (exit' : ℕ) :
 LaidTo side (update node (lastPlace item.1 far)
  (setChild side.other exit' (node (lastPlace item.1 far)))) exit' (.node item near far) := by
 induction far generalizing item near with
 | nil =>
  obtain ⟨nonnull, value, at_near, -, laid_near, -⟩ := laid
  obtain ⟨not_near, -⟩ := nodup_addresses.mp distinct
  have here := update_self (β := fun _ => TreeNode) item.1
   (setChild side.other exit' (node item.1)) node
  refine ⟨nonnull, ?_, ?_, ?_, laid_near.congr fun address member => ?_, trivial⟩
  · exact (congrArg val here).trans ((val_setChild _ _ _).trans value)
  · exact (congrArg (child side) here).trans ((child_other_setChild _ _ _).trans at_near)
  · exact (congrArg (child side.other) here).trans (child_setChild _ _ _)
  · exact update_other _ (ne_of_mem_of_not_mem member not_near)
 | node next below below' _ ih =>
  obtain ⟨nonnull, value, at_near, at_far, laid_near, laid_far⟩ := laid
  obtain ⟨not_near, not_far, -, distinct_far, apart⟩ := nodup_addresses.mp distinct
  have last := lastPlace_mem next below below'
  have here : update node (lastPlace next.1 below')
   (setChild side.other exit' (node (lastPlace next.1 below'))) item.1 = node item.1 :=
   update_other _ (ne_of_mem_of_not_mem last not_far).symm
  refine ⟨nonnull, ?_, ?_, ?_, laid_near.congr fun address member => ?_,
   ih laid_far distinct_far⟩
  · exact (congrArg val here).trans value
  · exact (congrArg (child side) here).trans at_near
  · exact (congrArg (child side.other) here).trans at_far
  · exact update_other _ fun same => apart member (same ▸ last)

end

/-! ### The walk -/

variable {rounds : ℕ}

theorem traversalLoop_link {pre : ℕ} {res : List ℤ} (nonnull : root ≠ 0)
 (deeper : child side (node root) ≠ 0)
 (found : predecessorLoop side.other node root steps (child side (node root)) = some pre)
 (open_end : child side.other (node pre) = 0) (other : root ≠ pre) :
 traversalLoop side steps (rounds + 1) root node res =
  traversalLoop side steps rounds (child side (node root))
   (update node pre (setChild side.other root (node pre)))
   (res ++ [(node root).val]) := by
 rw [traversalLoop, if_neg nonnull, if_pos deeper, found, Option.bind_some, if_pos open_end]
 simp only [update_other _ other]

theorem traversalLoop_unlink {pre : ℕ} {res : List ℤ} (nonnull : root ≠ 0)
 (deeper : child side (node root) ≠ 0)
 (found : predecessorLoop side.other node root steps (child side (node root)) = some pre)
 (linked : child side.other (node pre) ≠ 0) (other : root ≠ pre) :
 traversalLoop side steps (rounds + 1) root node res =
  traversalLoop side steps rounds (child side.other (node root))
   (update node pre (setChild side.other 0 (node pre))) res := by
 rw [traversalLoop, if_neg nonnull, if_pos deeper, found, Option.bind_some, if_neg linked]
 simp only [update_other _ other]

theorem unlink_link (open_end : child side (node place) = 0) (pointer : ℕ) :
 update (update node place (setChild side pointer (node place))) place
  (setChild side 0 (update node place (setChild side pointer (node place)) place)) =
   node := by
 rw [update_self, setChild_setChild, update_idem, ← open_end, setChild_child,
  update_eq_self]

theorem traversalLoop_eq (laid : LaidTo side node exit tree) (distinct : (addresses tree).Nodup)
 (enough : tree.numNodes ≤ steps) (rounds : ℕ) (res : List ℤ) :
 traversalLoop side steps (rounds + visits tree) (entry exit tree) node res =
  traversalLoop side steps rounds exit node (res ++ (preOrder tree).map Prod.snd) := by
 induction tree generalizing exit node rounds res with
 | nil => rw [visits, entry, preOrder, map_nil, append_nil, Nat.add_zero]
 | node item near far ihNear ihFar =>
  obtain ⟨not_near, not_far, distinct_near, distinct_far, -⟩ := nodup_addresses.mp distinct
  have sizes : near.numNodes + far.numNodes < steps := by
   rw [BinaryTree.numNodes] at enough
   omega
  obtain ⟨nonnull, value, at_near, at_far, laid_near, laid_far⟩ := laid
  cases near with
  | nil =>
   rw [visits, entry, ← Nat.add_assoc, traversalLoop, if_neg nonnull, at_near, pointer,
    if_neg (not_not.mpr rfl), at_far, value, ihFar laid_far distinct_far (by omega),
    preOrder, preOrder, nil_append, map_cons, append_assoc,
    singleton_append]
  | node next below below' =>
   have last := lastPlace_mem next below below'
   have item_ne_last := (ne_of_mem_of_not_mem last not_near).symm
   have fewer : below'.numNodes < steps := by
    rw [BinaryTree.numNodes] at sizes
    omega
   have deeper : child side (node item.1) ≠ 0 := at_near.symm ▸ laid_near.1
   have open_end := laid_near.last
   have found := predecessorLoop_eq laid_near (.inl rfl) not_near fewer
   -- while the near subtree is walked, its last node is linked to the root
   have laid_linked := laid_near.relink distinct_near item.1
   have found_again := predecessorLoop_eq laid_linked (.inr rfl) not_near fewer
   have linked := laid_linked.last
   have restored := unlink_link open_end item.1
   obtain ⟨node₁, made⟩ : ∃ node₁, node₁ = update node (lastPlace next.1 below')
    (setChild side.other item.1 (node (lastPlace next.1 below'))) := ⟨_, rfl⟩
   rw [← made] at laid_linked found_again linked restored
   have same_root : node₁ item.1 = node item.1 := made ▸ update_other _ item_ne_last
   have to_near : child side (node item.1) =
    entry item.1 (.node next below below') := at_near
   calc
    _ = traversalLoop side steps
     (rounds + visits far + 1 + visits (.node next below below'))
     (child side (node item.1)) node₁ (res ++ [(node item.1).val]) := by
     rw [made, ← traversalLoop_link nonnull deeper (at_near.symm ▸ found) open_end
      item_ne_last]
     refine congrArg (fun count => traversalLoop side steps count item.1 node res) ?_
     rw [visits]
     omega
    _ = traversalLoop side steps (rounds + visits far + 1) item.1 node₁
     (res ++ [item.2] ++ (preOrder (.node next below below')).map Prod.snd) := by
     rw [to_near, value, ihNear laid_linked distinct_near (by omega)]
    _ = traversalLoop side steps (rounds + visits far) (entry exit far) node
     (res ++ [item.2] ++ (preOrder (.node next below below')).map Prod.snd) := by
     rw [traversalLoop_unlink nonnull (same_root.symm ▸ deeper)
      (by rw [same_root, at_near]; exact found_again) (linked.symm ▸ nonnull)
      item_ne_last, restored, same_root, at_far]
    _ = _ := by
     rw [ihFar laid_far distinct_far (by omega), preOrder.eq_2 item, map_cons,
      map_append, append_assoc, append_assoc, singleton_append]

theorem traversalLoop_whole (laid : LaidTo side node 0 tree) (distinct : (addresses tree).Nodup)
 (enough_steps : tree.numNodes ≤ steps) (enough_rounds : 2 * tree.numNodes < rounds) :
 traversalLoop side steps rounds (pointer tree) node [] =
  some ((preOrder tree).map Prod.snd, node) := by
 have few := visits_le tree
 obtain ⟨rest, rfl⟩ : ∃ rest, rounds = rest + 1 + visits tree :=
  ⟨rounds - 1 - visits tree, by omega⟩
 rw [← entry_zero, traversalLoop_eq laid distinct enough_steps, nil_append, traversalLoop,
  if_pos rfl]

/-- Both traversals return the values in their order, and leave the memory as it was. -/
theorem preorderTraversal_postorderTraversal (node : ℕ → TreeNode) (tree : BinaryTree (ℕ × ℤ))
 (laid : Laid node tree) (distinct : (addresses tree).Nodup) (steps rounds : ℕ)
 (enough_steps : tree.numNodes ≤ steps) (enough_rounds : 2 * tree.numNodes < rounds) :
 preorderTraversal steps rounds (pointer tree) node =
  some ((preOrder tree).map Prod.snd, node) ∧
  postorderTraversal steps rounds (pointer tree) node =
   some ((postOrder tree).map Prod.snd, node) := by
 refine ⟨traversalLoop_whole (laidTo_left laid) distinct enough_steps enough_rounds, ?_⟩
 have distinct_mirror : (addresses (mirror tree)).Nodup := by
  rw [addresses, inOrder_map] at distinct
  rw [addresses, inOrder_map, inOrder_mirror, map_reverse]
  exact nodup_reverse.mpr distinct
 rw [← numNodes_mirror] at enough_steps enough_rounds
 rw [postorderTraversal, ← pointer_mirror,
  traversalLoop_whole (laidTo_right laid) distinct_mirror enough_steps enough_rounds,
  Option.map_some]
 simp only [← map_reverse, reverse_preOrder_mirror]

theorem preorderTraversal_postorderTraversal_four :
 let node : ℕ → TreeNode := fun
  | 1 => ⟨10, 2, 4⟩
  | 2 => ⟨20, 0, 3⟩
  | 3 => ⟨10, 0, 0⟩
  | _ => ⟨30, 0, 0⟩
 preorderTraversal 4 9 1 node = some ([10, 20, 10, 30], node) ∧
  postorderTraversal 4 9 1 node = some ([10, 20, 30, 10], node) :=
 preorderTraversal_postorderTraversal _
  (.node (1, 10) (.node (2, 20) .nil (.node (3, 10) .nil .nil)) (.node (4, 30) .nil .nil))
  ⟨by decide, rfl, ⟨by decide, rfl, trivial, by decide, rfl, trivial, trivial⟩, by decide, rfl,
   trivial, trivial⟩ (by decide) 4 9 (by decide) (by decide)

end MyNotes.Algorithms.MorrisTraversal
