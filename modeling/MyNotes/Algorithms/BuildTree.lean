/-
A tree from its preorder and inorder, or from its inorder and postorder.
-/

import MyNotes.Library.TreeMirror

namespace MyNotes.Algorithms.BuildTree

open Library.SearchTree Library.TreeMirror Function List

inductive Order where
 | preorder
 | postorder

namespace Order

def walk : Order → BinaryTree ℤ → List ℤ
 | preorder => preOrder
 | postorder => postOrder

/-- The place of the root in a range of the traversal. -/
def root : Order → ℤ → ℤ → ℤ
 | preorder, start, _ => start
 | postorder, _, stop => stop

def left : Order → ℤ → ℤ → ℤ × ℤ
 | preorder, start, leftSubtreeSize => (start + 1, start + leftSubtreeSize)
 | postorder, start, leftSubtreeSize => (start, start + leftSubtreeSize - 1)

def right : Order → ℤ → ℤ → ℤ → ℤ × ℤ
 | preorder, start, stop, leftSubtreeSize => (start + leftSubtreeSize + 1, stop)
 | postorder, start, stop, leftSubtreeSize => (start + leftSubtreeSize, stop - 1)

end Order

/-- The ranges of a call of `buildTreeHelper`, as integers: the sizes stay below 2^31. -/
structure Call where
 start : ℤ
 stop : ℤ
 inStart : ℤ
 inEnd : ℤ

def read (array : List ℤ) (i : ℤ) : Option ℤ := if 0 ≤ i then array[i.toNat]? else none

/-- The tree and the calls, unless a call reads outside an array or is nested too deeply. -/
def buildTreeHelper (order : Order) (array : List ℤ) (inorderIndexMap : ℤ → ℤ) :
 ℕ → Call → Option (BinaryTree ℤ × List Call)
 | 0, _ => none
 | fuel + 1, call =>
  if call.start > call.stop ∨ call.inStart > call.inEnd then some (.nil, [call])
  else (read array (order.root call.start call.stop)).bind fun rootVal =>
   let rootIndex := inorderIndexMap rootVal
   let leftSubtreeSize := rootIndex - call.inStart
   let left := order.left call.start leftSubtreeSize
   let right := order.right call.start call.stop leftSubtreeSize
   (buildTreeHelper order array inorderIndexMap fuel
    ⟨left.1, left.2, call.inStart, rootIndex - 1⟩).bind fun (leftTree, leftCalls) =>
   (buildTreeHelper order array inorderIndexMap fuel
    ⟨right.1, right.2, rootIndex + 1, call.inEnd⟩).map fun (rightTree, rightCalls) =>
   (.node rootVal leftTree rightTree, call :: leftCalls ++ rightCalls)

/-- A value that is not in the map has the index 0. -/
def indexMap (inorder : List ℤ) : ℤ → ℤ :=
 inorder.zipIdx.foldl (fun map entry => update map entry.1 entry.2) fun _ => 0

def buildTree (order : Order) (fuel : ℕ) (array inorder : List ℤ) :
 Option (BinaryTree ℤ × List Call) :=
 buildTreeHelper order array (indexMap inorder) fuel
  ⟨0, array.length - 1, 0, inorder.length - 1⟩

/-- Both ranges have the same length and are inside arrays of that size. -/
structure Call.Fits (self : Call) (size : ℕ) : Prop where
 lengths : self.stop - self.start = self.inEnd - self.inStart
 ordered : self.start ≤ self.stop + 1
 start : 0 ≤ self.start
 stop : self.stop < size
 inStart : 0 ≤ self.inStart
 inEnd : self.inEnd < size

variable {order : Order}

theorem length_walk (tree : BinaryTree ℤ) : (order.walk tree).length = tree.numNodes := by
 induction tree with
 | nil => cases order <;> rfl
 | node item left right ihLeft ihRight =>
  cases order with
  | preorder =>
   change (item :: (Order.preorder.walk left ++ Order.preorder.walk right)).length = _
   rw [length_cons, length_append, ihLeft, ihRight]
   rfl
  | postorder =>
   change (Order.postorder.walk left ++ (Order.postorder.walk right ++ [item])).length = _
   rw [length_append, length_append, ihLeft, ihRight, ← Nat.add_assoc]
   rfl

theorem read_append {array before after : List ℤ} {item i : ℤ}
 (same : array = before ++ item :: after) (place : i = before.length) :
 read array i = some item := by
 rw [read, if_pos (by omega), same, place, Int.toNat_natCast, getElem?_append_right le_rfl,
  Nat.sub_self]
 rfl

/-- The map knows the place of every value of the inorder traversal. -/
def Indexes (map : ℤ → ℤ) (inorder : List ℤ) : Prop :=
 ∀ before item after, inorder = before ++ item :: after → map item = before.length

theorem indexes_indexMap {inorder : List ℤ} (distinct : inorder.Nodup) :
 Indexes (indexMap inorder) inorder := by
 unfold indexMap
 generalize (fun _ => 0 : ℤ → ℤ) = map
 intro before item after same
 subst same
 rw [zipIdx_append, zipIdx_cons, foldl_append, foldl_cons, Nat.zero_add]
 have absent := (nodup_middle.mp distinct).notMem
 have kept : ∀ (later : List ℤ) (first : ℕ) (map : ℤ → ℤ), item ∉ later →
  (later.zipIdx first).foldl (fun map entry => update map entry.1 (entry.2 : ℤ)) map item =
   map item := by
  intro later
  induction later with
  | nil => exact fun _ _ _ => rfl
  | cons other later ih =>
   intro first map absent
   rw [zipIdx_cons, foldl_cons, ih _ _ fun member => absent (mem_cons_of_mem _ member)]
   exact update_of_ne (fun own => absent (mem_cons.mpr (.inl own))) _ _
 rw [kept _ _ _ fun member => absent (mem_append_right _ member), update_self]

/-- Where the root and the subtrees of a tree are found. -/
theorem Order.parts (order : Order) {array before after : List ℤ} {item start stop : ℤ}
 {left right : BinaryTree ℤ}
 (part : array = before ++ order.walk (.node item left right) ++ after)
 (first : start = before.length)
 (last : stop = before.length + left.numNodes + right.numNodes) :
 read array (order.root start stop) = some item ∧
  (∃ leftBefore leftAfter, array = leftBefore ++ order.walk left ++ leftAfter ∧
   (order.left start left.numNodes).1 = leftBefore.length ∧
   (order.left start left.numNodes).2 = leftBefore.length + left.numNodes - 1) ∧
  ∃ rightBefore rightAfter, array = rightBefore ++ order.walk right ++ rightAfter ∧
   (order.right start stop left.numNodes).1 = rightBefore.length ∧
   (order.right start stop left.numNodes).2 = rightBefore.length + right.numNodes - 1 := by
 have leftLength : (order.walk left).length = _ := length_walk left
 have rightLength : (order.walk right).length = _ := length_walk right
 cases order with
 | preorder =>
  simp only [walk, preOrder] at part leftLength rightLength
  have split : array = before ++ item :: (preOrder left ++ preOrder right ++ after) := by
   simp [part]
  refine ⟨read_append split first, ?_, ?_⟩
  · refine ⟨before ++ [item], preOrder right ++ after, by simp [part, walk], ?_, ?_⟩ <;>
     simp only [Order.left, length_append, length_singleton] <;> omega
  · refine ⟨before ++ item :: preOrder left, after, by simp [part, walk], ?_, ?_⟩ <;>
     simp only [Order.right, length_append, length_cons] <;> omega
 | postorder =>
  simp only [walk, postOrder] at part leftLength rightLength
  have split : array = before ++ (postOrder left ++ postOrder right) ++ item :: after := by
   simp [part]
  refine ⟨read_append split ?_, ?_, ?_⟩
  · simp only [root, length_append]
    omega
  · refine ⟨before, postOrder right ++ item :: after, by simp [part, walk], ?_, ?_⟩ <;>
     simp only [Order.left] <;> omega
  · refine ⟨before ++ postOrder left, item :: after, by simp [part, walk], ?_, ?_⟩ <;>
     simp only [Order.right, length_append] <;> omega

theorem call_fits {array inorder : List ℤ} (sizes : array.length = inorder.length)
 {tree : BinaryTree ℤ} {call : Call} {before after inBefore inAfter : List ℤ}
 (part : array = before ++ order.walk tree ++ after)
 (inPart : inorder = inBefore ++ inOrder tree ++ inAfter) (start : call.start = before.length)
 (stop : call.stop = before.length + tree.numNodes - 1)
 (inStart : call.inStart = inBefore.length)
 (inEnd : call.inEnd = inBefore.length + tree.numNodes - 1) : call.Fits array.length := by
 have length := congrArg List.length part
 have inLength := congrArg List.length inPart
 simp only [length_append, length_walk, length_inOrder] at length inLength
 constructor <;> omega

/-- What a call leaves behind that is made for a subtree. -/
theorem buildTreeHelper_eq {array inorder : List ℤ} {map : ℤ → ℤ} (indexes : Indexes map inorder)
 (sizes : array.length = inorder.length) (tree : BinaryTree ℤ) {fuel : ℕ} {call : Call}
 (enough : tree.numNodes < fuel) {before after inBefore inAfter : List ℤ}
 (part : array = before ++ order.walk tree ++ after)
 (inPart : inorder = inBefore ++ inOrder tree ++ inAfter) (start : call.start = before.length)
 (stop : call.stop = before.length + tree.numNodes - 1)
 (inStart : call.inStart = inBefore.length)
 (inEnd : call.inEnd = inBefore.length + tree.numNodes - 1) :
 ∃ calls, buildTreeHelper order array map fuel call = some (tree, calls) ∧
  ∀ each ∈ calls, each.Fits array.length := by
 induction tree generalizing fuel call before after inBefore inAfter with
 | nil =>
  have fits := call_fits sizes part inPart start stop inStart inEnd
  obtain ⟨fuel, rfl⟩ := Nat.exists_eq_add_of_lt enough
  refine ⟨[call], ?_, fun each member => mem_singleton.mp member ▸ fits⟩
  have empty : call.start > call.stop := by
   rw [BinaryTree.numNodes] at stop
   omega
  rw [buildTreeHelper, if_pos (.inl empty)]
 | node item left right ihLeft ihRight =>
  have fits := call_fits sizes part inPart start stop inStart inEnd
  rw [BinaryTree.numNodes] at enough stop inEnd
  have last : call.stop = before.length + left.numNodes + right.numNodes := by
   push_cast at stop
   omega
  obtain ⟨fuel, rfl⟩ : ∃ more, fuel = more + 1 := ⟨fuel - 1, by omega⟩
  obtain ⟨root, ⟨leftBefore, leftAfter, leftPart, leftStart, leftStop⟩,
   rightBefore, rightAfter, rightPart, rightStart, rightStop⟩ :=
   order.parts part start last
  rw [inOrder] at inPart
  have leftLength := length_inOrder left
  have index : map item = inBefore.length + left.numNodes := by
   rw [indexes (inBefore ++ inOrder left) item (inOrder right ++ inAfter) (by simp [inPart]),
    length_append, leftLength]
   push_cast
   rfl
  have size : map item - call.inStart = left.numNodes := by omega
  have inLeft : inorder = inBefore ++ inOrder left ++ (item :: inOrder right ++ inAfter) := by
   simp [inPart]
  have inRight : inorder = inBefore ++ inOrder left ++ [item] ++ inOrder right ++ inAfter := by
   simp [inPart]
  have inLength : ((inBefore ++ inOrder left ++ [item]).length : ℤ) =
   inBefore.length + left.numNodes + 1 := by
   rw [length_append, length_append, length_singleton, leftLength]
   push_cast
   rfl
  obtain ⟨leftCalls, leftBuilt, leftFits⟩ : ∃ calls, buildTreeHelper order array map fuel
   ⟨_, _, call.inStart, map item - 1⟩ = some (left, calls) ∧ _ :=
   ihLeft (by omega) leftPart inLeft leftStart leftStop inStart (by dsimp only; omega)
  obtain ⟨rightCalls, rightBuilt, rightFits⟩ : ∃ calls, buildTreeHelper order array map fuel
   ⟨_, _, map item + 1, call.inEnd⟩ = some (right, calls) ∧ _ :=
   ihRight (by omega) rightPart inRight rightStart rightStop (by dsimp only; omega)
    (by dsimp only; omega)
  refine ⟨call :: leftCalls ++ rightCalls, ?_, ?_⟩
  · rw [buildTreeHelper, if_neg (by omega), root]
    simp only [Option.bind_some, size, leftBuilt, rightBuilt, Option.map_some]
  · intro each member
    rcases mem_append.mp member with member | member
    · rcases mem_cons.mp member with rfl | member
      · exact fits
      · exact leftFits each member
    · exact rightFits each member

/-- Both programs return the tree whose traversals they are given, and all their calls have ranges
of one length inside the arrays. -/
theorem buildTree_correct (order : Order) {tree : BinaryTree ℤ} (distinct : (inOrder tree).Nodup)
 {fuel : ℕ} (enough : tree.numNodes < fuel) :
 ∃ built calls, buildTree order fuel (order.walk tree) (inOrder tree) = some (built, calls) ∧
  built = tree ∧ order.walk built = order.walk tree ∧ inOrder built = inOrder tree ∧
  ∀ call ∈ calls, call.Fits tree.numNodes := by
 have inLength := length_inOrder tree
 have length : (order.walk tree).length = tree.numNodes := length_walk tree
 obtain ⟨calls, built, fits⟩ : ∃ calls, buildTree order fuel (order.walk tree) (inOrder tree) =
  some (tree, calls) ∧ _ :=
  buildTreeHelper_eq (indexes_indexMap distinct) (length.trans inLength.symm) tree enough
   (show order.walk tree = [] ++ order.walk tree ++ [] by simp)
   (show inOrder tree = [] ++ inOrder tree ++ [] by simp) rfl (by simp [length]) rfl
   (by simp [inLength])
 rw [length] at fits
 exact ⟨tree, calls, built, rfl, rfl, rfl, fits⟩

/-- The node 2 has no left subtree and the node 3 no right one. -/
def oneSided : BinaryTree ℤ := .node 1 (.node 2 .nil (.node 3 (.node 4 .nil .nil) .nil)) .nil

theorem buildTree_correct_oneSided : ∃ built calls,
 buildTree .postorder 5 [4, 3, 2, 1] [2, 4, 3, 1] = some (built, calls) ∧ built = oneSided := by
 obtain ⟨built, calls, returned, same, -⟩ := buildTree_correct .postorder
  (show (inOrder oneSided).Nodup by decide) (show oneSided.numNodes < 5 by decide)
 exact ⟨built, calls, returned, same⟩

end MyNotes.Algorithms.BuildTree
