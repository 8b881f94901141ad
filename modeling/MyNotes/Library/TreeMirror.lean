/-
A tree seen from its other side, and the traversals that visit a node before or after its subtrees.

What is said of one side of every tree holds of the other side of its mirror image, so an operation
that exists for both sides is treated once.
-/

import MyNotes.Library.SearchTree

namespace MyNotes.Library.TreeMirror

open SearchTree List

variable {α β : Type*}

def mirror : BinaryTree α → BinaryTree α
 | .nil => .nil
 | .node item left right => .node item (mirror right) (mirror left)

def preOrder : BinaryTree α → List α
 | .nil => []
 | .node item left right => item :: (preOrder left ++ preOrder right)

def postOrder : BinaryTree α → List α
 | .nil => []
 | .node item left right => postOrder left ++ (postOrder right ++ [item])

theorem inOrder_mirror (tree : BinaryTree α) : inOrder (mirror tree) = (inOrder tree).reverse := by
 induction tree with
 | nil => rfl
 | node item left right ihLeft ihRight =>
  rw [mirror, inOrder, inOrder, ihLeft, ihRight, reverse_append, reverse_cons,
   append_assoc, singleton_append]

theorem numNodes_mirror (tree : BinaryTree α) : (mirror tree).numNodes = tree.numNodes := by
 rw [← length_inOrder, inOrder_mirror, length_reverse, length_inOrder]

theorem reverse_preOrder_mirror (tree : BinaryTree α) :
 (preOrder (mirror tree)).reverse = postOrder tree := by
 induction tree with
 | nil => rfl
 | node item left right ihLeft ihRight =>
  rw [mirror, preOrder, postOrder, reverse_cons, reverse_append, ihLeft, ihRight,
   append_assoc]

theorem inOrder_map (change : α → β) (tree : BinaryTree α) :
 inOrder (tree.map change) = (inOrder tree).map change := by
 induction tree with
 | nil => rfl
 | node item left right ihLeft ihRight =>
  rw [BinaryTree.map, inOrder, inOrder, ihLeft, ihRight, map_append, map_cons]

end MyNotes.Library.TreeMirror
