/-
Trees of nodes with two pointers.

A pointer is the address of a node, or 0.  A tree in the memory is a tree of items, each the address
and the value of a node.
-/

import MyNotes.Library.TreeMirror

namespace MyNotes.DataStructures

open Library.SearchTree Library.TreeMirror List

structure TreeNode where
 val : ℤ
 left : ℕ
 right : ℕ

namespace TreeNode

def pointer : BinaryTree (ℕ × ℤ) → ℕ
 | .nil => 0
 | .node item _ _ => item.1

/-- The nodes of the tree are at their addresses, which are the first parts of the items. -/
def Laid (node : ℕ → TreeNode) : BinaryTree (ℕ × ℤ) → Prop
 | .nil => True
 | .node item left right =>
  item.1 ≠ 0 ∧ node item.1 = ⟨item.2, pointer left, pointer right⟩ ∧ Laid node left ∧
   Laid node right

def addresses (shape : BinaryTree (ℕ × ℤ)) : List ℕ := inOrder (shape.map Prod.fst)

def keys (shape : BinaryTree (ℕ × ℤ)) : List ℤ := inOrder (shape.map Prod.snd)

variable {node node' : ℕ → TreeNode} {shape left right : BinaryTree (ℕ × ℤ)} {item : ℕ × ℤ}

theorem update_other {address other : ℕ} (changed : TreeNode) (different : other ≠ address) :
 Function.update node address changed other = node other :=
 Function.update_of_ne different changed node

theorem pointer_nil : pointer .nil = 0 := rfl

theorem pointer_node (item : ℕ × ℤ) (left right : BinaryTree (ℕ × ℤ)) :
 pointer (.node item left right) = item.1 := rfl

theorem keys_node (item : ℕ × ℤ) (left right : BinaryTree (ℕ × ℤ)) :
 keys (.node item left right) = keys left ++ item.2 :: keys right := rfl

theorem mem_addresses {address : ℕ} : address ∈ addresses (.node item left right) ↔
 address = item.1 ∨ address ∈ addresses left ∨ address ∈ addresses right := by
 simp only [addresses, BinaryTree.map, inOrder, mem_append, mem_cons]
 exact or_left_comm

theorem nodup_addresses : (addresses (.node item left right)).Nodup ↔
 item.1 ∉ addresses left ∧ item.1 ∉ addresses right ∧ (addresses left).Nodup ∧
  (addresses right).Nodup ∧ (addresses left).Disjoint (addresses right) := by
 rw [addresses, BinaryTree.map, inOrder, perm_middle.nodup_iff, nodup_cons,
  nodup_append, mem_append, not_or]
 simp only [addresses, disjoint_iff_ne]
 tauto

theorem Laid.congr (laid : Laid node shape)
 (same : ∀ address ∈ addresses shape, node' address = node address) : Laid node' shape := by
 induction shape with
 | nil => trivial
 | node item left right ihLeft ihRight =>
  obtain ⟨nonnull, here, below, below'⟩ := laid
  refine ⟨nonnull, ?_, ?_, ?_⟩
  · exact (same item.1 (mem_addresses.mpr (.inl rfl))).trans here
  · exact ihLeft below fun address member =>
     same address (mem_addresses.mpr (.inr (.inl member)))
  · exact ihRight below' fun address member =>
     same address (mem_addresses.mpr (.inr (.inr member)))

theorem Laid.pointer_eq_zero (laid : Laid node shape) : pointer shape = 0 ↔ shape = .nil := by
 cases shape with
 | nil => exact iff_of_true rfl rfl
 | node item left right => exact iff_of_false laid.1 nofun

end TreeNode

end MyNotes.DataStructures
