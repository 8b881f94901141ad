/-
Search trees by the list of their items from left to right.

A tree is in order exactly when that list is, so an operation is known by what it does to the
list.
-/

import Mathlib.Data.Tree.Basic
import Mathlib.Data.Finset.Sort
import Mathlib.Data.Nat.Fib.Basic

namespace MyNotes.Library.SearchTree

open List

variable {α : Type*}

def inOrder : BinaryTree α → List α
 | .nil => []
 | .node item left right => inOrder left ++ item :: inOrder right

def IsSearchTree (before : α → α → Prop) : BinaryTree α → Prop
 | .nil => True
 | .node item left right =>
  (∀ other ∈ inOrder left, before other item) ∧
   (∀ other ∈ inOrder right, before item other) ∧
    IsSearchTree before left ∧ IsSearchTree before right

/-- The two subtrees of every node differ in height by at most one. -/
def IsBalanced : BinaryTree α → Prop
 | .nil => True
 | .node _ left right =>
  left.height ≤ right.height + 1 ∧ right.height ≤ left.height + 1 ∧
   IsBalanced left ∧ IsBalanced right

theorem length_inOrder (tree : BinaryTree α) : (inOrder tree).length = tree.numNodes := by
 induction tree with
 | nil => rfl
 | node item left right ihLeft ihRight =>
  rw [inOrder, length_append, length_cons, ihLeft, ihRight, BinaryTree.numNodes,
   Nat.add_assoc]

/-- A balanced tree has at least the nodes of a Fibonacci tree of its height. -/
theorem fib_height_le {tree : BinaryTree α} (balanced : IsBalanced tree) :
 Nat.fib (tree.height + 2) ≤ tree.numNodes + 1 := by
 induction tree with
 | nil => exact Nat.le_refl 1
 | node item left right ihLeft ihRight =>
  obtain ⟨near, near', balancedLeft, balancedRight⟩ := balanced
  have many := Nat.add_le_add (ihLeft balancedLeft) (ihRight balancedRight)
  rw [BinaryTree.height, Nat.fib_add_two, BinaryTree.numNodes]
  refine (?_ : _ ≤ _).trans (many.trans (by omega))
  rcases Nat.le_total left.height right.height with less | less
  · rw [Nat.max_eq_right less]
    exact Nat.add_le_add (Nat.fib_mono (by omega)) le_rfl
  · rw [Nat.max_eq_left less, Nat.add_comm]
    exact Nat.add_le_add le_rfl (Nat.fib_mono (by omega))

theorem pairwise_middle {before : α → α → Prop} [IsTrans α before] {left right : List α}
 {item : α} : (left ++ item :: right).Pairwise before ↔
  (∀ other ∈ left, before other item) ∧ (∀ other ∈ right, before item other) ∧
   left.Pairwise before ∧ right.Pairwise before := by
 rw [pairwise_append, pairwise_cons]
 constructor
 · simp_all
 · rintro ⟨earlier, later, sorted_left, sorted_right⟩
   refine ⟨sorted_left, ⟨later, sorted_right⟩, fun first member second member' => ?_⟩
   rcases mem_cons.mp member' with same | behind
   · exact same ▸ earlier first member
   · exact IsTrans.trans _ _ _ (earlier first member) (later second behind)

theorem isSearchTree_iff {before : α → α → Prop} [IsTrans α before] {tree : BinaryTree α} :
 IsSearchTree before tree ↔ (inOrder tree).Pairwise before := by
 induction tree with
 | nil => exact iff_of_true trivial List.Pairwise.nil
 | node item left right ihLeft ihRight =>
  rw [IsSearchTree, inOrder, pairwise_middle, ihLeft, ihRight]

/-! ### Lists without repetition, in order -/

section Increasing

variable [LinearOrder α] {left right items : List α} {item key : α}

section

variable (increasing : (left ++ item :: right).Pairwise (· < ·))
include increasing

theorem filter_ne_of_lt (smaller : key < item) :
 (left ++ item :: right).filter (· ≠ key) = left.filter (· ≠ key) ++ item :: right := by
 rw [filter_append]
 have later := (pairwise_middle.mp increasing).2.1
 have behind : (item :: right).filter (· ≠ key) = item :: right := by
  refine filter_eq_self.mpr (forall_mem_cons.mpr ⟨?_, fun other member => ?_⟩)
  · exact decide_eq_true smaller.ne'
  · grind
 rw [behind]

theorem filter_ne_of_gt (larger : item < key) :
 (left ++ item :: right).filter (· ≠ key) = left ++ item :: right.filter (· ≠ key) := by
 have earlier := (pairwise_middle.mp increasing).1
 have front : left.filter (· ≠ key) = left :=
  filter_eq_self.mpr fun other member =>
   decide_eq_true ((earlier other member).trans larger).ne
 grind

theorem filter_ne_self : (left ++ item :: right).filter (· ≠ item) = left ++ right := by
 obtain ⟨earlier, later, -⟩ := pairwise_middle.mp increasing
 have front : left.filter (· ≠ item) = left :=
  filter_eq_self.mpr fun other member => decide_eq_true (earlier other member).ne
 have behind : right.filter (· ≠ item) = right :=
  filter_eq_self.mpr fun other member => decide_eq_true (later other member).ne'
 have itself : ¬decide (item ≠ item) = true := fun different => of_decide_eq_true different rfl
 grind

theorem mem_left_iff (smaller : key < item) : key ∈ left ++ item :: right ↔ key ∈ left := by
 have later := (pairwise_middle.mp increasing).2.1
 rw [mem_append, mem_cons]
 refine or_iff_left ?_
 rintro (same | behind)
 · exact smaller.ne same
 · exact smaller.asymm (later key behind)

theorem mem_right_iff (larger : item < key) : key ∈ left ++ item :: right ↔ key ∈ right := by
 have earlier := (pairwise_middle.mp increasing).1
 rw [mem_append, mem_cons]
 constructor
 · rintro (front | same | behind)
   · exact absurd (earlier key front) larger.asymm
   · exact absurd same larger.ne'
   · exact behind
 · exact fun behind => .inr (.inr behind)

end

theorem eq_sort_of_mem_iff {set : Finset α} (increasing : items.Pairwise (· < ·))
 (same : ∀ item, item ∈ items ↔ item ∈ set) : items = set.sort := by
 have whole : items.toFinset = set := Finset.ext fun item => mem_toFinset.trans (same item)
 have distinct : items.Nodup := increasing.imp fun smaller => smaller.ne
 rw [← whole, eq_comm, toFinset_sort (· ≤ ·) distinct]
 exact increasing.imp fun smaller => smaller.le

end Increasing

end MyNotes.Library.SearchTree
