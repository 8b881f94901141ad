/-
The destruction of the AVL tree of the search notes.

A node is a cell of the memory here, and a pointer is the address of a cell, or 0.  `destroy` goes
to the left child, and to the right child only where there is no left one.  It leaves the pointer
it is given as it was, so that a second `destroy` reads deleted cells; what is found there is left
open.
-/

import MyNotes.DataStructures.AVLTree

namespace MyNotes.DataStructures.AVLDestroy

open Library.SearchTree List Option

structure Cell (α : Type*) where
 key : α
 height : ℤ
 left : ℕ
 right : ℕ

/-- The cells, and the addresses that have been deleted, oldest first. -/
structure Memory (α : Type*) where
 cell : ℕ → Cell α
 deleted : List ℕ

structure Object (α : Type*) where
 mRoot : ℕ
 memory : Memory α

variable {α : Type*} (stale : ℕ → Cell α)

/-- From now on the cell is `stale`. -/
def Memory.delete (memory : Memory α) (address : ℕ) : Memory α :=
 { cell := Function.update memory.cell address (stale address)
   deleted := memory.deleted ++ [address] }

/-- `destroy(tree)`, at most so many calls deep. -/
def destroy : ℕ → ℕ → Memory α → Option (Memory α)
 | 0, tree, memory => if tree = 0 then some memory else none
 | depth + 1, tree, memory =>
  if tree = 0 then some memory
  else
   let node := memory.cell tree
   (if node.left ≠ 0 then destroy depth node.left memory
    else destroy depth node.right memory).map fun memory => memory.delete stale tree

/-- `AVLTree::destroy`. -/
def Object.destroy (self : Object α) (depth : ℕ) : Option (Object α) :=
 (AVLDestroy.destroy stale depth self.mRoot self.memory).map fun memory =>
  { self with memory := memory }

/-- `AVLTree::~AVLTree`. -/
def Object.destructor (self : Object α) (depth : ℕ) : Option (Object α) :=
 (AVLDestroy.destroy stale depth self.mRoot self.memory).map fun memory =>
  { self with memory := memory }

/-! ### A tree in the memory -/

def pointer : BinaryTree ℕ → ℕ
 | .nil => 0
 | .node address _ _ => address

/-- The nodes of the tree are the cells at these addresses. -/
def Laid (cell : ℕ → Cell α) : AVLTreeNode α → BinaryTree ℕ → Prop
 | .null, .nil => True
 | .node left key height right, .node address atLeft atRight =>
  address ≠ 0 ∧ cell address = ⟨key, height, pointer atLeft, pointer atRight⟩ ∧
   Laid cell left atLeft ∧ Laid cell right atRight
 | _, _ => False

/-- The object holds the tree, and nothing has been deleted yet. -/
structure Holds (object : Object α) (tree : AVLTree α) (places : BinaryTree ℕ) : Prop where
 root : object.mRoot = pointer places
 laid : Laid object.memory.cell tree.mRoot places
 distinct : (inOrder places).Nodup
 fresh : object.memory.deleted = []

/-- `destroy` deletes the nodes of the tree, each of them once. -/
def DestroysAll (object : Object α) (places : BinaryTree ℕ) : Prop :=
 ∃ depth last, object.destroy stale depth = some last ∧
  last.memory.deleted.Perm (inOrder places)

/-- `destroy` and the destructor behind it end, and nothing is deleted twice. -/
def DeletesOnce (object : Object α) : Prop :=
 ∃ depth depth' middle last, object.destroy stale depth = some middle ∧
  middle.destructor stale depth' = some last ∧ last.memory.deleted.Nodup

def NoTwoChildren : AVLTreeNode α → Prop
 | .null => True
 | .node left _ _ right =>
  (left = .null ∨ right = .null) ∧ NoTwoChildren left ∧ NoTwoChildren right

def below (left right : BinaryTree ℕ) : BinaryTree ℕ :=
 match left with
 | .nil => right
 | .node .. => left

def path : BinaryTree ℕ → List ℕ
 | .nil => []
 | .node address left right =>
  (match left with
   | .nil => path right
   | .node .. => path left) ++ [address]

variable {stale} {memory last : Memory α} {depth : ℕ} {tree : AVLTreeNode α}
 {places : BinaryTree ℕ}

variable {cell : ℕ → Cell α}

theorem Laid.pointer_eq_zero (laid : Laid cell tree places) :
 pointer places = 0 ↔ places = .nil := by
 cases places with
 | nil => exact iff_of_true rfl rfl
 | node address left right =>
  cases tree with
  | null => exact laid.elim
  | node _ _ _ _ => exact iff_of_false laid.1 nofun

theorem Laid.null_iff (laid : Laid cell tree places) :
 tree = .null ↔ places = .nil := by
 cases places with
 | nil =>
  cases tree with
  | null => exact iff_of_true rfl rfl
  | node _ _ _ _ => exact laid.elim
 | node address left right =>
  cases tree with
  | null => exact laid.elim
  | node _ _ _ _ => exact iff_of_false nofun nofun

theorem path_node (address : ℕ) (left right : BinaryTree ℕ) :
 path (.node address left right) = path (below left right) ++ [address] := by
 cases left with
 | nil => rfl
 | node _ _ _ => rfl

theorem destroy_null (depth : ℕ) (memory : Memory α) :
 destroy stale depth 0 memory = some memory := by
 cases depth with
 | zero => rfl
 | succ depth => rfl

theorem destroy_node {address : ℕ} {left right : BinaryTree ℕ}
 (laid : Laid memory.cell tree (.node address left right)) (depth : ℕ) :
 destroy stale (depth + 1) address memory =
  (destroy stale depth (pointer (below left right)) memory).map fun memory =>
   memory.delete stale address := by
 cases tree with
 | null => exact laid.elim
 | node first key height second =>
  obtain ⟨address_ne, cell, laid_left, -⟩ := laid
  rw [destroy, if_neg address_ne]
  dsimp only
  rw [cell]
  cases left with
  | nil => rfl
  | node place left right =>
   have present : pointer (.node place left right) ≠ 0 :=
    laid_left.pointer_eq_zero.not.mpr nofun
   rw [if_pos present]
   rfl

theorem Laid.below {address : ℕ} {left right : BinaryTree ℕ}
 (laid : Laid cell tree (.node address left right)) :
 ∃ tree, Laid cell tree (AVLDestroy.below left right) := by
 cases tree with
 | null => exact laid.elim
 | node first key height second =>
  obtain ⟨-, -, laid_left, laid_right⟩ := laid
  cases left with
  | nil => exact ⟨second, laid_right⟩
  | node _ _ _ => exact ⟨first, laid_left⟩

theorem destroy_path (laid : Laid memory.cell tree places) :
 (∃ depth last, destroy stale depth (pointer places) memory = some last) ∧
  ∀ depth last, destroy stale depth (pointer places) memory = some last →
   last.deleted = memory.deleted ++ path places := by
 induction places generalizing tree with
 | nil =>
  refine ⟨⟨0, memory, rfl⟩, fun depth last ended => ?_⟩
  cases (destroy_null depth memory).symm.trans ended
  exact (append_nil _).symm
 | node address left right ihLeft ihRight =>
  obtain ⟨subtree, laid_below⟩ := laid.below
  have further : (∃ depth last,
   destroy stale depth (pointer (below left right)) memory = some last) ∧
   ∀ depth last, destroy stale depth (pointer (below left right)) memory = some last →
    last.deleted = memory.deleted ++ path (below left right) := by
   cases left with
   | nil => exact ihRight laid_below
   | node _ _ _ => exact ihLeft laid_below
  obtain ⟨⟨depth, middle, ended⟩, deletes⟩ := further
  refine ⟨⟨depth + 1, middle.delete stale address, ?_⟩, fun depth last ended => ?_⟩
  · rw [pointer, destroy_node laid, ended]
    rfl
  · cases depth with
    | zero =>
     rw [destroy, if_neg (laid.pointer_eq_zero.not.mpr nofun)] at ended
     cases ended
    | succ depth =>
     rw [pointer, destroy_node laid] at ended
     obtain ⟨middle, deeper, same⟩ := map_eq_some_iff.mp ended
     rw [← same, Memory.delete, deletes depth middle deeper, path_node, append_assoc]

theorem destroy_deletes {root : ℕ} (ended : destroy stale depth root memory = some last) :
 memory.deleted <+: last.deleted ∧
  (root ≠ 0 → ∃ more, last.deleted = memory.deleted ++ more ++ [root]) := by
 induction depth generalizing root last with
 | zero =>
  rw [destroy] at ended
  split at ended
  · simp_all
  · cases ended
 | succ depth ih =>
  rw [destroy] at ended
  split at ended
  · simp_all
  · obtain ⟨middle, deeper, same⟩ := map_eq_some_iff.mp ended
    subst same
    have grown : memory.deleted <+: middle.deleted := by
     split at deeper
     · exact (ih deeper).1
     · exact (ih deeper).1
    obtain ⟨more, grew⟩ := grown
    have appended : (middle.delete stale root).deleted = memory.deleted ++ more ++ [root] := by
     rw [Memory.delete, grew]
    grind

/-! ### What is deleted -/

theorem length_path_le (places : BinaryTree ℕ) :
 (path places).length ≤ (inOrder places).length := by
 induction places with
 | nil => exact Nat.le_refl 0
 | node address left right ihLeft ihRight =>
  rw [path_node, length_append, inOrder, length_append, length_cons]
  have further : (path (below left right)).length ≤
   (inOrder left).length + (inOrder right).length := by
   cases left with
   | nil => exact Nat.le_add_left_of_le ihRight
   | node _ _ _ => exact Nat.le_add_right_of_le ihLeft
  grind

theorem path_perm_iff (laid : Laid cell tree places) :
 (path places).Perm (inOrder places) ↔ NoTwoChildren tree := by
 induction places generalizing tree with
 | nil =>
  rw [laid.null_iff.mpr rfl]
  exact iff_of_true .nil trivial
 | node address left right ihLeft ihRight =>
  cases tree with
  | null => exact laid.elim
  | node first key height second =>
   obtain ⟨-, -, laid_left, laid_right⟩ := laid
   have without : (path (below left right) ++ [address]).Perm
    (inOrder left ++ address :: inOrder right) ↔
    (path (below left right)).Perm (inOrder left ++ inOrder right) := by
    rw [perm_append_singleton _ _ |>.congr_left, perm_middle.congr_right,
     perm_cons]
   rw [path_node, inOrder, without, NoTwoChildren, laid_left.null_iff, laid_right.null_iff,
    ← ihLeft laid_left, ← ihRight laid_right]
   cases left with
   | nil => exact ⟨fun perm => ⟨.inl rfl, .nil, perm⟩, fun all => all.2.2⟩
   | node place outer inner =>
    constructor
    · intro perm
      have short := length_path_le (.node place outer inner)
      have length := perm.length_eq
      have none : right = .nil := by
       cases right with
       | nil => rfl
       | node other before behind =>
        have positive : 0 < (inOrder (.node other before behind)).length := by
         rw [length_inOrder]
         exact Nat.succ_pos _
        rw [below, length_append] at length
        omega
      subst none
      rw [below, inOrder.eq_1, append_nil] at perm
      exact ⟨.inr rfl, perm, .nil⟩
    · rintro ⟨impossible | none, perm, -⟩
      · cases impossible
      · rw [none, inOrder.eq_1, append_nil]
        exact perm

variable {object : Object α} {held : AVLTree α}

theorem destroysAll_iff (holds : Holds object held places) :
 DestroysAll stale object places ↔ NoTwoChildren held.mRoot := by
 obtain ⟨⟨depth, middle, ended⟩, deletes⟩ := @destroy_path _ stale _ _ _ holds.laid
 rw [← path_perm_iff holds.laid]
 rw [← holds.root] at ended deletes
 constructor
 · rintro ⟨depth, last, ended, perm⟩
   obtain ⟨memory, ended, same⟩ := map_eq_some_iff.mp ended
   rw [← same, deletes depth memory ended, holds.fresh] at perm
   exact perm
 · intro perm
   refine ⟨depth, { object with memory := middle }, ?_, ?_⟩
   · rw [Object.destroy, ended]
     rfl
   · rw [deletes depth middle ended, holds.fresh]
     exact perm

theorem not_deletesOnce (some : object.mRoot ≠ 0) : ¬ DeletesOnce stale object := by
 rintro ⟨depth, depth', middle, last, first, second, once⟩
 obtain ⟨memory, ended, same⟩ := map_eq_some_iff.mp first
 subst same
 obtain ⟨memory', ended', same⟩ := map_eq_some_iff.mp second
 subst same
 obtain ⟨more, deleted⟩ := (destroy_deletes ended).2 some
 obtain ⟨more', again⟩ := (destroy_deletes ended').2 some
 change memory'.deleted.Nodup at once
 have early : object.mRoot ∈ memory.deleted ++ more' :=
  mem_append_left _ (deleted ▸ mem_append_right _ (mem_singleton_self _))
 grind

theorem deletesOnce_null (none : object.mRoot = 0) (fresh : object.memory.deleted = []) :
 DeletesOnce stale object := by
 obtain ⟨root, memory⟩ := object
 subst none
 exact ⟨0, 0, _, _, rfl, rfl, (show memory.deleted = [] from fresh) ▸ nodup_nil⟩

/-- `destroy` deletes every node once if and only if no node has two children; and only of an empty
tree nothing is deleted twice by the destructor. -/
theorem destroy_frees_once_iff (holds : Holds object held places) (stale : ℕ → Cell α) :
 (DestroysAll stale object places ↔ NoTwoChildren held.mRoot) ∧
  (DestroysAll stale object places ∧ DeletesOnce stale object ↔ held.mRoot = .null) := by
 refine ⟨destroysAll_iff holds, fun both => ?_, fun empty => ?_⟩
 · by_contra some
   refine not_deletesOnce ?_ both.2
   rw [holds.root]
   exact holds.laid.pointer_eq_zero.not.mpr (holds.laid.null_iff.not.mp some)
 · refine ⟨(destroysAll_iff holds).mpr (empty ▸ trivial), deletesOnce_null ?_ holds.fresh⟩
   rw [holds.root]
   exact holds.laid.pointer_eq_zero.mpr (holds.laid.null_iff.mp empty)

def threeNodes : Object ℕ where
 mRoot := 1
 memory := ⟨fun
  | 1 => ⟨2, 2, 2, 3⟩
  | 2 => ⟨1, 1, 0, 0⟩
  | _ => ⟨3, 1, 0, 0⟩, []⟩

theorem threeNodes_holds :
 Holds threeNodes ⟨.node (.node .null 1 1 .null) 2 2 (.node .null 3 1 .null)⟩
  (.node 1 (.node 2 .nil .nil) (.node 3 .nil .nil)) := by
 refine ⟨rfl, ⟨by decide, rfl, ⟨by decide, rfl, trivial, trivial⟩, by decide, rfl, trivial,
  trivial⟩, by decide, rfl⟩

theorem destroy_frees_once_three :
 (DestroysAll threeNodes.memory.cell threeNodes
  (.node 1 (.node 2 .nil .nil) (.node 3 .nil .nil)) ↔
  NoTwoChildren (.node (.node .null 1 1 .null) 2 2 (.node .null 3 1 .null))) ∧
 (DestroysAll threeNodes.memory.cell threeNodes
  (.node 1 (.node 2 .nil .nil) (.node 3 .nil .nil)) ∧
  DeletesOnce threeNodes.memory.cell threeNodes ↔
  AVLTreeNode.node (.node .null 1 1 .null) 2 2 (.node .null 3 1 .null) = .null) :=
 destroy_frees_once_iff threeNodes_holds threeNodes.memory.cell

/-- Of three keys the right one is never deleted, and the root is deleted twice. -/
theorem destroy_leaks : ¬ ∀ (operations : List (AVLTree.Operation ℕ)) (tree : AVLTree ℕ)
 (object : Object ℕ) (places : BinaryTree ℕ),
 AVLTree.run ⟨.null⟩ operations = some tree → Holds object tree places →
  ∀ stale, DestroysAll stale object places ∧ DeletesOnce stale object := by
 intro all
 have ran : AVLTree.run (⟨.null⟩ : AVLTree ℕ) [.insert 2, .insert 1, .insert 3] =
  some ⟨.node (.node .null 1 1 .null) 2 2 (.node .null 3 1 .null)⟩ := rfl
 have destroys := (all _ _ _ _ ran threeNodes_holds threeNodes.memory.cell).1
 obtain ⟨one, -⟩ := (destroysAll_iff threeNodes_holds).mp destroys
 exact one.elim nofun nofun

end MyNotes.DataStructures.AVLDestroy
