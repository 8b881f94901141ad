/-
`deleteNode` of the search notes, on search trees without parent links.

The memory keeps the addresses that are read or written, so that what the function leaves alone can
be said.
-/

import MyNotes.DataStructures.TreeNode

namespace MyNotes.DataStructures.DeleteNode

open Library.SearchTree Library.TreeMirror TreeNode Function List List.Subset

/-- The nodes, and the addresses that have been read or written, oldest first. -/
structure Memory where
 node : ℕ → TreeNode
 touched : List ℕ

def Memory.touch (memory : Memory) (address : ℕ) : Memory :=
 { memory with touched := memory.touched ++ [address] }

def Memory.write (memory : Memory) (address : ℕ) (change : TreeNode → TreeNode) : Memory :=
 { node := update memory.node address (change (memory.node address))
   touched := memory.touched ++ [address] }

/-- `while (s->right) { p = s; s = s->right; }`. -/
def predecessorLoop : ℕ → ℕ → ℕ → Memory → Option (ℕ × ℕ × Memory)
 | 0, _, _, _ => none
 | rounds + 1, p, s, memory =>
  let right := (memory.node s).right
  let memory := memory.touch s
  if right ≠ 0 then predecessorLoop rounds s right memory else some (p, s, memory)

/-- At most so many calls deep, and as many rounds of the loop. -/
def deleteNode (key : ℤ) : ℕ → ℕ → Memory → Option (ℕ × Memory)
 | 0, root, memory => if root = 0 then some (0, memory) else none
 | depth + 1, root, memory =>
  if root = 0 then some (0, memory)
  else
   let node := memory.node root
   let memory := memory.touch root
   if node.val > key then
    (deleteNode key depth node.left memory).map fun (left, memory) =>
     (root, memory.write root fun node => { node with left := left })
   else if node.val < key then
    (deleteNode key depth node.right memory).map fun (right, memory) =>
     (root, memory.write root fun node => { node with right := right })
   else if node.val = key then
    if node.left = 0 ∧ node.right = 0 then some (0, memory)
    else if node.left = 0 then some (node.right, memory)
    else if node.right = 0 then some (node.left, memory)
    else
     (predecessorLoop depth root node.left memory).map fun (p, s, memory) =>
      let last := memory.node s
      let memory := memory.write root fun node => { node with val := last.val }
      let last := memory.node s
      let memory := memory.touch s
      (root,
       if root = p then memory.write p fun node => { node with left := last.left }
       else memory.write p fun node => { node with right := last.left })
   else some (root, memory)

/-! ### The paths, and the tree that is left -/

def searchPath (key : ℤ) : BinaryTree (ℕ × ℤ) → List ℕ
 | .nil => []
 | .node item left right =>
  item.1 :: if item.2 > key then searchPath key left
   else if item.2 < key then searchPath key right else []

def rightSpine : BinaryTree (ℕ × ℤ) → List ℕ
 | .nil => []
 | .node item _ right => item.1 :: rightSpine right

/-- The nodes from the left child of the node with the key to its in-order predecessor. -/
def predecessorPath (key : ℤ) : BinaryTree (ℕ × ℤ) → List ℕ
 | .nil => []
 | .node item left right =>
  if item.2 > key then predecessorPath key left
  else if item.2 < key then predecessorPath key right else rightSpine left

/-- The last item of a tree with that root, and the tree without it. -/
def unlinkLast (item : ℕ × ℤ) (left : BinaryTree (ℕ × ℤ)) :
 BinaryTree (ℕ × ℤ) → (ℕ × ℤ) × BinaryTree (ℕ × ℤ)
 | .nil => (item, left)
 | .node next below below' =>
  ((unlinkLast next below below').1, .node item left (unlinkLast next below below').2)

/-- The node with the key takes the value of its predecessor, which is taken out instead of it. -/
def withoutRoot (address : ℕ) : BinaryTree (ℕ × ℤ) → BinaryTree (ℕ × ℤ) → BinaryTree (ℕ × ℤ)
 | .nil, right => right
 | left, .nil => left
 | .node item below below', right =>
  .node (address, (unlinkLast item below below').1.2) (unlinkLast item below below').2 right

def without (key : ℤ) : BinaryTree (ℕ × ℤ) → BinaryTree (ℕ × ℤ)
 | .nil => .nil
 | .node item left right =>
  if item.2 > key then .node item (without key left) right
  else if item.2 < key then .node item left (without key right)
  else withoutRoot item.1 left right

/-- From one memory to the other these addresses have been read or written. -/
structure Touches (memory memory' : Memory) (seen : List ℕ) : Prop where
 logged : memory'.touched = memory.touched ++ seen
 unchanged : ∀ address ∉ seen, memory'.node address = memory.node address

variable {memory memory' memory'' : Memory} {seen seen' : List ℕ} {node node' : ℕ → TreeNode}
 {shape left right : BinaryTree (ℕ × ℤ)} {item : ℕ × ℤ} {key : ℤ}

theorem touches_touch (memory : Memory) (address : ℕ) :
 Touches memory (memory.touch address) [address] :=
 ⟨rfl, fun _ _ => rfl⟩

theorem touches_write (memory : Memory) (address : ℕ) (change : TreeNode → TreeNode) :
 Touches memory (memory.write address change) [address] :=
 ⟨rfl, fun _ other => update_other _ (ne_of_not_mem_cons other)⟩

theorem Touches.trans (first : Touches memory memory' seen)
 (second : Touches memory' memory'' seen') : Touches memory memory'' (seen ++ seen') := by
 constructor
 · rw [second.logged, first.logged, append_assoc]
 · intro address other
   rw [mem_append, not_or] at other
   exact (second.unchanged address other.2).trans (first.unchanged address other.1)

theorem Laid.write {change : TreeNode → TreeNode} (nonnull : item.1 ≠ 0)
 (laid_left : Laid memory.node left) (laid_right : Laid memory.node right)
 (not_left : item.1 ∉ addresses left) (not_right : item.1 ∉ addresses right)
 (here : change (memory.node item.1) = ⟨item.2, pointer left, pointer right⟩) :
 Laid (memory.write item.1 change).node (.node item left right) := by
 refine ⟨nonnull, (update_self _ _ _).trans here, laid_left.congr ?_,
  laid_right.congr ?_⟩
 · exact fun address member => update_other _ (ne_of_mem_of_not_mem member not_left)
 · exact fun address member => update_other _ (ne_of_mem_of_not_mem member not_right)

theorem around_subset {address : ℕ} {inside : List ℕ} (below : seen ⊆ inside) :
 [address] ++ seen ++ [address] ⊆ address :: inside := by
 intro other member
 rcases mem_append.mp member with front | same
 · rcases mem_append.mp front with same | member
   · simp_all
   · exact mem_cons_of_mem _ (below member)
 · simp_all

theorem rightSpine_subset (shape : BinaryTree (ℕ × ℤ)) : rightSpine shape ⊆ addresses shape := by
 induction shape with
 | nil => exact refl _
 | node item left right _ ihRight =>
  refine cons_subset.mpr ⟨mem_addresses.mpr (.inl rfl), fun address member => ?_⟩
  exact mem_addresses.mpr (.inr (.inr (ihRight member)))

theorem paths_subset (key : ℤ) (shape : BinaryTree (ℕ × ℤ)) :
 searchPath key shape ++ predecessorPath key shape ⊆ addresses shape := by
 induction shape with
 | nil => exact refl _
 | node item left right ihLeft ihRight =>
  intro address member
  rw [searchPath, predecessorPath, cons_append, mem_cons] at member
  rw [mem_addresses]
  refine member.imp_right fun member => ?_
  split at member
  · grind
  · split at member
    · grind
    · exact .inl (rightSpine_subset left member)

/-! ### The tree without the key -/

theorem inOrder_unlinkLast (item : ℕ × ℤ) (left right : BinaryTree (ℕ × ℤ)) :
 inOrder (.node item left right) =
  inOrder (unlinkLast item left right).2 ++ [(unlinkLast item left right).1] := by
 induction right generalizing item left with
 | nil => rfl
 | node next below below' _ ih =>
  rw [inOrder, ih, unlinkLast, inOrder, append_assoc, cons_append]

theorem addresses_unlinkLast (item : ℕ × ℤ) (left right : BinaryTree (ℕ × ℤ)) :
 (addresses (unlinkLast item left right).2).Sublist (addresses (.node item left right)) := by
 rw [addresses, addresses, inOrder_map, inOrder_map, inOrder_unlinkLast]
 exact (sublist_append_left _ _).map Prod.fst

theorem pointer_unlinkLast (item : ℕ × ℤ) (left : BinaryTree (ℕ × ℤ)) (more : right ≠ .nil) :
 pointer (unlinkLast item left right).2 = item.1 := by
 cases right with
 | nil => exact absurd rfl more
 | node => rfl

theorem withoutRoot_eq {address : ℕ} {below below' : BinaryTree (ℕ × ℤ)} (more : right ≠ .nil) :
 withoutRoot address (.node item below below') right =
  .node (address, (unlinkLast item below below').1.2)
   (unlinkLast item below below').2 right := by
 cases right with
 | nil => exact absurd rfl more
 | node => rfl

theorem addresses_withoutRoot (item : ℕ × ℤ) (left right : BinaryTree (ℕ × ℤ)) :
 (addresses (withoutRoot item.1 left right)).Sublist (addresses (.node item left right)) := by
 simp only [addresses, inOrder_map]
 cases left with
 | nil => exact (sublist_cons_self item (inOrder right)).map Prod.fst
 | node own below below' =>
  cases right with
  | nil => exact (sublist_append_left _ _).map Prod.fst
  | node next _ _ =>
   rw [withoutRoot, inOrder, inOrder.eq_2 item, inOrder_unlinkLast own, map_append,
    map_append, map_append]
   · exact (sublist_append_left _ _).append_right _
   · intro leaf; cases leaf

theorem addresses_without (key : ℤ) (shape : BinaryTree (ℕ × ℤ)) :
 (addresses (without key shape)).Sublist (addresses shape) := by
 induction shape with
 | nil => exact List.Sublist.refl _
 | node item left right ihLeft ihRight =>
  rw [without]
  split
  · exact ihLeft.append_right _
  · split
    · exact (ihRight.cons_cons item.1).append_left _
    · exact addresses_withoutRoot item left right

theorem keys_withoutRoot (item : ℕ × ℤ) (left right : BinaryTree (ℕ × ℤ)) :
 keys (withoutRoot item.1 left right) = keys left ++ keys right := by
 simp only [TreeNode.keys, inOrder_map]
 cases left with
 | nil => rfl
 | node own below below' =>
  cases right with
  | nil => exact (append_nil _).symm
  | node next _ _ =>
   rw [withoutRoot, inOrder, inOrder_unlinkLast own, map_append, map_append,
    append_assoc]
   · rfl
   · intro leaf; cases leaf

theorem keys_without (key : ℤ) (ordered : (keys shape).Pairwise (· < ·)) :
 keys (without key shape) = (keys shape).filter (· ≠ key) := by
 induction shape with
 | nil => rfl
 | node item left right ihLeft ihRight =>
  rw [keys_node] at ordered ⊢
  obtain ⟨-, -, ordered_left, ordered_right⟩ := pairwise_middle.mp ordered
  rw [without]
  split
  · rename_i smaller
    rw [filter_ne_of_lt ordered smaller, ← ihLeft ordered_left]
    rfl
  · rename_i not_smaller
    split
    · rename_i larger
      rw [filter_ne_of_gt ordered larger, ← ihRight ordered_right]
      rfl
    · rename_i not_larger
      have found : item.2 = key := le_antisymm (not_lt.mp not_smaller) (not_lt.mp not_larger)
      rw [← found, filter_ne_self ordered, keys_withoutRoot]

/-! ### The tree in the memory -/

theorem predecessorLoop_eq {rounds p : ℕ} (laid : Laid memory.node (.node item left right))
 (distinct : (addresses (.node item left right)).Nodup) (enough : right.height < rounds) :
 ∃ p' below, predecessorLoop rounds p item.1 memory =
  some (p', (unlinkLast item left right).1.1,
   { memory with touched := memory.touched ++ rightSpine (.node item left right) }) ∧
  memory.node (unlinkLast item left right).1.1 =
   ⟨(unlinkLast item left right).1.2, below, 0⟩ ∧
  ((right = .nil ∧ p' = p ∧ below = pointer left) ∨
   (right ≠ .nil ∧ p' ∈ rightSpine (.node item left right) ∧
    Laid (update memory.node p' { memory.node p' with right := below })
     (unlinkLast item left right).2)) := by
 induction right generalizing item left p rounds memory with
 | nil =>
  cases rounds with
  | zero => cases enough
  | succ rounds =>
   obtain ⟨-, here, -⟩ := laid
   refine ⟨p, pointer left, ?_, here, .inl ⟨rfl, rfl, rfl⟩⟩
   rw [predecessorLoop, here]
   rfl
 | node next below below' _ ih =>
  cases rounds with
  | zero => cases enough
  | succ rounds =>
   obtain ⟨nonnull, here, laid_left, laid_right⟩ := laid
   obtain ⟨not_left, not_right, -, distinct_right, apart⟩ := nodup_addresses.mp distinct
   have fewer : below'.height < rounds :=
    (le_max_right _ _).trans_lt (Nat.lt_of_succ_lt_succ enough)
   obtain ⟨p', link, walked, last, above⟩ :=
    ih (p := item.1) (show Laid (memory.touch item.1).node _ from laid_right) distinct_right
     fewer
   refine ⟨p', link, ?_, last, .inr ⟨nofun, ?_⟩⟩
   · rw [predecessorLoop, here]
     refine (if_pos laid_right.1).trans (walked.trans ?_)
     rw [rightSpine, Memory.touch, append_assoc]
     rfl
   · rcases above with ⟨rfl, rfl, rfl⟩ | ⟨more, inside, laid_rest⟩
     · -- the last node is the right child
       obtain ⟨-, -, laid_below, -⟩ := laid_right
       refine ⟨mem_cons_self, nonnull, ?_, laid_left.congr ?_, laid_below.congr ?_⟩
       · refine (update_self _ _ _).trans ?_
         exact congrArg (fun node : TreeNode => { node with right := pointer below }) here
       · grind
       · refine fun address member => update_other _ (ne_of_mem_of_not_mem ?_ not_right)
         exact mem_addresses.mpr (.inr (.inl member))
     · have other : p' ∈ addresses (.node next below below') :=
        rightSpine_subset _ inside
       refine ⟨mem_cons_of_mem _ inside, nonnull, ?_, laid_left.congr ?_, laid_rest⟩
       · refine (update_other _ (ne_of_mem_of_not_mem other not_right).symm).trans ?_
         cases below' with
         | nil => exact absurd rfl more
         | node => exact here
       · exact fun address member => update_other _ fun same => apart member (same ▸ other)

theorem last_mem_rightSpine (item : ℕ × ℤ) (left right : BinaryTree (ℕ × ℤ)) :
 (unlinkLast item left right).1.1 ∈ rightSpine (.node item left right) := by
 induction right generalizing item left with
 | nil => exact mem_cons_self
 | node next below below' _ ih => exact mem_cons_of_mem _ (ih next below)

variable {depth : ℕ}

theorem deleteNode_twoChildren {next : ℕ × ℤ} {below below' : BinaryTree (ℕ × ℤ)}
 (laid : Laid memory.node (.node item (.node next below below') right)) (more : right ≠ .nil)
 (distinct : (addresses (.node item (.node next below below') right)).Nodup)
 (enough : (BinaryTree.node next below below').height ≤ depth) :
 ∃ memory' seen, deleteNode item.2 (depth + 1) item.1 memory = some (item.1, memory') ∧
  Touches memory memory' seen ∧ seen ⊆ item.1 :: rightSpine (.node next below below') ∧
  Laid memory'.node (withoutRoot item.1 (.node next below below') right) := by
 obtain ⟨nonnull, here, laid_left, laid_right⟩ := laid
 obtain ⟨not_left, not_right, distinct_left, -, apart⟩ := nodup_addresses.mp distinct
 have fewer : below'.height < depth :=
  Nat.lt_of_lt_of_le ((le_max_right _ _).trans_lt (Nat.lt_succ_self _)) enough
 obtain ⟨p, link, walked, last, above⟩ := predecessorLoop_eq (p := item.1)
  (show Laid (memory.touch item.1).node _ from laid_left) distinct_left fewer
 have on_spine := last_mem_rightSpine next below below'
 obtain ⟨final, named⟩ : ∃ final, final = (unlinkLast next below below').1 := ⟨_, rfl⟩
 rw [← named] at walked last on_spine
 have apart_last : final.1 ≠ item.1 :=
  ne_of_mem_of_not_mem (rightSpine_subset _ on_spine) not_left
 obtain ⟨memory₁, made₁⟩ : ∃ memory₁ : Memory, memory₁ = { memory.touch item.1 with
  touched := (memory.touch item.1).touched ++ rightSpine (.node next below below') } := ⟨_, rfl⟩
 obtain ⟨memory₂, made₂⟩ : ∃ memory₂ : Memory, memory₂ =
  (memory₁.write item.1 fun node => { node with val := final.2 }).touch final.1 := ⟨_, rfl⟩
 have touches : Touches memory memory₂ (item.1 :: rightSpine (.node next below below') ++
  [item.1] ++ [final.1]) := by
  rw [made₂, made₁]
  refine Touches.trans (Touches.trans (Touches.trans (touches_touch memory item.1) ?_)
   (touches_write _ _ _)) (touches_touch _ _)
  exact ⟨rfl, fun _ _ => rfl⟩
 have root : memory₂.node item.1 = ⟨final.2, next.1, pointer right⟩ := by
  rw [made₂, made₁]
  refine (update_self _ _ _).trans ?_
  exact congrArg (fun node : TreeNode => { node with val := final.2 }) here
 have others : ∀ address, address ≠ item.1 → memory₂.node address = memory.node address := by
  intro address different
  rw [made₂, made₁]
  exact update_other _ different
 have deleted : deleteNode item.2 (depth + 1) item.1 memory = some (item.1,
  if item.1 = p then memory₂.write p fun node => { node with left := link }
  else memory₂.write p fun node => { node with right := link }) := by
  have last_left : (memory₂.node final.1).left = link := by
   rw [others final.1 apart_last]
   exact congrArg TreeNode.left last
  have last_val : (memory₁.node final.1).val = final.2 := by
   rw [made₁]
   exact congrArg TreeNode.val last
  have both : ¬(next.1 = 0 ∧ pointer right = 0) := fun none => laid_left.1 none.1
  have right_nonnull : pointer right ≠ 0 := fun null => more (laid_right.pointer_eq_zero.mp null)
  rw [deleteNode, if_neg nonnull]
  simp only [here, gt_iff_lt, lt_irrefl, if_false, if_true, pointer_node, if_neg both,
   if_neg laid_left.1, if_neg right_nonnull]
  rw [walked, ← made₁, Option.map_some]
  simp only [last_val]
  rw [← last_left, made₂]
  rfl
 rw [withoutRoot_eq more, ← named]
 have unseen : ∀ address ∈ addresses right, address ≠ item.1 :=
  fun address member => ne_of_mem_of_not_mem member not_right
 rcases above with ⟨rfl, rfl, rfl⟩ | ⟨deeper, inside, laid_rest⟩
 · -- the last node is the left child, and the root is relinked
   obtain ⟨-, -, laid_below, -⟩ := laid_left
   have not_below : item.1 ∉ addresses below :=
    fun member => not_left (mem_addresses.mpr (.inr (.inl member)))
   refine ⟨_, _, deleted.trans (by rw [if_pos rfl]), touches.trans (touches_write _ _ _), ?_,
    Laid.write (show (item.1, final.2).1 ≠ 0 from nonnull) (laid_below.congr ?_)
     (laid_right.congr ?_) not_below not_right ?_⟩
   · simpa using Or.inr on_spine
   · grind
   · simp_all
   · exact congrArg (fun node : TreeNode => { node with left := pointer below }) root
 · have on_left : p ∈ addresses (.node next below below') := rightSpine_subset _ inside
   have different : p ≠ item.1 := ne_of_mem_of_not_mem on_left not_left
   refine ⟨_, _, deleted.trans (by rw [if_neg different.symm]),
    touches.trans (touches_write _ _ _), ?_, nonnull, ?_, laid_rest.congr ?_,
    laid_right.congr ?_⟩
   · simp_all
   · rw [pointer_unlinkLast next below deeper]
     exact (update_other _ different.symm).trans root
   · intro address member
     have kept := others address (ne_of_mem_of_not_mem
      ((addresses_unlinkLast next below below').subset member) not_left)
     by_cases here : address = p
     · subst here
       refine (update_self _ _ _).trans ?_
       refine Eq.trans ?_ (update_self (β := fun _ => TreeNode) address _ _).symm
       exact congrArg (fun node : TreeNode => { node with right := link }) kept
     · exact (update_other _ here).trans (kept.trans (update_other _ here).symm)
   · intro address member
     have elsewhere : address ≠ p := fun same => apart (same ▸ on_left) member
     exact (update_other _ elsewhere).trans (others address (unseen address member))

theorem deleteNode_found (laid : Laid memory.node (.node item left right))
 (distinct : (addresses (.node item left right)).Nodup) (enough : left.height ≤ depth) :
 ∃ memory' seen, deleteNode item.2 (depth + 1) item.1 memory =
  some (pointer (withoutRoot item.1 left right), memory') ∧
  Touches memory memory' seen ∧ seen ⊆ item.1 :: rightSpine left ∧
  Laid memory'.node (withoutRoot item.1 left right) := by
 cases left with
 | nil =>
  obtain ⟨nonnull, here, -, laid_right⟩ := laid
  refine ⟨memory.touch item.1, [item.1], ?_, touches_touch memory item.1,
   refl _, laid_right⟩
  rw [deleteNode, if_neg nonnull]
  by_cases leaf : pointer right = 0
  · simp [here, pointer_nil, withoutRoot, leaf]
  · simp [here, pointer_nil, withoutRoot, leaf]
 | node next below below' =>
  by_cases more : right = .nil
  · subst more
    obtain ⟨nonnull, here, laid_left, -⟩ := laid
    refine ⟨memory.touch item.1, [item.1], ?_, touches_touch memory item.1,
     cons_subset_cons _ (nil_subset _), laid_left⟩
    have left_nonnull : next.1 ≠ 0 := laid_left.1
    rw [deleteNode, if_neg nonnull]
    simp [here, pointer_node, pointer_nil, withoutRoot, left_nonnull]
  · have root : pointer (withoutRoot item.1 (.node next below below') right) = item.1 := by
     rw [withoutRoot_eq more, pointer_node]
    rw [root]
    exact deleteNode_twoChildren laid more distinct enough

theorem deleteNode_eq (key : ℤ) (laid : Laid memory.node shape) (distinct : (addresses shape).Nodup)
 (enough : shape.height ≤ depth) :
 ∃ memory' seen, deleteNode key depth (pointer shape) memory =
  some (pointer (without key shape), memory') ∧
  Touches memory memory' seen ∧ seen ⊆ searchPath key shape ++ predecessorPath key shape ∧
  Laid memory'.node (without key shape) := by
 induction shape generalizing depth memory with
 | nil =>
  refine ⟨memory, [], ?_, ⟨(append_nil _).symm, fun _ _ => rfl⟩, nil_subset _,
   trivial⟩
  cases depth <;> rfl
 | node item left right ihLeft ihRight =>
  cases depth with
  | zero => cases enough
  | succ depth =>
   have lower : max left.height right.height ≤ depth := Nat.le_of_succ_le_succ enough
   rw [searchPath, predecessorPath, without, pointer_node, cons_append]
   by_cases smaller : item.2 > key
   · obtain ⟨nonnull, here, laid_left, laid_right⟩ := laid
     obtain ⟨not_left, not_right, distinct_left, -, apart⟩ := nodup_addresses.mp distinct
     obtain ⟨memory', seen, deleted, touches, inside, laid_left'⟩ :=
      ihLeft (show Laid (memory.touch item.1).node _ from laid_left) distinct_left
       ((le_max_left _ _).trans lower)
     have below := List.Subset.trans inside (paths_subset key left)
     rw [if_pos smaller, if_pos smaller, if_pos smaller]
     refine ⟨_, _, ?_, ((touches_touch memory item.1).trans touches).trans
      (touches_write memory' item.1 fun node =>
       { node with left := pointer (without key left) }),
      around_subset inside, Laid.write nonnull laid_left' (laid_right.congr ?_)
       (fun member => not_left ((addresses_without key left).subset member)) not_right ?_⟩
     · rw [deleteNode, if_neg nonnull]
       simp only [here, if_pos smaller, deleted, Option.map_some, pointer_node]
     · exact fun address member =>
        touches.unchanged address fun seen => apart (below seen) member
     · rw [touches.unchanged item.1 fun seen => not_left (below seen)]
       exact congrArg (fun node : TreeNode =>
        { node with left := pointer (without key left) }) here
   · rw [if_neg smaller, if_neg smaller, if_neg smaller]
     by_cases larger : item.2 < key
     · obtain ⟨nonnull, here, laid_left, laid_right⟩ := laid
       obtain ⟨not_left, not_right, -, distinct_right, apart⟩ :=
        nodup_addresses.mp distinct
       obtain ⟨memory', seen, deleted, touches, inside, laid_right'⟩ :=
        ihRight (show Laid (memory.touch item.1).node _ from laid_right) distinct_right
         ((le_max_right _ _).trans lower)
       have below := List.Subset.trans inside (paths_subset key right)
       rw [if_pos larger, if_pos larger, if_pos larger]
       refine ⟨_, _, ?_, ((touches_touch memory item.1).trans touches).trans
        (touches_write memory' item.1 fun node =>
         { node with right := pointer (without key right) }),
        around_subset inside, Laid.write nonnull (laid_left.congr ?_) laid_right' not_left
         (fun member => not_right ((addresses_without key right).subset member)) ?_⟩
       · rw [deleteNode, if_neg nonnull]
         simp only [here, if_neg smaller, if_pos larger, deleted, Option.map_some,
          pointer_node]
       · exact fun address member =>
          touches.unchanged address fun seen => apart member (below seen)
       · rw [touches.unchanged item.1 fun seen => not_right (below seen)]
         exact congrArg (fun node : TreeNode =>
          { node with right := pointer (without key right) }) here
     · rw [if_neg larger, if_neg larger, if_neg larger, nil_append]
       have found : item.2 = key := le_antisymm (not_lt.mp smaller) (not_lt.mp larger)
       rw [← found]
       exact deleteNode_found laid distinct ((le_max_left _ _).trans lower)

/-- `deleteNode` removes the key and reads and writes along the two paths only. -/
theorem deleteNode_removes (key : ℤ) (memory : Memory) (shape : BinaryTree (ℕ × ℤ))
 (laid : Laid memory.node shape) (distinct : (addresses shape).Nodup)
 (ordered : IsSearchTree (· < ·) (shape.map Prod.snd)) (depth : ℕ)
 (enough : shape.height ≤ depth) :
 ∃ root memory' shape' seen,
  deleteNode key depth (pointer shape) memory = some (root, memory') ∧
  root = pointer shape' ∧ Laid memory'.node shape' ∧ (addresses shape').Nodup ∧
  IsSearchTree (· < ·) (shape'.map Prod.snd) ∧
  keys shape' = (keys shape).filter (· ≠ key) ∧
  memory'.touched = memory.touched ++ seen ∧
  seen ⊆ searchPath key shape ++ predecessorPath key shape ∧
  ∀ address ∉ seen, memory'.node address = memory.node address := by
 obtain ⟨memory', seen, deleted, touches, inside, laid'⟩ :=
  deleteNode_eq key laid distinct enough
 have increasing := isSearchTree_iff.mp ordered
 have removed := keys_without key increasing
 refine ⟨_, memory', without key shape, seen, deleted, rfl, laid',
  distinct.sublist (addresses_without key shape), isSearchTree_iff.mpr ?_, removed,
  touches.logged, inside, touches.unchanged⟩
 exact (congrArg (List.Pairwise (· < ·)) removed).mpr (increasing.sublist filter_sublist)

theorem deleteNode_removes_fifty :
 let memory : Memory := ⟨fun
  | 1 => ⟨50, 2, 5⟩
  | 2 => ⟨20, 0, 3⟩
  | 3 => ⟨30, 4, 0⟩
  | 4 => ⟨25, 0, 0⟩
  | _ => ⟨60, 0, 0⟩, []⟩
 ∃ root memory' shape', deleteNode 50 4 1 memory = some (root, memory') ∧
  root = pointer shape' ∧ Laid memory'.node shape' ∧ keys shape' = [20, 25, 30, 60] := by
 intro memory
 obtain ⟨root, memory', shape', -, deleted, at_root, laid, -, -, removed, -⟩ :=
  deleteNode_removes 50 memory
   (.node (1, 50) (.node (2, 20) .nil (.node (3, 30) (.node (4, 25) .nil .nil) .nil))
    (.node (5, 60) .nil .nil))
   ⟨by decide, rfl, ⟨by decide, rfl, trivial, by decide, rfl,
    ⟨by decide, rfl, trivial, trivial⟩, trivial⟩, by decide, rfl, trivial, trivial⟩
   (by decide) (isSearchTree_iff.mpr (by decide)) 4 (by decide)
 exact ⟨root, memory', shape', deleted, at_root, laid, removed.trans (by decide)⟩

end MyNotes.DataStructures.DeleteNode
