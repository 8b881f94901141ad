/-
The AVL tree of the search notes.

A node is a pointer to it: `null` stands for the null pointer, and an operation that reads a field
through a null pointer has no result.  `remove` is given a node and reads only its key.
-/

import MyNotes.Library.SearchTree

namespace MyNotes.DataStructures

open Library.SearchTree

inductive AVLTreeNode (α : Type*) where
 | null
 | node (left : AVLTreeNode α) (key : α) (height : ℤ) (right : AVLTreeNode α)
 deriving DecidableEq

namespace AVLTreeNode

variable {α : Type*}

def height : AVLTreeNode α → ℤ
 | .null => 0
 | .node _ _ height _ => height

/-- `tree->height = max(height(tree->left), height(tree->right)) + 1`. -/
def updateHeight : AVLTreeNode α → Option (AVLTreeNode α)
 | .null => none
 | .node left key _ right => some (.node left key (max left.height right.height + 1) right)

/-- `k2` is the node given, `k1` its left child. -/
def leftLeftRotation : AVLTreeNode α → Option (AVLTreeNode α)
 | .node (.node first k1 _ second) k2 _ third =>
  let height2 := max second.height third.height + 1
  let height1 := max first.height height2 + 1
  some (.node first k1 height1 (.node second k2 height2 third))
 | _ => none

/-- `k1` is the node given, `k2` its right child.  The new height of `k2` is taken from the right
child of `k1`, not from that of `k2`. -/
def rightRightRotation : AVLTreeNode α → Option (AVLTreeNode α)
 | .node first k1 _ (.node second k2 _ third) =>
  let height1 := max first.height second.height + 1
  let height2 := max second.height height1 + 1
  some (.node (.node first k1 height1 second) k2 height2 third)
 | _ => none

def leftRightRotation : AVLTreeNode α → Option (AVLTreeNode α)
 | .null => none
 | .node left k3 height right =>
  (rightRightRotation left).bind fun left => leftLeftRotation (.node left k3 height right)

def rightLeftRotation : AVLTreeNode α → Option (AVLTreeNode α)
 | .null => none
 | .node left k1 height right =>
  (leftLeftRotation right).bind fun right => rightRightRotation (.node left k1 height right)

/-- The key of the last node reached by going left. -/
def minimum : AVLTreeNode α → Option α
 | .null => none
 | .node .null key _ _ => some key
 | .node left _ _ _ => left.minimum

/-- The key of the last node reached by going right. -/
def maximum : AVLTreeNode α → Option α
 | .null => none
 | .node _ key _ .null => some key
 | .node _ _ _ right => right.maximum

def isNull : AVLTreeNode α → Bool
 | .null => true
 | .node .. => false

/-- The end of `remove`, from the update of the height on. -/
def rebalance : AVLTreeNode α → Option (AVLTreeNode α)
 | .null => some .null
 | .node left key _ right =>
  let tree : AVLTreeNode α := .node left key (max left.height right.height + 1) right
  let balance := left.height - right.height
  if 1 < balance then
   match left with
   | .null => none
   | .node inner _ _ outer =>
    if inner.height - outer.height < 0 then leftRightRotation tree
    else leftLeftRotation tree
  else if balance < -1 then
   match right with
   | .null => none
   | .node inner _ _ outer =>
    if 0 < inner.height - outer.height then rightLeftRotation tree
    else rightRightRotation tree
  else some tree

section Ordered

variable [LinearOrder α]

def search : AVLTreeNode α → α → AVLTreeNode α
 | .null, _ => .null
 | .node left own height right, key =>
  if own = key then .node left own height right
  else if key < own then left.search key
  else right.search key

def iterativeSearch : AVLTreeNode α → α → AVLTreeNode α
 | .null, _ => .null
 | .node left own height right, key =>
  if own ≠ key then
   if key < own then left.iterativeSearch key else right.iterativeSearch key
  else .node left own height right

/-- After the insertion of `key` on the left. -/
def balanceLeft (left : AVLTreeNode α) (own : α) (height : ℤ) (right : AVLTreeNode α) (key : α) :
 Option (AVLTreeNode α) :=
 let tree : AVLTreeNode α := .node left own height right
 if left.height - right.height = 2 then
  match left with
  | .null => none
  | .node _ leftKey _ _ =>
   if key < leftKey then leftLeftRotation tree else leftRightRotation tree
 else some tree

/-- After the insertion of `key` on the right. -/
def balanceRight (left : AVLTreeNode α) (own : α) (height : ℤ) (right : AVLTreeNode α) (key : α) :
 Option (AVLTreeNode α) :=
 let tree : AVLTreeNode α := .node left own height right
 if right.height - left.height = 2 then
  match right with
  | .null => none
  | .node _ rightKey _ _ =>
   if rightKey < key then rightRightRotation tree else rightLeftRotation tree
 else some tree

def insert : AVLTreeNode α → α → Option (AVLTreeNode α)
 | .null, key => updateHeight (.node .null key 0 .null)
 | .node left own height right, key =>
  if key < own then
   (left.insert key).bind fun left =>
    (balanceLeft left own height right key).bind updateHeight
  else if own < key then
   (right.insert key).bind fun right =>
    (balanceRight left own height right key).bind updateHeight
  else updateHeight (.node left own height right)

def remove : AVLTreeNode α → α → Option (AVLTreeNode α)
 | .null, _ => some .null
 | .node left own height right, z =>
  if z < own then
   (left.remove z).bind fun left => rebalance (.node left own height right)
  else if own < z then
   (right.remove z).bind fun right => rebalance (.node left own height right)
  else if !left.isNull && !right.isNull then
   if right.height < left.height then
    left.maximum.bind fun max =>
     (left.remove max).bind fun left => rebalance (.node left max height right)
   else
    right.minimum.bind fun min =>
     (right.remove min).bind fun right => rebalance (.node left min height right)
  else rebalance (if left.isNull then right else left)

end Ordered

/-- The keys in the order of `inOrder`. -/
def shape : AVLTreeNode α → BinaryTree α
 | .null => .nil
 | .node left key _ right => .node key left.shape right.shape

def keys (tree : AVLTreeNode α) : List α := inOrder tree.shape

/-- Every stored height is one more than the larger height of the children. -/
def HeightsExact : AVLTreeNode α → Prop
 | .null => True
 | .node left _ height right =>
  height = 1 + max left.height right.height ∧ left.HeightsExact ∧ right.HeightsExact

end AVLTreeNode

structure AVLTree (α : Type*) where
 mRoot : AVLTreeNode α

namespace AVLTree

variable {α : Type*} [LinearOrder α]

def insert (tree : AVLTree α) (key : α) : Option (AVLTree α) := (tree.mRoot.insert key).map .mk

def remove (tree : AVLTree α) (key : α) : Option (AVLTree α) :=
 match tree.mRoot.search key with
 | .null => some tree
 | .node _ z _ _ => (tree.mRoot.remove z).map .mk

def search (tree : AVLTree α) (key : α) : AVLTreeNode α := tree.mRoot.search key

def iterativeSearch (tree : AVLTree α) (key : α) : AVLTreeNode α := tree.mRoot.iterativeSearch key

inductive Operation (α : Type*) where
 | insert (key : α)
 | remove (key : α)

def apply (tree : AVLTree α) : Operation α → Option (AVLTree α)
 | .insert key => tree.insert key
 | .remove key => tree.remove key

def run : AVLTree α → List (Operation α) → Option (AVLTree α)
 | tree, [] => some tree
 | tree, first :: rest => (tree.apply first).bind fun next => next.run rest

/-- The keys inserted and not removed since, `set` before the operations. -/
def held : Finset α → List (Operation α) → Finset α
 | set, [] => set
 | set, .insert key :: rest => held (Insert.insert key set) rest
 | set, .remove key :: rest => held (set.erase key) rest

end AVLTree

namespace AVLTreeNode

variable {α : Type*}

/-! ### Rotations -/

/-- The heights are exact and the subtrees of every node balanced. -/
def IsAVL : AVLTreeNode α → Prop
 | .null => True
 | .node left _ height right =>
  height = max left.height right.height + 1 ∧
   left.height ≤ right.height + 1 ∧ right.height ≤ left.height + 1 ∧
    left.IsAVL ∧ right.IsAVL

def Yields (result : Option (AVLTreeNode α)) (keys : List α) (height : ℤ) : Prop :=
 ∃ tree, result = some tree ∧ tree.IsAVL ∧ tree.keys = keys ∧ tree.height = height

@[simp] theorem keys_node (left right : AVLTreeNode α) (key : α) (height : ℤ) :
 (node left key height right).keys = left.keys ++ key :: right.keys := rfl

@[simp] theorem height_node (left right : AVLTreeNode α) (key : α) (height : ℤ) :
 (node left key height right).height = height := rfl

variable {tree : AVLTreeNode α}

theorem height_nonneg (avl : tree.IsAVL) : 0 ≤ tree.height := by
 induction tree with
 | null => exact le_rfl
 | node left key height right ihLeft ihRight =>
  obtain ⟨exactly, -, -, avl_left, -⟩ := avl
  have below := ihLeft avl_left
  rw [height_node]
  omega

theorem exists_node (positive : 0 < tree.height) :
 ∃ left key height right, tree = node left key height right := by
 cases tree with
 | null => exact absurd positive (lt_irrefl 0)
 | node left key height right => exact ⟨left, key, height, right, rfl⟩

section Rotations

variable {first second third : AVLTreeNode α} {child : α} {high : ℤ} (own : α) (height : ℤ)

theorem leftLeftRotation_spec (avl : (node first child high second).IsAVL) (avl' : third.IsAVL)
 (taller : high = third.height + 2) (outer : second.height ≤ first.height) :
 Yields (leftLeftRotation (node (node first child high second) own height third))
  ((node first child high second).keys ++ own :: third.keys) (second.height + 2) := by
 obtain ⟨exactly, near, near', avl_first, avl_second⟩ := avl
 refine ⟨_, rfl, ⟨rfl, ?_, ?_, avl_first, rfl, ?_, ?_, avl_second, avl'⟩, ?_, ?_⟩
 · rw [height_node]
   omega
 · rw [height_node]
   omega
 · omega
 · omega
 · simp
 · rw [height_node]
   omega

theorem rightRightRotation_spec (avl : first.IsAVL)
 (avl' : (node second child high third).IsAVL) (taller : high = first.height + 2)
 (outer : second.height ≤ third.height) :
 Yields (rightRightRotation (node first own height (node second child high third)))
  (first.keys ++ own :: (node second child high third).keys) (second.height + 2) := by
 obtain ⟨exactly, near, near', avl_second, avl_third⟩ := avl'
 refine ⟨_, rfl, ⟨?_, ?_, ?_, ⟨rfl, ?_, ?_, avl, avl_second⟩, avl_third⟩, ?_, ?_⟩
 -- the right child of `k2` is not higher than its new left child
 · rw [height_node]
   omega
 · rw [height_node]
   omega
 · rw [height_node]
   omega
 · omega
 · omega
 · simp
 · rw [height_node]
   omega

theorem leftRightRotation_spec (avl : (node first child high second).IsAVL) (avl' : third.IsAVL)
 (taller : high = third.height + 2) (inner : first.height < second.height) :
 Yields (leftRightRotation (node (node first child high second) own height third))
  ((node first child high second).keys ++ own :: third.keys) high := by
 obtain ⟨exactly, near, near', avl_first, avl_second⟩ := avl
 have lowest := height_nonneg avl_first
 obtain ⟨middle, key, low, middle', rfl⟩ := exists_node (lowest.trans_lt inner)
 obtain ⟨exactly', close, close', avl_middle, avl_middle'⟩ := avl_second
 rw [height_node] at exactly near near' inner
 refine ⟨_, rfl, ⟨rfl, ?_, ?_, ⟨rfl, ?_, ?_, avl_first, avl_middle⟩,
  ⟨rfl, ?_, ?_, avl_middle', avl'⟩⟩, ?_, ?_⟩
 · simp only [height_node]
   omega
 · simp only [height_node]
   omega
 · omega
 · omega
 · omega
 · omega
 · simp
 · simp only [height_node]
   omega

theorem rightLeftRotation_spec (avl : first.IsAVL) (avl' : (node second child high third).IsAVL)
 (taller : high = first.height + 2) (inner : third.height < second.height) :
 Yields (rightLeftRotation (node first own height (node second child high third)))
  (first.keys ++ own :: (node second child high third).keys) high := by
 obtain ⟨exactly, near, near', avl_second, avl_third⟩ := avl'
 have lowest := height_nonneg avl_third
 obtain ⟨middle, key, low, middle', rfl⟩ := exists_node (lowest.trans_lt inner)
 obtain ⟨exactly', close, close', avl_middle, avl_middle'⟩ := avl_second
 rw [height_node] at exactly near near' inner
 refine ⟨_, rfl, ⟨?_, ?_, ?_, ⟨rfl, ?_, ?_, avl, avl_middle⟩,
  ⟨rfl, ?_, ?_, avl_middle', avl_third⟩⟩, ?_, ?_⟩
 · simp only [height_node]
   omega
 · simp only [height_node]
   omega
 · simp only [height_node]
   omega
 · omega
 · omega
 · omega
 · omega
 · simp
 · simp only [height_node]
   omega

end Rotations

theorem rebalance_spec {left right : AVLTreeNode α} (key : α) (height : ℤ) (avl : left.IsAVL)
 (avl' : right.IsAVL) (near : left.height ≤ right.height + 2)
 (near' : right.height ≤ left.height + 2) :
 ∃ last, Yields (rebalance (node left key height right)) (left.keys ++ key :: right.keys) last ∧
  (last = max left.height right.height + 1 ∨
   last = max left.height right.height ∧
    (left.height = right.height + 2 ∨ right.height = left.height + 2)) := by
 unfold rebalance
 dsimp only
 have lowest := height_nonneg avl
 have lowest' := height_nonneg avl'
 by_cases heavy : 1 < left.height - right.height
 · rw [if_pos heavy]
   obtain ⟨first, child, high, second, rfl⟩ : ∃ first child high second,
    left = node first child high second := exists_node (by omega)
   rw [height_node] at heavy near near' ⊢
   have taller : high = right.height + 2 := by omega
   have parts := avl
   obtain ⟨exactly, close, close', -, -⟩ := parts
   dsimp only
   by_cases inner : first.height - second.height < 0
   · rw [if_pos inner]
     exact ⟨_, leftRightRotation_spec key _ avl avl' taller (by omega),
      .inr ⟨by omega, .inl taller⟩⟩
   · rw [if_neg inner]
     exact ⟨_, leftLeftRotation_spec key _ avl avl' taller (by omega), by omega⟩
 · rw [if_neg heavy]
   by_cases heavy' : left.height - right.height < -1
   · rw [if_pos heavy']
     obtain ⟨second, child, high, third, rfl⟩ : ∃ second child high third,
      right = node second child high third := exists_node (by omega)
     rw [height_node] at heavy' near near' ⊢
     have taller : high = left.height + 2 := by omega
     have parts := avl'
     obtain ⟨exactly, close, close', -, -⟩ := parts
     dsimp only
     by_cases inner : 0 < second.height - third.height
     · rw [if_pos inner]
       exact ⟨_, rightLeftRotation_spec key _ avl avl' taller (by omega),
        .inr ⟨by omega, .inr taller⟩⟩
     · rw [if_neg inner]
       exact ⟨_, rightRightRotation_spec key _ avl avl' taller (by omega), by omega⟩
   · rw [if_neg heavy']
     exact ⟨_, ⟨_, rfl, ⟨rfl, by omega, by omega, avl, avl'⟩, rfl, rfl⟩, .inl rfl⟩

/-! ### Insertion -/

theorem updateHeight_eq (avl : tree.IsAVL) (positive : 0 < tree.height) :
 updateHeight tree = some tree := by
 obtain ⟨left, key, height, right, rfl⟩ := exists_node positive
 rw [updateHeight, ← avl.1]

variable {result : Option (AVLTreeNode α)} {keys : List α} {height : ℤ}

theorem Yields.updateHeight (yields : Yields result keys height) (positive : 0 < height) :
 Yields (result.bind updateHeight) keys height := by
 obtain ⟨tree, rfl, avl, same, rfl⟩ := yields
 exact ⟨tree, updateHeight_eq avl positive, avl, same, rfl⟩

section Ordered

variable [LinearOrder α]

/-- A tree that has grown by `key` is a single node, or higher on the side of `key`. -/
def Leans (key : α) : AVLTreeNode α → Prop
 | .null => False
 | .node left own height right =>
  height = 1 ∨ key < own ∧ left.height = right.height + 1 ∨
   own < key ∧ right.height = left.height + 1

theorem balanceLeft_spec {left right : AVLTreeNode α} (own key : α) (height : ℤ)
 (avl : left.IsAVL) (avl' : right.IsAVL) (near : left.height ≤ right.height + 2)
 (near' : right.height ≤ left.height + 1)
 (leans : left.height = right.height + 2 → left.Leans key) :
 ∃ next, (balanceLeft left own height right key).bind updateHeight = some next ∧
  next.IsAVL ∧ next.keys = left.keys ++ own :: right.keys ∧
   (left.height = right.height + 2 ∧ next.height = left.height ∨
    left.height ≤ right.height + 1 ∧
     next = node left own (max left.height right.height + 1) right) := by
 have lowest := height_nonneg avl'
 unfold balanceLeft
 by_cases heavy : left.height - right.height = 2
 · rw [if_pos heavy]
   obtain ⟨first, child, high, second, rfl⟩ : ∃ first child high second,
    left = node first child high second := exists_node (by omega)
   rw [height_node] at heavy leans ⊢
   have taller : high = right.height + 2 := by omega
   rcases leans taller with single | ⟨smaller, outer⟩ | ⟨larger, inner⟩
   · omega
   · dsimp only
     rw [if_pos smaller]
     have parts := avl
     obtain ⟨exactly, -⟩ := parts
     obtain ⟨next, same, avl_next, keys, last⟩ :=
      (leftLeftRotation_spec own height avl avl' taller
       (by omega)).updateHeight (by omega)
     exact ⟨next, same, avl_next, keys, .inl ⟨taller, by omega⟩⟩
   · dsimp only
     rw [if_neg larger.asymm]
     obtain ⟨next, same, avl_next, keys, last⟩ :=
      (leftRightRotation_spec own height avl avl' taller
       (by omega)).updateHeight (by omega)
     simp_all
 · rw [if_neg heavy]
   exact ⟨_, rfl, ⟨rfl, by omega, by omega, avl, avl'⟩, rfl, .inr ⟨by omega, rfl⟩⟩

theorem balanceRight_spec {left right : AVLTreeNode α} (own key : α) (height : ℤ)
 (avl : left.IsAVL) (avl' : right.IsAVL) (near : left.height ≤ right.height + 1)
 (near' : right.height ≤ left.height + 2)
 (leans : right.height = left.height + 2 → right.Leans key) :
 ∃ next, (balanceRight left own height right key).bind updateHeight = some next ∧
  next.IsAVL ∧ next.keys = left.keys ++ own :: right.keys ∧
   (right.height = left.height + 2 ∧ next.height = right.height ∨
    right.height ≤ left.height + 1 ∧
     next = node left own (max left.height right.height + 1) right) := by
 have lowest := height_nonneg avl
 unfold balanceRight
 by_cases heavy : right.height - left.height = 2
 · rw [if_pos heavy]
   obtain ⟨second, child, high, third, rfl⟩ : ∃ second child high third,
    right = node second child high third := exists_node (by omega)
   rw [height_node] at heavy leans ⊢
   have taller : high = left.height + 2 := by omega
   rcases leans taller with single | ⟨smaller, inner⟩ | ⟨larger, outer⟩
   · omega
   · dsimp only
     rw [if_neg smaller.asymm]
     obtain ⟨next, same, avl_next, keys, last⟩ :=
      (rightLeftRotation_spec own height avl avl' taller (by omega)).updateHeight (by omega)
     simp_all
   · dsimp only
     rw [if_pos larger]
     have parts := avl'
     obtain ⟨exactly, -⟩ := parts
     obtain ⟨next, same, avl_next, keys, last⟩ :=
      (rightRightRotation_spec own height avl avl' taller (by omega)).updateHeight (by omega)
     exact ⟨next, same, avl_next, keys, .inl ⟨taller, by omega⟩⟩
 · rw [if_neg heavy]
   exact ⟨_, rfl, ⟨rfl, by omega, by omega, avl, avl'⟩, rfl, .inr ⟨by omega, rfl⟩⟩

/-- The keys of a tree after the insertion of `key`, and its height. -/
structure Inserted (key : α) (tree next : AVLTreeNode α) : Prop where
 avl : next.IsAVL
 increasing : next.keys.Pairwise (· < ·)
 mem_keys : ∀ other, other ∈ next.keys ↔ other = key ∨ other ∈ tree.keys
 grown : next.height = tree.height ∨ next.height = tree.height + 1 ∧ next.Leans key

theorem Inserted.left {left right next : AVLTreeNode α} {key own : α} {height : ℤ}
 (inserted : Inserted key left next) (avl : (node left own height right).IsAVL)
 (increasing : (node left own height right).keys.Pairwise (· < ·)) (smaller : key < own) :
 ∃ last, (balanceLeft next own height right key).bind updateHeight = some last ∧
  Inserted key (node left own height right) last := by
 obtain ⟨avl_next, sorted_next, mem_next, grown⟩ := inserted
 obtain ⟨exactly, near, near', avl_left, avl_right⟩ := avl
 obtain ⟨earlier, later, -, sorted_right⟩ := pairwise_middle.mp increasing
 obtain ⟨last, balanced, avl_last, keys, heights⟩ :=
  balanceLeft_spec own key height avl_next avl_right (by omega) (by omega)
   fun heavy => grown.elim (fun still => absurd heavy (by omega)) And.right
 refine ⟨last, balanced, avl_last, ?_, fun other => ?_, ?_⟩
 · rw [keys]
   refine pairwise_middle.mpr ⟨fun other member => ?_, later, sorted_next, sorted_right⟩
   exact ((mem_next other).mp member).elim (fun new => new ▸ smaller) (earlier other)
 · rw [keys, keys_node, List.mem_append, List.mem_append, mem_next, or_assoc]
 · rw [height_node]
   rcases heights with ⟨heavy, level⟩ | ⟨light, rfl⟩
   · exact .inl (by omega)
   · rw [height_node]
     rcases grown with still | ⟨higher, -⟩
     · exact .inl (by omega)
     · by_cases even : left.height = right.height
       · exact .inr ⟨by omega, .inr (.inl ⟨smaller, by omega⟩)⟩
       · exact .inl (by omega)

theorem Inserted.right {left right next : AVLTreeNode α} {key own : α} {height : ℤ}
 (inserted : Inserted key right next) (avl : (node left own height right).IsAVL)
 (increasing : (node left own height right).keys.Pairwise (· < ·)) (larger : own < key) :
 ∃ last, (balanceRight left own height next key).bind updateHeight = some last ∧
  Inserted key (node left own height right) last := by
 obtain ⟨avl_next, sorted_next, mem_next, grown⟩ := inserted
 obtain ⟨exactly, near, near', avl_left, avl_right⟩ := avl
 obtain ⟨earlier, later, sorted_left, -⟩ := pairwise_middle.mp increasing
 obtain ⟨last, balanced, avl_last, keys, heights⟩ :=
  balanceRight_spec own key height avl_left avl_next (by omega) (by omega)
   fun heavy => grown.elim (fun still => absurd heavy (by omega)) And.right
 refine ⟨last, balanced, avl_last, ?_, fun other => ?_, ?_⟩
 · rw [keys]
   refine pairwise_middle.mpr ⟨earlier, fun other member => ?_, sorted_left, sorted_next⟩
   exact ((mem_next other).mp member).elim (fun new => new ▸ larger) (later other)
 · rw [keys, keys_node]
   grind
 · rw [height_node]
   rcases heights with ⟨heavy, level⟩ | ⟨light, rfl⟩
   · exact .inl (by omega)
   · rw [height_node]
     rcases grown with still | ⟨higher, -⟩
     · exact .inl (by omega)
     · by_cases even : left.height = right.height
       · exact .inr ⟨by omega, .inr (.inr ⟨larger, by omega⟩)⟩
       · exact .inl (by omega)

theorem insert_spec (avl : tree.IsAVL) (increasing : tree.keys.Pairwise (· < ·)) (key : α) :
 ∃ next, tree.insert key = some next ∧ Inserted key tree next := by
 induction tree with
 | null =>
  exact ⟨node null key 1 null, rfl,
   ⟨rfl, Int.le_add_one le_rfl, Int.le_add_one le_rfl, trivial, trivial⟩,
   List.pairwise_singleton _ _, fun other => List.mem_cons, .inr ⟨rfl, .inl rfl⟩⟩
 | node left own height right ihLeft ihRight =>
  have whole := avl
  obtain ⟨exactly, -, -, avl_left, avl_right⟩ := avl
  have sorted := increasing
  obtain ⟨-, -, sorted_left, sorted_right⟩ := pairwise_middle.mp sorted
  unfold AVLTreeNode.insert
  by_cases smaller : key < own
  · obtain ⟨next, same, inserted⟩ := ihLeft avl_left sorted_left
    rw [if_pos smaller, same, Option.bind_some]
    exact inserted.left whole increasing smaller
  · rw [if_neg smaller]
    by_cases larger : own < key
    · obtain ⟨next, same, inserted⟩ := ihRight avl_right sorted_right
      rw [if_pos larger, same, Option.bind_some]
      exact inserted.right whole increasing larger
    · rw [if_neg larger]
      obtain rfl : key = own := le_antisymm (not_lt.mp larger) (not_lt.mp smaller)
      have lowest := height_nonneg avl_left
      refine ⟨_, updateHeight_eq whole (by rw [height_node]; omega), whole, increasing,
       fun other => (or_iff_right_of_imp fun same => ?_).symm, .inl rfl⟩
      simp_all

end Ordered

/-! ### Removal -/

theorem keys_ne_nil (left right : AVLTreeNode α) (key : α) (height : ℤ) :
 (node left key height right).keys ≠ [] := by
 simp

theorem maximum_eq (tree : AVLTreeNode α) : tree.maximum = tree.keys.getLast? := by
 induction tree with
 | null => rfl
 | node left key height right _ ihRight =>
  cases right with
  | null => exact List.getLast?_concat.symm
  | node inner own high outer =>
   change (node inner own high outer).maximum = _
   rw [ihRight, keys_node left, List.append_cons,
    List.getLast?_append_of_ne_nil _ (keys_ne_nil inner outer own high)]

theorem minimum_eq (tree : AVLTreeNode α) : tree.minimum = tree.keys.head? := by
 induction tree with
 | null => rfl
 | node left key height right ihLeft _ =>
  cases left with
  | null => rfl
  | node outer own high inner =>
   change (node outer own high inner).minimum = _
   simp_all

theorem maximum_spec (left : AVLTreeNode α) (key : α) (height : ℤ) (right : AVLTreeNode α) :
 ∃ others max, (node left key height right).maximum = some max ∧
  (node left key height right).keys = others ++ [max] := by
 obtain ⟨max, last⟩ := Option.ne_none_iff_exists'.mp fun none =>
  keys_ne_nil left right key height (List.getLast?_eq_none_iff.mp none)
 obtain ⟨others, whole⟩ := List.getLast?_eq_some_iff.mp last
 exact ⟨others, max, (maximum_eq _).trans last, whole⟩

theorem minimum_spec (left : AVLTreeNode α) (key : α) (height : ℤ) (right : AVLTreeNode α) :
 ∃ min others, (node left key height right).minimum = some min ∧
  (node left key height right).keys = min :: others := by
 obtain ⟨min, others, whole⟩ := List.exists_cons_of_ne_nil (keys_ne_nil left right key height)
 exact ⟨min, others, by rw [minimum_eq, whole, List.head?_cons], whole⟩

theorem rebalance_eq (avl : tree.IsAVL) : rebalance tree = some tree := by
 cases tree with
 | null => rfl
 | node left key height right =>
  obtain ⟨exactly, near, near', -⟩ := avl
  unfold rebalance
  dsimp only
  rw [if_neg (by omega), if_neg (by omega), exactly]

/-- The operation leaves `keys`, in a tree of the same height or one less. -/
def Shrinks (tree : AVLTreeNode α) (keys : List α) (result : Option (AVLTreeNode α)) : Prop :=
 ∃ last, Yields result keys last ∧ (last = tree.height ∨ last + 1 = tree.height)

theorem Shrinks.left {left right : AVLTreeNode α} {own : α} (shrinks : Shrinks left keys result)
 (avl : (node left own height right).IsAVL) (key : α) :
 Shrinks (node left own height right) (keys ++ key :: right.keys)
  (result.bind fun left => rebalance (node left key height right)) := by
 obtain ⟨_, ⟨next, rfl, avl_next, rfl, rfl⟩, change⟩ := shrinks
 obtain ⟨exactly, near, near', -, avl_right⟩ := avl
 obtain ⟨last, yields, heights⟩ :=
  rebalance_spec key height avl_next avl_right (by omega) (by omega)
 refine ⟨last, yields, ?_⟩
 rw [height_node]
 omega

theorem Shrinks.right {left right : AVLTreeNode α} {own : α} (shrinks : Shrinks right keys result)
 (avl : (node left own height right).IsAVL) (key : α) :
 Shrinks (node left own height right) (left.keys ++ key :: keys)
  (result.bind fun right => rebalance (node left key height right)) := by
 obtain ⟨_, ⟨next, rfl, avl_next, rfl, rfl⟩, change⟩ := shrinks
 obtain ⟨exactly, near, near', avl_left, -⟩ := avl
 obtain ⟨last, yields, heights⟩ :=
  rebalance_spec key height avl_left avl_next (by omega) (by omega)
 refine ⟨last, yields, ?_⟩
 rw [height_node]
 omega

section Ordered

variable [LinearOrder α]

theorem remove_spec (avl : tree.IsAVL) (increasing : tree.keys.Pairwise (· < ·)) (z : α) :
 Shrinks tree (tree.keys.filter (· ≠ z)) (tree.remove z) := by
 induction tree generalizing z with
 | null => exact ⟨0, ⟨null, rfl, trivial, rfl, rfl⟩, .inl rfl⟩
 | node left own height right ihLeft ihRight =>
  have whole := avl
  obtain ⟨exactly, near, near', avl_left, avl_right⟩ := avl
  rw [keys_node] at increasing ⊢
  obtain ⟨-, -, sorted_left, sorted_right⟩ := pairwise_middle.mp increasing
  unfold AVLTreeNode.remove
  by_cases smaller : z < own
  · rw [if_pos smaller, filter_ne_of_lt increasing smaller]
    exact (ihLeft avl_left sorted_left z).left whole own
  · rw [if_neg smaller]
    by_cases larger : own < z
    · rw [if_pos larger, filter_ne_of_gt increasing larger]
      exact (ihRight avl_right sorted_right z).right whole own
    · obtain rfl : z = own := le_antisymm (not_lt.mp larger) (not_lt.mp smaller)
      rw [if_neg larger, filter_ne_self increasing]
      cases left with
      | null =>
       have alone : height = right.height + 1 := by
        have lowest := height_nonneg avl_right
        have none : (null : AVLTreeNode α).height = 0 := rfl
        omega
       exact ⟨_, ⟨right, rebalance_eq avl_right, avl_right, rfl, rfl⟩, .inr alone.symm⟩
      | node first child high second =>
       cases right with
       | null =>
        have alone : height = (node first child high second).height + 1 := by
         have lowest := height_nonneg avl_left
         have none : (null : AVLTreeNode α).height = 0 := rfl
         omega
        exact ⟨_, ⟨_, rebalance_eq avl_left, avl_left, (List.append_nil _).symm, rfl⟩,
         .inr alone.symm⟩
       | node third child' high' fourth =>
        rw [if_pos (by rfl)]
        split
        · obtain ⟨others, max, greatest, keys⟩ := maximum_spec first child high second
          have shrinks := (ihLeft avl_left sorted_left max).left whole max
          rw [keys] at sorted_left
          rw [keys, filter_ne_self sorted_left, List.append_nil] at shrinks
          simp_all
        · obtain ⟨min, others, least, keys⟩ := minimum_spec third child' high' fourth
          have shrinks := (ihRight avl_right sorted_right min).right whole min
          rw [keys] at sorted_right
          rw [keys, ← List.nil_append (min :: others),
           filter_ne_self sorted_right] at shrinks
          simp_all

/-! ### Searching -/

/-- The nodes of a tree, each with what is below it. -/
def nodes : AVLTreeNode α → List (AVLTreeNode α)
 | .null => []
 | .node left key height right => left.nodes ++ .node left key height right :: right.nodes

/-- `found` is a node of the tree, and holds `key`. -/
def Finds (tree : AVLTreeNode α) (key : α) (found : AVLTreeNode α) : Prop :=
 found ∈ tree.nodes ∧ ∃ left height right, found = node left key height right

theorem search_spec (increasing : tree.keys.Pairwise (· < ·)) (key : α) :
 key ∈ tree.keys ∧ tree.Finds key (tree.search key) ∨
  key ∉ tree.keys ∧ tree.search key = null := by
 induction tree with
 | null => exact .inr ⟨List.not_mem_nil, rfl⟩
 | node left own height right ihLeft ihRight =>
  rw [keys_node] at increasing ⊢
  obtain ⟨-, -, sorted_left, sorted_right⟩ := pairwise_middle.mp increasing
  unfold search
  by_cases same : own = key
  · subst same
    rw [if_pos rfl]
    exact .inl ⟨List.mem_append_right _ List.mem_cons_self,
     List.mem_append_right _ List.mem_cons_self, left, height, right, rfl⟩
  · rw [if_neg same]
    by_cases smaller : key < own
    · rw [if_pos smaller, mem_left_iff increasing smaller]
      refine (ihLeft sorted_left).imp_left ?_
      rintro ⟨member, found, keyed⟩
      exact ⟨member, List.mem_append_left _ found, keyed⟩
    · have larger : own < key := lt_of_le_of_ne (not_lt.mp smaller) same
      rw [if_neg smaller, mem_right_iff increasing larger]
      refine (ihRight sorted_right).imp_left ?_
      rintro ⟨member, found, keyed⟩
      exact ⟨member, List.mem_append_right _ (List.mem_cons_of_mem _ found), keyed⟩

theorem iterativeSearch_eq (tree : AVLTreeNode α) (key : α) :
 tree.iterativeSearch key = tree.search key := by
 induction tree with
 | null => rfl
 | node left own height right ihLeft ihRight =>
  unfold iterativeSearch search
  rw [ihLeft, ihRight]
  exact ite_not _ _ _

theorem search_iff (increasing : tree.keys.Pairwise (· < ·)) (key : α) :
 (tree.Finds key (tree.search key) ↔ key ∈ tree.keys) ∧
  (tree.search key = null ↔ key ∉ tree.keys) := by
 rcases search_spec increasing key with ⟨member, found⟩ | ⟨absent, none⟩
 · have parts := found
   obtain ⟨-, left, height, right, keyed⟩ := parts
   simp_all
 · refine ⟨iff_of_false (fun found => ?_) absent, iff_of_true none absent⟩
   obtain ⟨-, left, height, right, keyed⟩ := found
   rw [none] at keyed
   cases keyed

end Ordered

theorem IsAVL.heightsExact (avl : tree.IsAVL) : tree.HeightsExact := by
 induction tree with
 | null => trivial
 | node left key height right ihLeft ihRight =>
  obtain ⟨exactly, -, -, avl_left, avl_right⟩ := avl
  exact ⟨exactly.trans (Int.add_comm _ _), ihLeft avl_left, ihRight avl_right⟩

theorem IsAVL.height_eq (avl : tree.IsAVL) :
 tree.height = tree.shape.height := by
 induction tree with
 | null => rfl
 | node left key height right ihLeft ihRight =>
  obtain ⟨exactly, -, -, avl_left, avl_right⟩ := avl
  rw [height_node, exactly, ihLeft avl_left, ihRight avl_right, shape, BinaryTree.height]
  omega

theorem IsAVL.isBalanced (avl : tree.IsAVL) : IsBalanced tree.shape := by
 induction tree with
 | null => trivial
 | node left key height right ihLeft ihRight =>
  obtain ⟨-, near, near', avl_left, avl_right⟩ := avl
  rw [avl_left.height_eq, avl_right.height_eq] at near near'
  exact ⟨by omega, by omega, ihLeft avl_left, ihRight avl_right⟩

end AVLTreeNode

namespace AVLTree

variable {α : Type*} [LinearOrder α]

/-- The tree is balanced and in order, and holds the keys of `set`. -/
structure Holds (tree : AVLTree α) (set : Finset α) : Prop where
 avl : tree.mRoot.IsAVL
 increasing : tree.mRoot.keys.Pairwise (· < ·)
 mem_keys : ∀ key, key ∈ tree.mRoot.keys ↔ key ∈ set

variable {tree : AVLTree α} {set : Finset α}

theorem Holds.apply (holds : tree.Holds set) (operation : Operation α) :
 ∃ next, tree.apply operation = some next ∧ next.Holds (held set [operation]) := by
 cases operation with
 | insert key =>
  obtain ⟨root, same, inserted⟩ :=
   AVLTreeNode.insert_spec holds.avl holds.increasing key
  refine ⟨⟨root⟩, congrArg (Option.map AVLTree.mk) same, inserted.avl, inserted.increasing,
   fun other => ?_⟩
  rw [inserted.mem_keys, holds.mem_keys]
  exact Finset.mem_insert.symm
 | remove key =>
  rcases AVLTreeNode.search_spec holds.increasing key with
   ⟨member, -, left, height, right, found⟩ | ⟨absent, none⟩
  · obtain ⟨_, ⟨root, same, avl, keys, -⟩, -⟩ :=
     AVLTreeNode.remove_spec holds.avl holds.increasing key
    refine ⟨⟨root⟩, ?_, avl, keys ▸ holds.increasing.filter _, fun other => ?_⟩
    · change AVLTree.remove tree key = _
      rw [AVLTree.remove, found]
      exact congrArg (Option.map AVLTree.mk) same
    · change other ∈ root.keys ↔ other ∈ set.erase key
      rw [keys, List.mem_filter, Finset.mem_erase, decide_eq_true_iff, holds.mem_keys,
       and_comm]
  · refine ⟨tree, ?_, holds.avl, holds.increasing, fun other => ?_⟩
    · change AVLTree.remove tree key = _
      rw [AVLTree.remove, none]
    · change other ∈ tree.mRoot.keys ↔ other ∈ set.erase key
      rw [Finset.erase_eq_of_notMem fun member => absent ((holds.mem_keys key).mpr member)]
      exact holds.mem_keys other

theorem Holds.run (holds : tree.Holds set) (operations : List (Operation α)) :
 ∃ last, tree.run operations = some last ∧ last.Holds (held set operations) := by
 induction operations generalizing tree set with
 | nil => exact ⟨tree, rfl, holds⟩
 | cons first rest ih =>
  obtain ⟨next, same, holds_next⟩ := holds.apply first
  obtain ⟨last, ran, holds_last⟩ := ih holds_next
  refine ⟨last, ?_, ?_⟩
  · rw [AVLTree.run, same, Option.bind_some, ran]
  · cases first <;> exact holds_last

/-- Whatever is inserted and removed, no operation reads through a null pointer, and the tree is a
balanced search tree of the keys inserted and not removed since, in which both searches find
exactly these. -/
theorem avlTree_sound (operations : List (Operation α)) :
 ∃ tree, run ⟨.null⟩ operations = some tree ∧
  IsSearchTree (· < ·) tree.mRoot.shape ∧ tree.mRoot.HeightsExact ∧
  IsBalanced tree.mRoot.shape ∧ tree.mRoot.keys = (held ∅ operations).sort ∧
  ∀ key,
   (tree.mRoot.Finds key (tree.search key) ↔ key ∈ held ∅ operations) ∧
   (tree.search key = .null ↔ key ∉ held ∅ operations) ∧
   (tree.mRoot.Finds key (tree.iterativeSearch key) ↔ key ∈ held ∅ operations) ∧
   (tree.iterativeSearch key = .null ↔ key ∉ held ∅ operations) := by
 have start : (⟨.null⟩ : AVLTree α).Holds ∅ :=
  ⟨trivial, List.Pairwise.nil, fun _ => iff_of_false List.not_mem_nil (Finset.notMem_empty _)⟩
 obtain ⟨tree, ran, holds⟩ := start.run operations
 refine ⟨tree, ran, isSearchTree_iff.mpr holds.increasing, holds.avl.heightsExact,
  holds.avl.isBalanced, eq_sort_of_mem_iff holds.increasing holds.mem_keys, fun key => ?_⟩
 have found := AVLTreeNode.search_iff holds.increasing key
 rw [holds.mem_keys] at found
 refine ⟨found.1, found.2, ?_⟩
 rw [iterativeSearch, AVLTreeNode.iterativeSearch_eq]
 exact found

/-- Whatever was inserted and removed, the height is that of a Fibonacci tree at most. -/
theorem height_fib_le (operations : List (Operation α)) : ∃ tree : AVLTree α,
 run ⟨.null⟩ operations = some tree ∧
  Nat.fib (tree.mRoot.shape.height + 2) ≤ (held ∅ operations).card + 1 := by
 have start : (⟨.null⟩ : AVLTree α).Holds ∅ :=
  ⟨trivial, List.Pairwise.nil, fun _ => iff_of_false List.not_mem_nil (Finset.notMem_empty _)⟩
 obtain ⟨tree, ran, holds⟩ := start.run operations
 have keys := eq_sort_of_mem_iff holds.increasing holds.mem_keys
 have bound := fib_height_le holds.avl.isBalanced
 rw [← length_inOrder, ← AVLTreeNode.keys, keys, Finset.length_sort] at bound
 exact ⟨tree, ran, bound⟩

end AVLTree

end MyNotes.DataStructures
