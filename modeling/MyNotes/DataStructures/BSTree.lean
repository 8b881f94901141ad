/-
The binary search tree with parent links of the search notes.

The nodes in use are kept by address.  Reading through a null pointer, or at an address that is not
in use, is a fault.  A walk along the links has one round for each node in use, which is enough for
every walk that ends.
-/

import MyNotes.Library.OrderedMap
import MyNotes.Library.TreePath

namespace MyNotes.DataStructures

open Library Library.SearchTree Library.TreePath OrderedMap Prod Multiset

structure BSTNode (α : Type*) where
 key : α
 left : Option ℕ
 right : Option ℕ
 parent : Option ℕ
 deriving DecidableEq

inductive Fault where
 | nullPointer
 | freedNode
 | endlessWalk
 deriving DecidableEq

structure BSTree (α : Type*) where
 mRoot : Option ℕ
 nodes : List (ℕ × BSTNode α)
 deriving DecidableEq

namespace BSTree

variable {α : Type*}

def empty : BSTree α := ⟨none, []⟩

def read (nodes : List (ℕ × BSTNode α)) : Option ℕ → Except Fault (BSTNode α)
 | none => .error .nullPointer
 | some address =>
  match find address nodes with
  | none => .error .freedNode
  | some node => .ok node

/-- The assignment of fields of the node pointed to. -/
def write (nodes : List (ℕ × BSTNode α)) (pointer : Option ℕ)
 (change : BSTNode α → BSTNode α) : Except Fault (List (ℕ × BSTNode α)) :=
 (read nodes pointer).map fun node =>
  insert (pointer.getD 0) (change node) nodes

section Ordered

variable [LinearOrder α]

/-- `search(x, key)`. -/
def searchFrom (nodes : List (ℕ × BSTNode α)) (key : α) :
 ℕ → Option ℕ → Except Fault (Option ℕ)
 | _, none => .ok none
 | 0, some _ => .error .endlessWalk
 | rounds + 1, some x =>
  (read nodes (some x)).bind fun node =>
   if node.key = key then .ok (some x)
   else if key < node.key then searchFrom nodes key rounds node.left
   else searchFrom nodes key rounds node.right

def search (tree : BSTree α) (key : α) : Except Fault (Option ℕ) :=
 searchFrom tree.nodes key tree.nodes.length tree.mRoot

/-- The loop of `insert`, from `y` and `x` on; it ends with `y`. -/
def insertLoop (nodes : List (ℕ × BSTNode α)) (key : α) :
 ℕ → Option ℕ → Option ℕ → Except Fault (Option ℕ)
 | _, y, none => .ok y
 | 0, _, some _ => .error .endlessWalk
 | rounds + 1, _, some x =>
  (read nodes (some x)).bind fun node =>
   insertLoop nodes key rounds (some x) (if key < node.key then node.left else node.right)

/-- `insert(tree, z)`. -/
def insertNode (tree : BSTree α) (z : ℕ) : Except Fault (BSTree α) :=
 (read tree.nodes (some z)).bind fun node =>
  (insertLoop tree.nodes node.key tree.nodes.length none tree.mRoot).bind fun y =>
   (write tree.nodes (some z) fun node => { node with parent := y }).bind fun nodes =>
    match y with
    | none => .ok ⟨some z, nodes⟩
    | some y =>
     (read nodes (some y)).bind fun above =>
      (write nodes (some y) fun above' =>
       if node.key < above.key then { above' with left := some z }
       else { above' with right := some z }).map fun nodes => ⟨tree.mRoot, nodes⟩

/-- `address` is what `new` returns. -/
def insert (tree : BSTree α) (key : α) (address : ℕ) : Except Fault (BSTree α) :=
 insertNode ⟨tree.mRoot, OrderedMap.insert address ⟨key, none, none, none⟩ tree.nodes⟩ address

/-- `while (s->right) { q = s; s = s->right; }`. -/
def predecessorLoop (nodes : List (ℕ × BSTNode α)) :
 ℕ → ℕ → Option ℕ → Except Fault (ℕ × ℕ)
 | _, _, none => .error .nullPointer
 | 0, _, some _ => .error .endlessWalk
 | rounds + 1, q, some s =>
  (read nodes (some s)).bind fun node =>
   match node.right with
   | none => .ok (q, s)
   | some right => predecessorLoop nodes rounds s (some right)

/-- `q->right = s->left; s->left->parent = q->right;`, or the same with `q->left`. -/
def relink (nodes : List (ℕ × BSTNode α)) (q s : ℕ) (child : BSTNode α → Option ℕ)
 (setChild : Option ℕ → BSTNode α → BSTNode α) : Except Fault (List (ℕ × BSTNode α)) :=
 (read nodes (some s)).bind fun last =>
  (write nodes (some q) (setChild last.left)).bind fun nodes =>
   (read nodes (some q)).bind fun above =>
    (read nodes (some s)).bind fun last =>
     write nodes last.left fun below => { below with parent := child above }

/-- `remove(tree, z)`: the node to delete, and the nodes without it. -/
def removeNode (nodes : List (ℕ × BSTNode α)) (z : ℕ) :
 Except Fault (ℕ × List (ℕ × BSTNode α)) :=
 (read nodes (some z)).bind fun node =>
  if node.right = none then
   (write nodes node.parent fun above => { above with left := node.left }).bind fun nodes =>
    (read nodes (some z)).bind fun node =>
     (write nodes node.left fun below => { below with parent := node.parent }).map (z, ·)
  -- the test for the left child is the same again
  else if node.right = none then
   (write nodes node.parent fun above => { above with right := node.right }).bind fun nodes =>
    (read nodes (some z)).bind fun node =>
     (write nodes node.right fun below => { below with parent := node.parent }).map (z, ·)
  else
   (predecessorLoop nodes nodes.length z node.left).bind fun (q, s) =>
    (read nodes (some s)).bind fun last =>
     (write nodes (some z) fun node => { node with key := last.key }).bind fun nodes =>
      if q ≠ z then
       (relink nodes q s BSTNode.right fun link node =>
        { node with right := link }).map (s, ·)
      else
       (relink nodes q s BSTNode.left fun link node =>
        { node with left := link }).map (s, ·)

def remove (tree : BSTree α) (key : α) : Except Fault (BSTree α) :=
 (tree.search key).bind fun found =>
  match found with
  | none => .ok tree
  | some z =>
   (removeNode tree.nodes z).map fun (node, nodes) =>
    ⟨tree.mRoot, erase node nodes⟩

inductive Operation (α : Type*) where
 | insert (key : α) (address : ℕ)
 | remove (key : α)

def apply (tree : BSTree α) : Operation α → Except Fault (BSTree α)
 | .insert key address => tree.insert key address
 | .remove key => tree.remove key

def run : BSTree α → List (Operation α) → Except Fault (BSTree α)
 | tree, [] => .ok tree
 | tree, first :: rest => (tree.apply first).bind fun next => next.run rest

/-- The keys after the operations, each as often as it was inserted and not removed. -/
def keysAfter : Multiset α → List (Operation α) → Multiset α
 | keys, [] => keys
 | keys, .insert key _ :: rest => keysAfter (key ::ₘ keys) rest
 | keys, .remove key :: rest => keysAfter (keys.erase key) rest

/-- `new` returns storage that is not in use. -/
def Unused (tree : BSTree α) : Operation α → Prop
 | .insert _ address => find address tree.nodes = none
 | .remove _ => True

/-- The key is absent, or the node found has a left child, no right child, and is itself the left
child of a node. -/
def Removable (tree : BSTree α) (key : α) : Prop :=
 ∀ z, tree.search key = .ok (some z) →
  ∃ node above, read tree.nodes (some z) = .ok node ∧ node.left ≠ none ∧ node.right = none ∧
   read tree.nodes node.parent = .ok above ∧ above.left = some z

def Allowed (tree : BSTree α) : Operation α → Prop
 | .insert _ _ => True
 | .remove key => tree.Removable key

/-- Every step of the run is taken where the condition holds. -/
def Throughout (condition : BSTree α → Operation α → Prop) :
 BSTree α → List (Operation α) → Prop
 | _, [] => True
 | tree, first :: rest =>
  condition tree first ∧ ∀ next, tree.apply first = .ok next →
   Throughout condition next rest

end Ordered

/-! ### Trees in the store -/

def top : BinaryTree (ℕ × α) → Option ℕ
 | .nil => none
 | .node item _ _ => some item.1

/-- The links of the nodes are those of the tree, below `parent`. -/
def Linked (nodes : List (ℕ × BSTNode α)) : Option ℕ → BinaryTree (ℕ × α) → Prop
 | _, .nil => True
 | parent, .node (address, key) left right =>
  find address nodes = some ⟨key, top left, top right, parent⟩ ∧
   Linked nodes (some address) left ∧ Linked nodes (some address) right

def holder : List (Frame (ℕ × α)) → Option ℕ
 | [] => none
 | frame :: _ => some frame.item.1

/-- The node at a step of a path that goes on at `pointer`. -/
def frameNode (parent pointer : Option ℕ) : Frame (ℕ × α) → BSTNode α
 | .left (_, key) sibling => ⟨key, pointer, top sibling, parent⟩
 | .right (_, key) sibling => ⟨key, top sibling, pointer, parent⟩

/-- The links of the nodes along the path and beside it; the place at its end is at `pointer`. -/
def LinkedPath (nodes : List (ℕ × BSTNode α)) : List (Frame (ℕ × α)) → Option ℕ → Prop
 | [], _ => True
 | frame :: path, pointer =>
  find frame.item.1 nodes = some (frameNode (holder path) pointer frame) ∧
   Linked nodes (some frame.item.1) frame.sibling ∧
    LinkedPath nodes path (some frame.item.1)

/-- `shape` is the tree that the links make up; its items are the addresses and the keys. -/
structure Holds (tree : BSTree α) (shape : BinaryTree (ℕ × α)) : Prop where
 root : tree.mRoot = top shape
 linked : Linked tree.nodes none shape
 distinct : ((inOrder shape).map Prod.fst).Nodup

variable {nodes nodes' : List (ℕ × BSTNode α)} {path : List (Frame (ℕ × α))}
 {shape : BinaryTree (ℕ × α)} {parent pointer : Option ℕ}

theorem linked_plug : Linked nodes none (plug path shape) ↔
 LinkedPath nodes path (top shape) ∧ Linked nodes (holder path) shape := by
 induction path generalizing shape with
 | nil => exact (and_iff_right trivial).symm
 | cons frame path ih =>
  rw [plug, ih]
  cases frame with
  | left item sibling =>
   constructor
   · rintro ⟨along, here, below, beside⟩
     exact ⟨⟨here, beside, along⟩, below⟩
   · rintro ⟨⟨here, beside, along⟩, below⟩
     exact ⟨along, here, below, beside⟩
  | right item sibling =>
   constructor
   · rintro ⟨along, here, beside, below⟩
     exact ⟨⟨here, beside, along⟩, below⟩
   · rintro ⟨⟨here, beside, along⟩, below⟩
     exact ⟨along, here, beside, below⟩

theorem Linked.congr (linked : Linked nodes parent shape)
 (same : ∀ item ∈ inOrder shape,
  find item.1 nodes' = find item.1 nodes) :
 Linked nodes' parent shape := by
 induction shape generalizing parent with
 | nil => trivial
 | node item left right ihLeft ihRight =>
  obtain ⟨here, below, below'⟩ := linked
  refine ⟨?_, ihLeft below fun item member => same item ?_,
   ihRight below' fun item member => same item ?_⟩
  · exact (same item (List.mem_append_right _ List.mem_cons_self)).trans here
  · exact List.mem_append_left _ member
  · exact List.mem_append_right _ (List.mem_cons_of_mem _ member)

theorem LinkedPath.congr (linked : LinkedPath nodes path pointer)
 (same : ∀ item ∈ itemsBefore path ++ itemsAfter path,
  find item.1 nodes' = find item.1 nodes) :
 LinkedPath nodes' path pointer := by
 induction path generalizing pointer with
 | nil => trivial
 | cons frame path ih =>
  obtain ⟨here, beside, along⟩ := linked
  have items := items_cons_perm frame path
  refine ⟨(same frame.item (items.mem_iff.mpr List.mem_cons_self)).trans here,
   beside.congr fun item member => same item (items.mem_iff.mpr ?_),
   ih along fun item member => same item (items.mem_iff.mpr ?_)⟩
  · grind
  · grind

theorem LinkedPath.relink {frame : Frame (ℕ × α)} {old : Option ℕ}
 (linked : LinkedPath nodes (frame :: path) old)
 (here : find frame.item.1 nodes' = some (frameNode (holder path) pointer frame))
 (same : ∀ item ∈ inOrder frame.sibling ++ (itemsBefore path ++ itemsAfter path),
  find item.1 nodes' = find item.1 nodes) :
 LinkedPath nodes' (frame :: path) pointer :=
 ⟨here, linked.2.1.congr fun item member => same item (List.mem_append_left _ member),
  linked.2.2.congr fun item member => same item (List.mem_append_right _ member)⟩

variable {item : ℕ × α}

theorem ne_frame {frame : Frame (ℕ × α)}
 (distinct : ((itemsBefore (frame :: path) ++ itemsAfter (frame :: path)).map fst).Nodup)
 (member : item ∈ inOrder frame.sibling ++ (itemsBefore path ++ itemsAfter path)) :
 item.1 ≠ frame.item.1 := by
 have distinct := ((items_cons_perm frame path).map fst).nodup_iff.mp distinct
 intro same
 exact (List.nodup_cons.mp distinct).1 (same ▸ List.mem_map_of_mem member)

theorem Linked.found (linked : Linked nodes parent shape) (member : item ∈ inOrder shape) :
 ∃ node, find item.1 nodes = some node := by
 induction shape generalizing parent with
 | nil => cases member
 | node own left right ihLeft ihRight =>
  obtain ⟨here, below, below'⟩ := linked
  rcases List.mem_append.mp member with front | back
  · exact ihLeft below front
  · rcases List.mem_cons.mp back with same | behind
    · exact same ▸ ⟨_, here⟩
    · exact ihRight below' behind

variable {address : ℕ}

theorem mem_of_top (root : top shape = some address) :
 address ∈ (inOrder shape).map fst := by
 cases shape with
 | nil => cases root
 | node item left right =>
  cases root
  exact List.mem_map_of_mem (List.mem_append_right _ List.mem_cons_self)

theorem top_plug (frame : Frame (ℕ × α)) (shape other : BinaryTree (ℕ × α)) :
 top (plug (frame :: path) shape) = top (plug (frame :: path) other) := by
 induction path generalizing frame shape other with
 | nil => cases frame <;> rfl
 | cons next path ih =>
  rw [plug, plug]
  exact ih next _ _

theorem Linked.length_inOrder_le (linked : Linked nodes parent shape)
 (distinct : ((inOrder shape).map fst).Nodup) :
 (inOrder shape).length ≤ nodes.length := by
 have known : (inOrder shape).map fst ⊆ nodes.map fst := by
  intro address member
  obtain ⟨item, inside, rfl⟩ := List.mem_map.mp member
  obtain ⟨node, found⟩ := linked.found inside
  exact List.mem_map_of_mem (mem_of_find found)
 have fewer := (List.subperm_of_subset distinct known).length_le
 rwa [List.length_map, List.length_map] at fewer

theorem Linked.height_le (linked : Linked nodes parent shape)
 (distinct : ((inOrder shape).map fst).Nodup) : shape.height ≤ nodes.length :=
 shape.height_le_numNodes.trans
  ((length_inOrder shape).symm.trans_le (linked.length_inOrder_le distinct))

/-! ### The walks -/

@[simp] theorem ok_bind {β γ : Type*} (value : β) (next : β → Except Fault γ) :
 (Except.ok value).bind next = next value := rfl

@[simp] theorem ok_map {β γ : Type*} (value : β) (change : β → γ) :
 (Except.ok value : Except Fault β).map change = .ok (change value) := rfl

variable {node : BSTNode α}

theorem read_eq (found : find address nodes = some node) :
 read nodes (some address) = .ok node := by
 rw [read, found]

theorem write_eq {change : BSTNode α → BSTNode α}
 (found : find address nodes = some node) :
 write nodes (some address) change = .ok (OrderedMap.insert address (change node) nodes) := by
 rw [write, read_eq found, ok_map, Option.getD_some]

theorem find_insert_ne {other : ℕ} (different : other ≠ address) :
 OrderedMap.find other (OrderedMap.insert address node nodes) =
  find other nodes :=
 find_insert.trans (if_neg different)

theorem find_insert_self :
 OrderedMap.find address (OrderedMap.insert address node nodes) = some node :=
 find_insert.trans (if_pos rfl)

theorem find_erase_ne {other : ℕ} (different : other ≠ address) :
 find other (erase address nodes) = find other nodes :=
 find_erase.trans (if_neg different)

section Unlinked

variable {p z c : ℕ} {above key below : α} {sibling left right : BinaryTree (ℕ × α)}

theorem items_perm : (inOrder (plug (.left (p, above) sibling :: path)
 (.node (z, key) (.node (c, below) left right) .nil))).Perm
 ((p, above) :: (z, key) :: (c, below) :: ((inOrder left ++ inOrder right) ++
  (inOrder sibling ++ (itemsBefore path ++ itemsAfter path)))) := by
 refine (inOrder_plug_perm _ _).trans ?_
 have own : (inOrder (.node (z, key) (.node (c, below) left right) .nil)).Perm
  ((z, key) :: (c, below) :: (inOrder left ++ inOrder right)) := by
  refine List.perm_middle.trans (List.Perm.cons (z, key) ?_)
  rw [inOrder, inOrder, List.append_nil]
  exact List.perm_middle
 exact (own.append (items_cons_perm _ _)).trans List.perm_middle

theorem removeNode_links
 (holds : Linked nodes none (plug (.left (p, above) sibling :: path)
  (.node (z, key) (.node (c, below) left right) .nil)))
 (distinct : ((inOrder (plug (.left (p, above) sibling :: path)
  (.node (z, key) (.node (c, below) left right) .nil))).map fst).Nodup) :
 ∃ nodes', removeNode nodes z = .ok (z, nodes') ∧
  Linked (erase z nodes') none
   (plug (.left (p, above) sibling :: path) (.node (c, below) left right)) := by
 obtain ⟨linked, at_z, ⟨at_c, linked_left, linked_right⟩, -⟩ := linked_plug.mp holds
 have at_p : find p nodes = some ⟨above, some z, top sibling, holder path⟩ := linked.1
 have at_z : find z nodes = some ⟨key, some c, none, some p⟩ := at_z
 have apart := (items_perm.map fst).nodup_iff.mp distinct
 obtain ⟨not_p, apart⟩ := List.nodup_cons.mp apart
 obtain ⟨not_z, apart⟩ := List.nodup_cons.mp apart
 obtain ⟨not_c, -⟩ := List.nodup_cons.mp apart
 have z_ne_p : z ≠ p := fun same => not_p (same ▸ List.mem_cons_self)
 have c_ne_p : c ≠ p := fun same => not_p (same ▸ List.mem_cons_of_mem _ List.mem_cons_self)
 have c_ne_z : c ≠ z := fun same => not_z (same ▸ List.mem_cons_self)
 have others : ∀ item ∈ (inOrder left ++ inOrder right) ++
  (inOrder sibling ++ (itemsBefore path ++ itemsAfter path)),
   item.1 ≠ p ∧ item.1 ≠ z ∧ item.1 ≠ c := by
  intro item member
  have inside := List.mem_map_of_mem (f := fst) member
  refine ⟨fun same => not_p ?_, fun same => not_z ?_, fun same => not_c ?_⟩
  · grind
  · exact same ▸ List.mem_cons_of_mem _ inside
  · exact same ▸ inside
 obtain ⟨nodes₁, made₁⟩ : ∃ nodes₁, nodes₁ =
  OrderedMap.insert p ⟨above, some c, top sibling, holder path⟩ nodes := ⟨_, rfl⟩
 obtain ⟨nodes₂, made₂⟩ : ∃ nodes₂, nodes₂ =
  OrderedMap.insert c ⟨below, top left, top right, some p⟩ nodes₁ := ⟨_, rfl⟩
 have find₁ : ∀ address, address ≠ p → find address nodes₁ =
  find address nodes := fun address apart => made₁ ▸ find_insert_ne apart
 have find₂ : ∀ address, address ≠ c → address ≠ z →
  find address (erase z nodes₂) = find address nodes₁ := by
  intro address apart apart'
  rw [find_erase_ne apart', made₂, find_insert_ne apart]
 have same : ∀ item ∈ (inOrder left ++ inOrder right) ++
  (inOrder sibling ++ (itemsBefore path ++ itemsAfter path)),
   find item.1 (erase z nodes₂) = find item.1 nodes := by
  intro item member
  obtain ⟨item_ne_p, item_ne_z, item_ne_c⟩ := others item member
  rw [find₂ _ item_ne_c item_ne_z, find₁ _ item_ne_p]
 refine ⟨nodes₂, ?_, linked_plug.mpr ⟨linked.relink ?_ fun item member => ?_, ?_, ?_, ?_⟩⟩
 · unfold removeNode
   rw [read_eq at_z, ok_bind, if_pos rfl]
   rw [write_eq at_p, ok_bind, ← made₁, read_eq ((find₁ z z_ne_p).trans at_z), ok_bind,
    write_eq ((find₁ c c_ne_p).trans at_c), ok_map, made₂]
 · refine (find₂ p c_ne_p.symm z_ne_p.symm).trans ?_
   rw [made₁]
   exact find_insert_self
 · exact same item (List.mem_append_right _ member)
 · rw [find_erase_ne c_ne_z, made₂]
   exact find_insert_self
 · exact linked_left.congr fun item member =>
    same item (List.mem_append_left _ (List.mem_append_left _ member))
 · exact linked_right.congr fun item member =>
    same item (List.mem_append_left _ (List.mem_append_right _ member))

end Unlinked

section Ordered

variable [LinearOrder α] {key : α} {tree : BSTree α}

/-- Where the loop of `insert` ends. -/
def insertPlace (key : α) : List (Frame (ℕ × α)) → BinaryTree (ℕ × α) →
 List (Frame (ℕ × α)) × BinaryTree (ℕ × α) :=
 descend (fun _ => false) fun item => decide (key < item.2)

/-- Where `search` ends. -/
def searchPlace (key : α) : List (Frame (ℕ × α)) → BinaryTree (ℕ × α) →
 List (Frame (ℕ × α)) × BinaryTree (ℕ × α) :=
 descend (fun item => decide (item.2 = key)) fun item => decide (key < item.2)

theorem insertLoop_eq {rounds : ℕ} (linked : Linked nodes (holder path) shape)
 (enough : shape.height ≤ rounds) :
 insertLoop nodes key rounds (holder path) (top shape) =
  .ok (holder (insertPlace key path shape).1) := by
 unfold insertPlace
 induction shape generalizing path rounds with
 | nil => cases rounds <;> rfl
 | node item left right ihLeft ihRight =>
  obtain ⟨address, own⟩ := item
  obtain ⟨here, below, below'⟩ := linked
  rw [BinaryTree.height] at enough
  cases rounds with
  | zero => omega
  | succ rounds =>
   change ((read nodes (some address)).bind fun node => insertLoop nodes key rounds
    (some address) (if key < node.key then node.left else node.right)) = _
   rw [read_eq here, ok_bind, descend, if_neg Bool.false_ne_true]
   by_cases smaller : key < own
   · rw [if_pos smaller, if_pos (decide_eq_true smaller)]
     change insertLoop _ _ _ (holder (.left (address, own) right :: path)) _ = _
     exact ihLeft below (by omega)
   · rw [if_neg smaller, if_neg (fun turned => smaller (of_decide_eq_true turned))]
     change insertLoop _ _ _ (holder (.right (address, own) left :: path)) _ = _
     exact ihRight below' (by omega)

theorem searchFrom_eq {rounds : ℕ} (linked : Linked nodes parent shape)
 (enough : shape.height ≤ rounds) :
 searchFrom nodes key rounds (top shape) = .ok (top (searchPlace key path shape).2) := by
 unfold searchPlace
 induction shape generalizing parent path rounds with
 | nil => cases rounds <;> rfl
 | node item left right ihLeft ihRight =>
  obtain ⟨address, own⟩ := item
  obtain ⟨here, below, below'⟩ := linked
  rw [BinaryTree.height] at enough
  cases rounds with
  | zero => omega
  | succ rounds =>
   rw [top, searchFrom, read_eq here, ok_bind, descend]
   by_cases same : own = key
   · rw [if_pos same, if_pos (decide_eq_true same)]
     rfl
   · rw [if_neg same, if_neg (fun stopped => same (of_decide_eq_true stopped))]
     by_cases smaller : key < own
     · rw [if_pos smaller, if_pos (decide_eq_true smaller)]
       exact ihLeft below (by omega)
     · rw [if_neg smaller, if_neg (fun turned => smaller (of_decide_eq_true turned))]
       exact ihRight below' (by omega)

/-! ### Insertion -/

def ByKey (first second : ℕ × α) : Prop := first.2 ≤ second.2

instance : IsTrans (ℕ × α) ByKey := ⟨fun _ _ _ first second => le_trans first second⟩

def keys (shape : BinaryTree (ℕ × α)) : Multiset α := (inOrder shape).map Prod.snd

theorem insertNode_links {root : Option ℕ} {z : ℕ} (key : α)
 (loop : insertLoop nodes key nodes.length none root = .ok (holder path))
 (at_root : root = top (plug path .nil)) (linked : LinkedPath nodes path none)
 (made : find z nodes = some ⟨key, none, none, none⟩)
 (fresh : ∀ item ∈ itemsBefore path ++ itemsAfter path, item.1 ≠ z)
 (distinct : ((itemsBefore path ++ itemsAfter path).map fst).Nodup)
 (sides : (∀ item ∈ itemsBefore path, item.2 ≤ key) ∧ ∀ item ∈ itemsAfter path, key < item.2) :
 ∃ next, insertNode ⟨root, nodes⟩ z = .ok next ∧
  next.mRoot = top (plug path (.node (z, key) .nil .nil)) ∧
   Linked next.nodes none (plug path (.node (z, key) .nil .nil)) := by
 unfold insertNode
 rw [read_eq made, ok_bind, loop, ok_bind, write_eq made, ok_bind]
 cases path with
 | nil => exact ⟨_, rfl, rfl, find_insert_self, trivial, trivial⟩
 | cons frame path =>
  have other : frame.item.1 ≠ z := fresh frame.item
   ((items_cons_perm frame path).mem_iff.mpr List.mem_cons_self)
  have above := linked.1
  rw [← find_insert_ne other] at above
  dsimp only [holder]
  rw [read_eq above, ok_bind, write_eq above, ok_map]
  refine ⟨_, rfl, at_root.trans (top_plug _ _ _), linked_plug.mpr ⟨?_, ?_⟩⟩
  · refine linked.relink (find_insert_self.trans (congrArg some ?_)) fun item member => ?_
    · cases frame with
      | left item sibling =>
       have smaller : key < item.2 := sides.2 item List.mem_cons_self
       rw [frameNode, if_pos smaller]
       rfl
      | right item sibling =>
       have larger : item.2 ≤ key := sides.1 item (by simp [itemsBefore])
       rw [frameNode, if_neg (not_lt.mpr larger)]
       rfl
    · rw [find_insert_ne (ne_frame distinct member), find_insert_ne]
      exact fresh item
       ((items_cons_perm frame path).mem_iff.mpr (List.mem_cons_of_mem _ member))
  · exact ⟨(find_insert_ne other.symm).trans find_insert_self, trivial, trivial⟩

theorem exists_insertPlace (ordered : IsSearchTree ByKey shape) (key : α) :
 ∃ path, insertPlace key [] shape = (path, .nil) ∧ plug path .nil = shape ∧
  (∀ item ∈ itemsBefore path, item.2 ≤ key) ∧ ∀ item ∈ itemsAfter path, key < item.2 := by
 have whole : plug (insertPlace key [] shape).1 (insertPlace key [] shape).2 = shape :=
  plug_descend
 have ends : (insertPlace key [] shape).2 = .nil := by
  cases place : (insertPlace key [] shape).2 with
  | nil => rfl
  | node item left right => exact absurd (descend_stops place) Bool.false_ne_true
 have sides : (∀ item ∈ itemsBefore (insertPlace key [] shape).1, item.2 ≤ key) ∧
  ∀ item ∈ itemsAfter (insertPlace key [] shape).1, key < item.2 := by
  refine descend_sides ordered (fun item _ turned => of_decide_eq_true turned)
   (fun item _ turned => not_lt.mp (of_decide_eq_false turned)) ?_ ?_ ?_
  · exact fun item other before below => le_trans before below
  · exact fun item other behind above => lt_of_lt_of_le above behind
  · exact ⟨fun _ member => absurd member List.not_mem_nil,
     fun _ member => absurd member List.not_mem_nil⟩
 grind

theorem insert_holds (holds : tree.Holds shape) (ordered : IsSearchTree ByKey shape)
 (unused : find address tree.nodes = none) (key : α) :
 ∃ next shape', tree.insert key address = .ok next ∧ next.Holds shape' ∧
  IsSearchTree ByKey shape' ∧ keys shape' = key ::ₘ keys shape := by
 obtain ⟨path, place, rfl, sides⟩ := exists_insertPlace ordered key
 have items := inOrder_plug path (.nil : BinaryTree (ℕ × α))
 rw [inOrder, List.nil_append] at items
 have items' : inOrder (plug path (.node (address, key) .nil .nil)) =
  itemsBefore path ++ (address, key) :: itemsAfter path := inOrder_plug _ _
 have distinct := holds.distinct
 rw [isSearchTree_iff, items] at ordered
 rw [items] at distinct
 have fresh : ∀ item ∈ itemsBefore path ++ itemsAfter path, item.1 ≠ address := by
  intro item member same
  obtain ⟨node, found⟩ := holds.linked.found (items ▸ member)
  rw [same, unused] at found
  cases found
 have linked : Linked (OrderedMap.insert address ⟨key, none, none, none⟩ tree.nodes) none
  (plug path .nil) :=
  holds.linked.congr fun item member => find_insert_ne (fresh item (items ▸ member))
 have enough := linked.height_le holds.distinct
 have loop : insertLoop (OrderedMap.insert address ⟨key, none, none, none⟩ tree.nodes) key _
  (holder []) _ = .ok (holder (insertPlace key [] (plug path .nil)).1) :=
  insertLoop_eq linked enough
 rw [place] at loop
 obtain ⟨next, same, root, linked'⟩ := insertNode_links key loop rfl (linked_plug.mp linked).1
  find_insert_self fresh distinct sides
 refine ⟨next, _, ?_, ⟨root, linked', ?_⟩, ?_, ?_⟩
 · rw [insert, holds.root]
   exact same
 · rw [items', (List.perm_middle.map fst).nodup_iff, List.map_cons, List.nodup_cons]
   grind
 · obtain ⟨ordered_before, ordered_after, -⟩ := List.pairwise_append.mp ordered
   rw [isSearchTree_iff, items', pairwise_middle]
   exact ⟨sides.1, fun item member => (sides.2 item member).le, ordered_before, ordered_after⟩
 · rw [keys, keys, items, items', cons_coe, coe_eq_coe]
   exact List.perm_middle.map snd

/-! ### Removal -/

theorem search_eq (holds : tree.Holds shape) :
 tree.search key = .ok (top (searchPlace key [] shape).2) := by
 rw [search, holds.root]
 exact searchFrom_eq holds.linked (holds.linked.height_le holds.distinct)

theorem searchPlace_stops {left right : BinaryTree (ℕ × α)}
 (place : (searchPlace key path shape).2 = .node item left right) : item.2 = key := by
 have stopped := descend_stops place
 exact of_decide_eq_true stopped

theorem searchPlace_spec (ordered : IsSearchTree ByKey shape) (key : α) :
 ((searchPlace key [] shape).2 = .nil ∧ key ∉ keys shape) ∨
  ∃ path z left right, searchPlace key [] shape = (path, .node (z, key) left right) ∧
   plug path (.node (z, key) left right) = shape := by
 have whole : plug (searchPlace key [] shape).1 (searchPlace key [] shape).2 = shape :=
  plug_descend
 cases place : (searchPlace key [] shape).2 with
 | nil =>
  have sides : (∀ item ∈ itemsBefore (searchPlace key [] shape).1, item.2 < key) ∧
   ∀ item ∈ itemsAfter (searchPlace key [] shape).1, key < item.2 := by
   refine descend_sides ordered (fun item _ turned => of_decide_eq_true turned) ?_ ?_ ?_ ?_
   · grind
   · exact fun item other before below => lt_of_le_of_lt before below
   · exact fun item other behind above => lt_of_lt_of_le above behind
   · exact ⟨fun _ member => absurd member List.not_mem_nil,
      fun _ member => absurd member List.not_mem_nil⟩
  refine .inl ⟨rfl, fun member => ?_⟩
  rw [place] at whole
  rw [keys, ← whole, inOrder_plug, mem_coe] at member
  obtain ⟨item, inside, rfl⟩ := List.mem_map.mp member
  rcases List.mem_append.mp inside with before | after
  · exact lt_irrefl _ (sides.1 item before)
  · exact lt_irrefl _ (sides.2 item after)
 | node item left right =>
  obtain rfl := searchPlace_stops place
  grind

theorem remove_absent (holds : tree.Holds shape) (ordered : IsSearchTree ByKey shape)
 (absent : key ∉ keys shape) : tree.remove key = .ok tree := by
 rcases searchPlace_spec ordered key with ⟨none, -⟩ | ⟨path, z, left, right, -, rfl⟩
 · rw [remove, search_eq holds, none]
   rfl
 · refine absurd ?_ absent
   rw [keys, mem_coe, inOrder_plug]
   exact List.mem_map.mpr ⟨(z, key), by simp [inOrder], rfl⟩

theorem Removable.place {z : ℕ} {left right : BinaryTree (ℕ × α)}
 (removable : tree.Removable key) (found : tree.search key = .ok (some z))
 (holds : tree.Holds (plug path (.node (z, key) left right))) :
 ∃ p above sibling path' c below first second, path = .left (p, above) sibling :: path' ∧
  left = .node (c, below) first second ∧ right = .nil := by
 obtain ⟨node, above, read_z, some_left, no_right, read_parent, is_left⟩ := removable z found
 obtain ⟨along, at_z, -⟩ := linked_plug.mp holds.linked
 obtain rfl := Except.ok.inj ((read_eq at_z).symm.trans read_z)
 cases right with
 | node item first second => cases no_right
 | nil =>
  cases left with
  | nil => exact absurd rfl some_left
  | node item first second =>
   cases path with
   | nil => cases read_parent
   | cons frame path =>
    obtain rfl := Except.ok.inj ((read_eq along.1).symm.trans read_parent)
    cases frame with
    | left item sibling =>
     grind
    | right item sibling =>
     -- the left child of the parent is at another address than the right one
     have spread := ((inOrder_plug_perm _ _).map fst).nodup_iff.mp holds.distinct
     rw [List.map_append, itemsBefore, List.map_append, List.map_append,
      List.map_append] at spread
     have beside := mem_of_top is_left
     exact (List.disjoint_of_nodup_append spread (mem_of_top rfl)
      (List.mem_append_left _ (List.mem_append_right _
       (List.mem_append_left _ beside)))).elim

theorem remove_holds (holds : tree.Holds shape) (ordered : IsSearchTree ByKey shape)
 (removable : tree.Removable key) :
 ∃ next shape', tree.remove key = .ok next ∧ next.Holds shape' ∧
  IsSearchTree ByKey shape' ∧ keys shape' = (keys shape).erase key := by
 rcases searchPlace_spec ordered key with ⟨-, absent⟩ | ⟨path, z, left, right, place, rfl⟩
 · exact ⟨tree, shape, remove_absent holds ordered absent, holds, ordered,
    (erase_of_notMem absent).symm⟩
 · have found : tree.search key = .ok (top (searchPlace key [] _).2) := search_eq holds
   rw [place] at found
   obtain ⟨p, above, sibling, path, c, below, first, second, rfl, rfl, rfl⟩ :=
    removable.place found holds
   obtain ⟨nodes', removed, linked⟩ := removeNode_links holds.linked holds.distinct
   have shorter := unlink_sublist (.left (p, above) sibling :: path) (z, key)
    (.node (c, below) first second)
   refine ⟨⟨tree.mRoot, erase z nodes'⟩, _, ?_,
    ⟨holds.root.trans (top_plug _ _ _), linked,
     holds.distinct.sublist (shorter.map fst)⟩, ?_, ?_⟩
   · rw [remove, found, ok_bind]
     dsimp only [top]
     rw [removed]
     rfl
   · exact isSearchTree_iff.mpr ((isSearchTree_iff.mp ordered).sublist shorter)
   · have same := (unlink_perm (.left (p, above) sibling :: path) (z, key)
      (.node (c, below) first second)).map snd
     rw [keys, keys, coe_eq_coe.mpr same, List.map_cons, coe_erase,
      List.erase_cons_head]

/-! ### Runs -/

theorem apply_holds {operation : Operation α} (holds : tree.Holds shape)
 (ordered : IsSearchTree ByKey shape) (unused : tree.Unused operation)
 (allowed : tree.Allowed operation) :
 ∃ next shape', tree.apply operation = .ok next ∧ next.Holds shape' ∧
  IsSearchTree ByKey shape' ∧ keys shape' = keysAfter (keys shape) [operation] := by
 cases operation with
 | insert key address => exact insert_holds holds ordered unused key
 | remove key => exact remove_holds holds ordered allowed

theorem run_holds {operations : List (Operation α)} (holds : tree.Holds shape)
 (ordered : IsSearchTree ByKey shape) (unused : tree.Throughout Unused operations)
 (allowed : tree.Throughout Allowed operations) :
 ∃ last shape', tree.run operations = .ok last ∧ last.Holds shape' ∧
  IsSearchTree ByKey shape' ∧ keys shape' = keysAfter (keys shape) operations := by
 induction operations generalizing tree shape with
 | nil => exact ⟨tree, shape, rfl, holds, ordered, rfl⟩
 | cons first rest ih =>
  obtain ⟨next, shape', same, holds', ordered', keys'⟩ :=
   apply_holds holds ordered unused.1 allowed.1
  obtain ⟨last, shape'', ran, holds'', ordered'', keys''⟩ :=
   ih holds' ordered' (unused.2 next same) (allowed.2 next same)
  refine ⟨last, shape'', ?_, holds'', ordered'', ?_⟩
  · rw [run, same, ok_bind, ran]
  · rw [keys'', keys']
    cases first <;> rfl

/-- As long as every key removed is absent, or found at a left child that has a left child only, no
operation fails, the links are those of a search tree, and the tree holds each key as often as it
was inserted and not removed. -/
theorem bsTree_sound (operations : List (Operation α))
 (unused : empty.Throughout Unused operations) (allowed : empty.Throughout Allowed operations) :
 ∃ tree shape, run empty operations = .ok tree ∧ tree.Holds shape ∧
  IsSearchTree ByKey shape ∧ keys shape = keysAfter 0 operations ∧
  ∀ key, key ∉ keys shape → tree.remove key = .ok tree := by
 have start : (empty : BSTree α).Holds .nil := ⟨rfl, trivial, List.nodup_nil⟩
 obtain ⟨tree, shape, ran, holds, ordered, keys_eq⟩ := run_holds start trivial unused allowed
 exact ⟨tree, shape, ran, holds, ordered, keys_eq, fun _ => remove_absent holds ordered⟩

end Ordered

theorem Throughout.cons [LinearOrder α] {condition : BSTree α → Operation α → Prop}
 {tree next : BSTree α} {first : Operation α} {rest : List (Operation α)}
 (ran : tree.apply first = .ok next) (now : condition tree first)
 (later : next.Throughout condition rest) : tree.Throughout condition (first :: rest) :=
 ⟨now, fun _ same => Except.ok.inj (ran.symm.trans same) ▸ later⟩

theorem bsTree_sound_three :
 ∃ tree shape, run (empty : BSTree ℕ) [.insert 5 1, .insert 3 2, .insert 1 3, .remove 3] =
  .ok tree ∧ tree.Holds shape ∧ IsSearchTree ByKey shape ∧
  keys shape = keysAfter 0 [.insert 5 1, .insert 3 2, .insert 1 3, .remove 3] ∧
  ∀ key, key ∉ keys shape → tree.remove key = .ok tree := by
 refine bsTree_sound _ (.cons rfl rfl (.cons rfl rfl (.cons rfl rfl (.cons rfl trivial trivial))))
  (.cons rfl trivial (.cons rfl trivial (.cons rfl trivial (.cons rfl ?_ trivial))))
 intro z found
 obtain rfl : 2 = z := Option.some.inj (Except.ok.inj found)
 exact ⟨⟨3, some 3, none, some 1⟩, ⟨5, some 2, none, none⟩, rfl, by decide, rfl, rfl, rfl⟩

/-- The only key cannot be removed; a right child that is removed stays linked; and a child of the
node whose key moves up becomes its own parent. -/
theorem removals_break :
 run (empty : BSTree ℕ) [.insert 5 1, .remove 5] = .error .nullPointer ∧
  run (empty : BSTree ℕ) [.insert 1 1, .insert 3 2, .insert 2 3, .remove 3] =
   .ok ⟨some 1, [(1, ⟨1, some 3, some 2, none⟩), (3, ⟨2, none, none, some 1⟩)]⟩ ∧
  run (empty : BSTree ℕ) [.insert 4 1, .insert 2 2, .insert 6 3, .insert 1 4, .remove 4] =
   .ok ⟨some 1, [(1, ⟨2, some 4, some 3, none⟩), (3, ⟨6, none, none, some 1⟩),
    (4, ⟨1, none, none, some 4⟩)]⟩ :=
 ⟨rfl, rfl, rfl⟩

end BSTree

end MyNotes.DataStructures
