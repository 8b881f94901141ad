/-
The walks to the next node and to the one before in the binary search tree of the search notes.

The minimum and the successor go to one side where the maximum and the predecessor go to the other,
so each pair is one walk.  What is proved of it on every tree is used on the tree and on its mirror
image.
-/

import MyNotes.DataStructures.BSTree
import MyNotes.Library.TreeMirror

namespace MyNotes.DataStructures.BSTree

open Library Library.SearchTree Library.TreePath Library.TreeMirror List Prod

variable {α : Type*}

/-- `while (tree->left != nullptr) tree = tree->left;`, or the same with `tree->right`. -/
def extremeLoop (child : BSTNode α → Option ℕ) (nodes : List (ℕ × BSTNode α)) :
 ℕ → ℕ → Except Fault ℕ
 | 0, _ => .error .endlessWalk
 | rounds + 1, tree =>
  (read nodes (some tree)).bind fun node =>
   match child node with
   | none => .ok tree
   | some below => extremeLoop child nodes rounds below

def extreme (child : BSTNode α → Option ℕ) (nodes : List (ℕ × BSTNode α)) :
 Option ℕ → Except Fault (Option ℕ)
 | none => .ok none
 | some tree => (extremeLoop child nodes nodes.length tree).map some

/-- `minimum(tree)`. -/
def minimum (nodes : List (ℕ × BSTNode α)) : Option ℕ → Except Fault (Option ℕ) :=
 extreme BSTNode.left nodes

/-- `maximum(tree)`. -/
def maximum (nodes : List (ℕ × BSTNode α)) : Option ℕ → Except Fault (Option ℕ) :=
 extreme BSTNode.right nodes

/-- `while (y != NULL && x == y->right) { x = y; y = y->parent; }`, or the same with `y->left`;
it ends with `y`. -/
def climbLoop (child : BSTNode α → Option ℕ) (nodes : List (ℕ × BSTNode α)) :
 ℕ → ℕ → Option ℕ → Except Fault (Option ℕ)
 | _, _, none => .ok none
 | 0, _, some _ => .error .endlessWalk
 | rounds + 1, x, some y =>
  (read nodes (some y)).bind fun above =>
   if child above = some x then climbLoop child nodes rounds y above.parent
   else .ok (some y)

/-- The node at the near end of the subtree on that side, or else the first one above that is on
that side. -/
def neighbour (child : BSTNode α → Option ℕ)
 (nearest : List (ℕ × BSTNode α) → Option ℕ → Except Fault (Option ℕ))
 (nodes : List (ℕ × BSTNode α)) (x : ℕ) : Except Fault (Option ℕ) :=
 (read nodes (some x)).bind fun node =>
  if child node ≠ none then nearest nodes (child node)
  else climbLoop child nodes nodes.length x node.parent

def successor (tree : BSTree α) (x : ℕ) : Except Fault (Option ℕ) :=
 neighbour BSTNode.right minimum tree.nodes x

def predecessor (tree : BSTree α) (x : ℕ) : Except Fault (Option ℕ) :=
 neighbour BSTNode.left maximum tree.nodes x

/-- `inOrder(tree)`, at most so many calls deep: the keys printed. -/
def inOrderFrom (nodes : List (ℕ × BSTNode α)) : ℕ → Option ℕ → Except Fault (List α)
 | _, none => .ok []
 | 0, some _ => .error .endlessWalk
 | depth + 1, some tree =>
  (read nodes (some tree)).bind fun node =>
   (inOrderFrom nodes depth node.left).bind fun before =>
    (inOrderFrom nodes depth node.right).map fun after => before ++ node.key :: after

def printInOrder (tree : BSTree α) : Except Fault (List α) :=
 inOrderFrom tree.nodes tree.nodes.length tree.mRoot

/-- `while (x != nullptr) x = successor(x);`: the nodes passed. -/
def successors (tree : BSTree α) : ℕ → Option ℕ → Except Fault (List ℕ)
 | _, none => .ok []
 | 0, some _ => .error .endlessWalk
 | rounds + 1, some x =>
  (tree.successor x).bind fun next => (tree.successors rounds next).map (x :: ·)

/-! ### A tree from one side -/

def address : BinaryTree ℕ → Option ℕ
 | .nil => none
 | .node place _ _ => some place

def lastAddress : List (Frame ℕ) → Option ℕ
 | [] => none
 | frame :: _ => some frame.item

/-- The links of the nodes are those of the tree, which has the children `near` on its left. -/
def LinkedBy (near far : BSTNode α → Option ℕ) (nodes : List (ℕ × BSTNode α)) :
 Option ℕ → BinaryTree ℕ → Prop
 | _, .nil => True
 | parent, .node place first second =>
  (∃ node, OrderedMap.find place nodes = some node ∧ near node = address first ∧
   far node = address second ∧ node.parent = parent) ∧
   LinkedBy near far nodes (some place) first ∧ LinkedBy near far nodes (some place) second

variable {near far : BSTNode α → Option ℕ} {nodes : List (ℕ × BSTNode α)} {path : List (Frame ℕ)}
 {places first second : BinaryTree ℕ} {parent : Option ℕ} {shape : BinaryTree (ℕ × α)}
 {place : ℕ}

@[simp] theorem address_map (shape : BinaryTree (ℕ × α)) :
 address (shape.map fst) = top shape := by
 cases shape <;> rfl

@[simp] theorem address_mirror (places : BinaryTree ℕ) :
 address (mirror places) = address places := by
 cases places <;> rfl

theorem Linked.linkedBy (linked : Linked nodes parent shape) :
 LinkedBy BSTNode.left BSTNode.right nodes parent (shape.map fst) := by
 induction shape generalizing parent with
 | nil => trivial
 | node item left right ihLeft ihRight =>
  obtain ⟨here, below, below'⟩ := linked
  refine ⟨⟨_, here, ?_, ?_, rfl⟩, ihLeft below, ihRight below'⟩
  · exact (address_map left).symm
  · exact (address_map right).symm

theorem LinkedBy.mirrored (linked : LinkedBy near far nodes parent places) :
 LinkedBy far near nodes parent (mirror places) := by
 induction places generalizing parent with
 | nil => trivial
 | node place first second ihFirst ihSecond =>
  obtain ⟨⟨node, found, at_near, at_far, above⟩, below, below'⟩ := linked
  refine ⟨⟨node, found, ?_, ?_, above⟩, ihSecond below', ihFirst below⟩
  · exact at_far.trans (address_mirror second).symm
  · exact at_near.trans (address_mirror first).symm

theorem LinkedBy.of_plug (path : List (Frame ℕ))
 (linked : LinkedBy near far nodes none (plug path places)) :
 LinkedBy near far nodes (lastAddress path) places := by
 induction path generalizing places with
 | nil => exact linked
 | cons frame path ih =>
  have here := ih linked
  cases frame with
  | left item sibling => exact here.2.1
  | right item sibling => exact here.2.2

theorem nodup_of_plug (path : List (Frame ℕ)) (distinct : (inOrder (plug path places)).Nodup) :
 (inOrder places).Nodup := by
 rw [inOrder_plug] at distinct
 grind

theorem address_mem (root : address places = some place) : place ∈ inOrder places := by
 cases places with
 | nil => cases root
 | node own first second =>
  cases root
  exact mem_append_right _ mem_cons_self

theorem inOrder_eq_nil (root : address places = none) : inOrder places = [] := by
 cases places with
 | nil => rfl
 | node own first second => cases root

theorem length_path_le (path : List (Frame ℕ)) (places : BinaryTree ℕ) :
 path.length + (inOrder places).length ≤ (inOrder (plug path places)).length := by
 induction path generalizing places with
 | nil => exact (Nat.zero_add _).le
 | cons frame path ih =>
  refine le_trans ?_ (ih (frame.attach places))
  cases frame with
  | left item sibling =>
   simp only [Frame.attach, inOrder, length_append, length_cons]
   omega
  | right item sibling =>
   simp only [Frame.attach, inOrder, length_append, length_cons]
   omega

/-! ### The walks -/

variable {rounds : ℕ}

theorem extremeLoop_eq (linked : LinkedBy near far nodes parent (.node place first second))
 (enough : (inOrder (.node place first second)).length ≤ rounds) :
 (extremeLoop near nodes rounds place).map some =
  .ok (inOrder (.node place first second)).head? := by
 induction first generalizing parent place second rounds with
 | nil =>
  obtain ⟨⟨node, found, at_near, -⟩, -⟩ := linked
  cases rounds with
  | zero => cases enough
  | succ rounds => simp [extremeLoop, read_eq found, at_near, address, inOrder]
 | node below left right ihLeft =>
  obtain ⟨⟨node, found, at_near, -⟩, linked, -⟩ := linked
  cases rounds with
  | zero =>
   rw [inOrder, length_append, length_cons] at enough
   omega
  | succ rounds =>
   have fewer : (inOrder (.node below left right)).length ≤ rounds := by
    rw [inOrder, length_append, length_cons] at enough
    omega
   rw [extremeLoop, read_eq found, ok_bind, at_near, address]
   refine (ihLeft linked fewer).trans ?_
   rw [inOrder.eq_2 place, head?_append_of_ne_nil]
   exact append_ne_nil_of_right_ne_nil _ (cons_ne_nil _ _)

theorem extreme_eq (linked : LinkedBy near far nodes parent places)
 (enough : (inOrder places).length ≤ nodes.length) :
 extreme near nodes (address places) = .ok (inOrder places).head? := by
 cases places with
 | nil => rfl
 | node place first second => exact extremeLoop_eq linked enough

theorem climbLoop_eq (linked : LinkedBy near far nodes none (plug path places))
 (distinct : (inOrder (plug path places)).Nodup) (here : address places = some place)
 (enough : path.length ≤ rounds) :
 climbLoop far nodes rounds place (lastAddress path) = .ok (itemsAfter path).head? := by
 induction path generalizing places place rounds with
 | nil => cases rounds <;> rfl
 | cons frame path ih =>
  cases rounds with
  | zero => cases enough
  | succ rounds =>
   have above := LinkedBy.of_plug path linked
   cases frame with
   | left item sibling =>
    obtain ⟨⟨node, found, -, at_far, -⟩, -⟩ := above
    have elsewhere : far node ≠ some place := by
     intro same
     have apart := nodup_of_plug path distinct
     refine (nodup_append.mp apart).2.2 place (address_mem here) place ?_ rfl
     exact mem_cons_of_mem _ (address_mem (at_far.symm.trans same))
    simp [climbLoop, lastAddress, Frame.item, read_eq found, elsewhere, itemsAfter]
   | right item sibling =>
    obtain ⟨⟨node, found, -, at_far, upwards⟩, -⟩ := above
    have comes_from : far node = some place := at_far.trans here
    simp only [climbLoop, lastAddress, Frame.item, read_eq found, ok_bind,
     if_pos comes_from, upwards]
    exact ih linked distinct rfl (Nat.le_of_succ_le_succ enough)

variable {before after : List ℕ}

theorem neighbour_eq (linked : LinkedBy near far nodes none places)
 (distinct : (inOrder places).Nodup) (enough : (inOrder places).length ≤ nodes.length)
 (cut : inOrder places = before ++ place :: after) :
 neighbour far (extreme near) nodes place = .ok after.head? := by
 obtain ⟨path, first, second, rfl, -, rfl⟩ := exists_plug cut
 have sizes := length_path_le path (.node place first second)
 rw [inOrder, length_append, length_cons] at sizes
 obtain ⟨⟨node, found, -, at_far, above⟩, -, below⟩ := linked.of_plug _
 rw [neighbour, read_eq found, ok_bind, at_far]
 split
 · rename_i deeper
   rw [extreme_eq below (by omega), head?_append]
   cases second with
   | nil => exact absurd rfl deeper
   | node own left right => simp [inOrder]
 · rename_i bottom
   rw [above, inOrder_eq_nil (not_not.mp bottom), nil_append]
   exact climbLoop_eq linked distinct rfl (by omega)

section Held

variable {tree : BSTree α}

section

variable (holds : tree.Holds shape)
include holds

theorem Holds.length_le : (inOrder (shape.map fst)).length ≤ tree.nodes.length := by
 rw [inOrder_map, length_map]
 exact holds.linked.length_inOrder_le holds.distinct

theorem Holds.nodup : (inOrder (shape.map fst)).Nodup := by
 rw [inOrder_map]
 exact holds.distinct

theorem successor_eq (cut : (inOrder shape).map fst = before ++ place :: after) :
 tree.successor place = .ok after.head? :=
 neighbour_eq holds.linked.linkedBy holds.nodup holds.length_le ((inOrder_map _ _).trans cut)

theorem predecessor_eq (cut : (inOrder shape).map fst = before ++ place :: after) :
 tree.predecessor place = .ok before.getLast? := by
 have turned : inOrder (mirror (shape.map fst)) =
  after.reverse ++ place :: before.reverse := by
  rw [inOrder_mirror, inOrder_map, cut, reverse_append, reverse_cons,
   append_assoc, singleton_append]
 rw [← head?_reverse]
 refine neighbour_eq holds.linked.linkedBy.mirrored ?_ ?_ turned
 · exact inOrder_mirror _ ▸ nodup_reverse.mpr holds.nodup
 · rw [inOrder_mirror, length_reverse]
   exact holds.length_le

theorem minimum_eq : minimum tree.nodes tree.mRoot = .ok ((inOrder shape).map fst).head? := by
 rw [holds.root, ← address_map, ← inOrder_map]
 exact extreme_eq holds.linked.linkedBy holds.length_le

theorem successors_eq (cut : (inOrder shape).map fst = before ++ after)
 (enough : after.length ≤ rounds) : tree.successors rounds after.head? = .ok after := by
 induction after generalizing before rounds with
 | nil => cases rounds <;> rfl
 | cons place after ih =>
  cases rounds with
  | zero => cases enough
  | succ rounds =>
   have rest : tree.successors rounds after.head? = .ok after :=
    ih (cut.trans (append_cons _ _ _)) (Nat.le_of_succ_le_succ enough)
   rw [head?_cons, successors, successor_eq holds cut, ok_bind, rest, ok_map]

end

theorem inOrderFrom_eq {depth : ℕ} (linked : Linked nodes parent shape)
 (enough : shape.height ≤ depth) :
 inOrderFrom nodes depth (top shape) = .ok ((inOrder shape).map snd) := by
 induction shape generalizing parent depth with
 | nil => cases depth <;> rfl
 | node item left right ihLeft ihRight =>
  cases depth with
  | zero => cases enough
  | succ depth =>
   obtain ⟨found, below, below'⟩ := linked
   have lower : max left.height right.height ≤ depth := Nat.le_of_succ_le_succ enough
   rw [top, inOrderFrom, read_eq found, ok_bind,
    ihLeft below ((le_max_left _ _).trans lower), ok_bind,
    ihRight below' ((le_max_right _ _).trans lower), ok_map, inOrder, map_append,
    map_cons]

/-- `successor` and `predecessor` go along the nodes in the order of `inOrder`. -/
theorem successor_predecessor_inOrder (tree : BSTree α) (shape : BinaryTree (ℕ × α))
 (holds : tree.Holds shape) :
 (∀ before x after, (inOrder shape).map Prod.fst = before ++ x :: after →
  tree.successor x = .ok after.head? ∧ tree.predecessor x = .ok before.getLast?) ∧
 (∀ x ∈ (inOrder shape).map Prod.fst, ∀ next,
  tree.successor x = .ok (some next) → tree.predecessor next = .ok (some x)) ∧
 ∃ first, minimum tree.nodes tree.mRoot = .ok first ∧
  tree.successors tree.nodes.length first = .ok ((inOrder shape).map Prod.fst) ∧
   tree.printInOrder = .ok ((inOrder shape).map Prod.snd) := by
 refine ⟨fun before x after cut => ?_, fun x member next follows => ?_, _, minimum_eq holds,
  ?_, ?_⟩
 · exact ⟨successor_eq holds cut, predecessor_eq holds cut⟩
 · obtain ⟨before, after, cut⟩ := append_of_mem member
   have found := Except.ok.inj ((successor_eq holds cut).symm.trans follows)
   obtain ⟨later, rfl⟩ := List.head?_eq_some_iff.mp found
   rw [predecessor_eq holds (cut.trans (append_cons _ _ _)), List.getLast?_concat]
 · refine successors_eq holds (nil_append _).symm ?_
   rw [← inOrder_map]
   exact holds.length_le
 · rw [printInOrder, holds.root]
   exact inOrderFrom_eq holds.linked (holds.linked.height_le holds.distinct)

theorem successor_predecessor_inOrder_three :
 let shape : BinaryTree (ℕ × ℕ) :=
  .node (1, 30) (.node (2, 10) .nil (.node (3, 20) .nil .nil)) .nil
  let tree : BSTree ℕ :=
   ⟨some 1, [(1, ⟨30, some 2, none, none⟩), (2, ⟨10, none, some 3, some 1⟩),
    (3, ⟨20, none, none, some 2⟩)]⟩
  tree.successor 3 = .ok (some 1) ∧ tree.successor 1 = .ok none ∧
   tree.predecessor 3 = .ok (some 2) ∧ ∃ first, minimum tree.nodes tree.mRoot = .ok first ∧
    tree.successors tree.nodes.length first = .ok ((inOrder shape).map Prod.fst) := by
 intro shape tree
 have holds : tree.Holds shape :=
  ⟨rfl, ⟨rfl, ⟨rfl, trivial, rfl, trivial, trivial⟩, trivial⟩, by decide⟩
 obtain ⟨neighbours, -, first, least, visits, -⟩ :=
  successor_predecessor_inOrder tree shape holds
 have of_three := neighbours [2] 3 [1] rfl
 have of_one := neighbours [2, 3] 1 [] rfl
 simp_all

end Held

end MyNotes.DataStructures.BSTree
