/-
A place in a binary tree: the path from the root to it, and what hangs below.

The path keeps the last step first, so an operation at the place changes its head only.
-/

import MyNotes.Library.SearchTree

namespace MyNotes.Library.TreePath

open SearchTree List

variable {α : Type*}

/-- One step down, with the item of the node left and the other subtree. -/
inductive Frame (α : Type*) where
 | left (item : α) (sibling : BinaryTree α)
 | right (item : α) (sibling : BinaryTree α)

def Frame.item : Frame α → α
 | .left item _ => item
 | .right item _ => item

def Frame.sibling : Frame α → BinaryTree α
 | .left _ sibling => sibling
 | .right _ sibling => sibling

def Frame.attach (tree : BinaryTree α) : Frame α → BinaryTree α
 | .left item sibling => .node item tree sibling
 | .right item sibling => .node item sibling tree

def plug : List (Frame α) → BinaryTree α → BinaryTree α
 | [], tree => tree
 | frame :: path, tree => plug path (frame.attach tree)

def itemsBefore : List (Frame α) → List α
 | [] => []
 | .left _ _ :: path => itemsBefore path
 | .right item sibling :: path => itemsBefore path ++ (inOrder sibling ++ [item])

def itemsAfter : List (Frame α) → List α
 | [] => []
 | .left item sibling :: path => item :: inOrder sibling ++ itemsAfter path
 | .right _ _ :: path => itemsAfter path

theorem inOrder_plug (path : List (Frame α)) (tree : BinaryTree α) :
 inOrder (plug path tree) = itemsBefore path ++ (inOrder tree ++ itemsAfter path) := by
 induction path generalizing tree with
 | nil => exact (append_nil _).symm
 | cons frame path ih =>
  rw [plug, ih]
  cases frame with
  | left item sibling =>
   simp only [Frame.attach, inOrder, itemsBefore, itemsAfter, append_assoc,
    cons_append]
  | right item sibling =>
   simp only [Frame.attach, inOrder, itemsBefore, itemsAfter, append_assoc,
    cons_append, nil_append]

theorem items_cons_perm (frame : Frame α) (path : List (Frame α)) :
 (itemsBefore (frame :: path) ++ itemsAfter (frame :: path)).Perm
  (frame.item :: (inOrder frame.sibling ++ (itemsBefore path ++ itemsAfter path))) := by
 cases frame with
 | left item sibling =>
  refine perm_middle.trans (List.Perm.cons item ?_)
  exact perm_append_comm_assoc _ _ _
 | right item sibling =>
  rw [itemsBefore, itemsAfter, append_assoc, append_assoc]
  refine (perm_append_comm_assoc _ _ _).trans ?_
  rw [← append_assoc]
  refine perm_middle.trans (List.Perm.cons item ?_)
  exact .of_eq (append_assoc _ _ _)

section

variable (path : List (Frame α))

theorem inOrder_plug_perm (tree : BinaryTree α) :
 (inOrder (plug path tree)).Perm (inOrder tree ++ (itemsBefore path ++ itemsAfter path)) := by
 rw [inOrder_plug]
 exact perm_append_comm_assoc _ _ _

theorem inOrder_only_left (item : α) (tree : BinaryTree α) :
 inOrder (plug path (.node item tree .nil)) =
  itemsBefore path ++ inOrder tree ++ item :: itemsAfter path := by
 rw [inOrder_plug, inOrder, inOrder, append_assoc, append_assoc]
 rfl

theorem unlink_sublist (item : α) (tree : BinaryTree α) :
 (inOrder (plug path tree)).Sublist (inOrder (plug path (.node item tree .nil))) := by
 rw [inOrder_only_left, inOrder_plug, ← append_assoc]
 exact (sublist_cons_self _ _).append_left _

theorem unlink_perm (item : α) (tree : BinaryTree α) :
 (inOrder (plug path (.node item tree .nil))).Perm (item :: inOrder (plug path tree)) := by
 rw [inOrder_only_left, inOrder_plug, ← append_assoc]
 exact perm_middle

end

variable {before after : List α} {item : α}

theorem cut_cases {left right : List α} {own : α}
 (cut : left ++ own :: right = before ++ item :: after) :
 (∃ between, left = before ++ item :: between ∧ after = between ++ own :: right) ∨
  (left = before ∧ own = item ∧ right = after) ∨
   ∃ between, before = left ++ own :: between ∧ right = between ++ item :: after := by
 induction left generalizing before with
 | nil =>
  cases before with
  | nil =>
   simp_all
  | cons first before =>
   simp_all
 | cons head left ih =>
  cases before with
  | nil =>
   simp_all
  | cons first before =>
   obtain ⟨rfl, behind⟩ := List.cons.inj cut
   rcases ih behind with ⟨between, front, back⟩ | ⟨front, same⟩ | ⟨between, front, back⟩
   · simp_all
   · exact .inr (.inl ⟨congrArg _ front, same⟩)
   · simp_all

theorem exists_plug_below {tree : BinaryTree α} (outer : List (Frame α))
 (cut : inOrder tree = before ++ item :: after) :
 ∃ path left right, plug path (.node item left right) = plug outer tree ∧
  itemsBefore path ++ inOrder left = itemsBefore outer ++ before ∧
   inOrder right ++ itemsAfter path = after ++ itemsAfter outer := by
 induction tree generalizing outer before after with
 | nil => cases (append_ne_nil_of_right_ne_nil _ (cons_ne_nil _ _)) cut.symm
 | node own left right ihLeft ihRight =>
  rcases cut_cases cut with ⟨between, front, back⟩ | ⟨rfl, rfl, rfl⟩ | ⟨between, front, back⟩
  · obtain ⟨path, below, below', same, same_before, same_after⟩ :=
     ihLeft (.left own right :: outer) front
    refine ⟨path, below, below', same, same_before, same_after.trans ?_⟩
    rw [back, itemsAfter, append_assoc, cons_append]
  · exact ⟨outer, left, right, rfl, rfl, rfl⟩
  · obtain ⟨path, below, below', same, same_before, same_after⟩ :=
     ihRight (.right own left :: outer) back
    refine ⟨path, below, below', same, same_before.trans ?_, same_after⟩
    rw [front, itemsBefore, append_assoc, append_assoc, singleton_append]

theorem exists_plug {tree : BinaryTree α} (cut : inOrder tree = before ++ item :: after) :
 ∃ path left right, plug path (.node item left right) = tree ∧
  itemsBefore path ++ inOrder left = before ∧ inOrder right ++ itemsAfter path = after := by
 obtain ⟨path, left, right, same, same_before, same_after⟩ := exists_plug_below [] cut
 exact ⟨path, left, right, same, same_before, same_after.trans (append_nil after)⟩

/-- The way down that ends below a leaf, or at an item where it stops. -/
def descend (stops goesLeft : α → Bool) :
 List (Frame α) → BinaryTree α → List (Frame α) × BinaryTree α
 | path, .nil => (path, .nil)
 | path, .node item left right =>
  if stops item then (path, .node item left right)
  else if goesLeft item then descend stops goesLeft (.left item right :: path) left
  else descend stops goesLeft (.right item left :: path) right

variable {stops goesLeft : α → Bool} {path : List (Frame α)} {tree : BinaryTree α}

theorem plug_descend : plug (descend stops goesLeft path tree).1
 (descend stops goesLeft path tree).2 = plug path tree := by
 induction tree generalizing path with
 | nil => rfl
 | node item left right ihLeft ihRight =>
  unfold descend
  split
  · rfl
  · split
    · exact ihLeft
    · exact ihRight

theorem descend_stops {left right : BinaryTree α}
 (found : (descend stops goesLeft path tree).2 = .node item left right) : stops item = true := by
 induction tree generalizing path with
 | nil => cases found
 | node own first second ihLeft ihRight =>
  unfold descend at found
  split at found
  · cases found
    assumption
  · split at found
    · exact ihLeft found
    · exact ihRight found

theorem descend_sides {order : α → α → Prop} {Before After : α → Prop}
 (ordered : IsSearchTree order tree)
 (turn_left : ∀ item, stops item = false → goesLeft item = true → After item)
 (turn_right : ∀ item, stops item = false → goesLeft item = false → Before item)
 (earlier : ∀ item other, order other item → Before item → Before other)
 (later : ∀ item other, order item other → After item → After other)
 (start : (∀ item ∈ itemsBefore path, Before item) ∧ ∀ item ∈ itemsAfter path, After item) :
 (∀ item ∈ itemsBefore (descend stops goesLeft path tree).1, Before item) ∧
  ∀ item ∈ itemsAfter (descend stops goesLeft path tree).1, After item := by
 induction tree generalizing path with
 | nil => exact start
 | node own left right ihLeft ihRight =>
  obtain ⟨smaller, larger, ordered_left, ordered_right⟩ := ordered
  unfold descend
  split
  · exact start
  · rename_i goes_on
    have goes_on : stops own = false := Bool.eq_false_iff.mpr goes_on
    split
    · rename_i turned
      have passed : After own := turn_left own goes_on turned
      refine ihLeft ordered_left ⟨start.1, fun item member => ?_⟩
      rcases mem_append.mp member with here | behind
      · rcases mem_cons.mp here with same | sibling
        · exact same ▸ passed
        · grind
      · exact start.2 item behind
    · rename_i turned
      have passed : Before own := turn_right own goes_on (Bool.eq_false_iff.mpr turned)
      refine ihRight ordered_right ⟨fun item member => ?_, start.2⟩
      rcases mem_append.mp member with front | here
      · exact start.1 item front
      · rcases mem_append.mp here with sibling | same
        · grind
        · exact mem_singleton.mp same ▸ passed

end MyNotes.Library.TreePath
