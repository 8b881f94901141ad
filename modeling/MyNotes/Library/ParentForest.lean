/-
Forests that are given by the parent of each element.

A root is its own parent.  The forest comes with the root of each element and with a
measure that grows towards the roots, such as a rank or a size, so that every walk
towards a root ends.  The two changes of a union-find structure are here: an element
is hung below its root, and a root is hung below another.
-/

import Mathlib.Data.Set.Card

namespace MyNotes.Library.ParentForest

open Relation Function Finset

variable {ι : Type*}

structure Forest (parent root : ι → ι) (measure : ι → ℕ) : Prop where
 root_parent : ∀ x, root (parent x) = root x
 parent_root : ∀ x, parent (root x) = root x
 root_self : ∀ x, parent x = x → root x = x
 increases : ∀ x, parent x ≠ x → measure x < measure (parent x)

variable {parent root : ι → ι} {measure : ι → ℕ}

theorem Forest.initial (measure : ι → ℕ) : Forest id id measure where
 root_parent _ := rfl
 parent_root _ := rfl
 root_self _ _ := rfl
 increases _ moves := absurd rfl moves

namespace Forest

theorem root_root (forest : Forest parent root measure) (x : ι) : root (root x) = root x :=
 forest.root_self _ (forest.parent_root x)

variable {x : ι}

theorem parent_eq_iff (forest : Forest parent root measure) :
 parent x = x ↔ root x = x := by
 refine ⟨forest.root_self x, ?_⟩
 intro own
 rw [← own]
 exact forest.parent_root x

theorem root_iterate (forest : Forest parent root measure) (x : ι) (k : ℕ) :
 root (parent^[k] x) = root x := by
 induction k with
 | zero => rfl
 | succ k ih => rw [iterate_succ_apply', forest.root_parent, ih]

/-! ### Walks end -/

section Finite

variable [Fintype ι]

/-- The elements of larger measure: a walk can still visit these. -/
def above (measure : ι → ℕ) (x : ι) : Finset ι :=
 Finset.univ.filter fun y => measure x < measure y

theorem card_above_lt {y : ι} (less : measure x < measure y) :
 (above measure y).card < (above measure x).card := by
 apply card_lt_card
 refine Finset.ssubset_iff_subset_ne.mpr ⟨?_, ?_⟩
 · intro z member
   have larger := (Finset.mem_filter.mp member).2
   exact mem_filter.mpr ⟨mem_univ z, less.trans larger⟩
 · intro same
   have member : y ∈ above measure x := mem_filter.mpr ⟨mem_univ y, less⟩
   rw [← same] at member
   exact lt_irrefl _ (mem_filter.mp member).2

theorem card_above_lt_card (x : ι) : (above measure x).card < Fintype.card ι := by
 apply card_lt_card
 refine Finset.ssubset_iff_subset_ne.mpr ⟨Finset.subset_univ _, ?_⟩
 intro same
 have member : x ∈ above measure x := by
  rw [same]
  exact mem_univ x
 exact lt_irrefl _ (mem_filter.mp member).2

section

variable (forest : Forest parent root measure)
include forest

theorem exists_walk (x : ι) : ∃ k, parent^[k] x = root x ∧ measure x + k ≤ measure (root x) := by
 induction size : (above measure x).card using Nat.strongRecOn generalizing x with
 | ind size ih =>
  by_cases top : parent x = x
  · refine ⟨0, ?_, ?_⟩
    · exact (forest.root_self x top).symm
    · rw [forest.root_self x top]
      exact le_rfl
  · have less := forest.increases x top
    obtain ⟨k, walk, bound⟩ := ih _ (size ▸ card_above_lt less) (parent x) rfl
    rw [forest.root_parent] at walk bound
    refine ⟨k + 1, ?_, by omega⟩
    rw [iterate_succ_apply]
    exact walk

theorem measure_lt_root (below : root x ≠ x) : measure x < measure (root x) := by
 obtain ⟨k, walk, bound⟩ := forest.exists_walk x
 cases k with
 | zero => exact absurd walk.symm below
 | succ k => omega

theorem root_eq_iff {r : ι} : root x = r ↔ parent r = r ∧ ∃ k, parent^[k] x = r := by
 constructor
 · intro same
   obtain ⟨k, walk, -⟩ := forest.exists_walk x
   rw [← same]
   exact ⟨forest.parent_root x, k, walk⟩
 · intro ⟨top, k, walk⟩
   rw [← forest.root_iterate x k, walk]
   exact forest.root_self r top

end

/-! ### The two changes -/

variable [DecidableEq ι]

theorem compress (forest : Forest parent root measure) (x : ι) :
 Forest (update parent x (root x)) root measure where
 root_parent := by
  intro z
  rw [update_apply]
  split
  · rename_i same
    rw [same, forest.root_root]
  · exact forest.root_parent z
 parent_root := by
  intro z
  rw [update_apply]
  split
  · rename_i same
    rw [← same, forest.root_root]
  · exact forest.parent_root z
 root_self := by
  intro z
  rw [update_apply]
  split
  · rename_i same
    rw [same]
    exact id
  · exact forest.root_self z
 increases := by
  intro z
  rw [update_apply]
  split
  · rename_i same
    rw [same]
    exact forest.measure_lt_root
  · exact forest.increases z

end Finite

variable [DecidableEq ι]

/-- The roots after `b` is hung below `a`. -/
def joined (root : ι → ι) (a b : ι) : ι → ι := fun x => if root x = b then a else root x

theorem link (forest : Forest parent root measure) {a b : ι} {newMeasure : ι → ℕ}
 (top : root a = a) (other : root b = b) (different : a ≠ b)
 (same : ∀ x, x ≠ a → newMeasure x = measure x) (grows : measure a ≤ newMeasure a)
 (larger : measure b < newMeasure a) :
 Forest (update parent b a) (joined root a b) newMeasure where
 root_parent := by
  intro x
  unfold joined
  rw [update_apply]
  split
  · simp_all
  · rw [forest.root_parent]
 parent_root := by
  intro x
  unfold joined
  split
  · rw [update_of_ne different, forest.parent_eq_iff.mpr top]
  · rename_i elsewhere
    rw [update_of_ne elsewhere, forest.parent_root]
 root_self := by
  intro x
  unfold joined
  rw [update_apply]
  split
  · simp_all
  · rename_i elsewhere
    intro own
    rw [forest.root_self x own, if_neg elsewhere]
 increases := by
  intro x
  rw [update_apply]
  split
  · grind
  · intro moves
    have notTop : x ≠ a := by
     intro atUpper
     rw [atUpper] at moves
     exact moves (forest.parent_eq_iff.mpr top)
    have step := forest.increases x moves
    rw [same x notTop]
    by_cases below : parent x = a
    · grind
    · rw [same _ below]
      exact step

end Forest

/-! ### The partition into trees -/

/-- Two elements have one root exactly when the pairs relate them. -/
def Represents (root : ι → ι) (pairs : ι → ι → Prop) : Prop :=
 ∀ x y, root x = root y ↔ EqvGen pairs x y

def withPair (pairs : ι → ι → Prop) (a b : ι) : ι → ι → Prop :=
 fun x y => (x = a ∧ y = b) ∨ pairs x y

variable {pairs : ι → ι → Prop}

theorem Represents.initial : Represents (id : ι → ι) fun _ _ => False := by
 intro x y
 constructor
 · intro same
   cases same
   exact .refl _
 · intro related
   induction related with
   | rel _ _ impossible => exact impossible.elim
   | refl _ => rfl
   | symm _ _ _ ih => exact ih.symm
   | trans _ _ _ _ _ first second => exact first.trans second

theorem Represents.known (represents : Represents root pairs) {x y : ι} (same : root x = root y) :
 Represents root (withPair pairs x y) := by
 intro z w
 constructor
 · intro together
   exact EqvGen.mono (fun _ _ => Or.inr) _ _ ((represents z w).mp together)
 · intro related
   induction related with
   | rel first second either =>
    rcases either with ⟨isX, isY⟩ | old
    · rw [isX, isY, same]
    · exact (represents first second).mpr (.rel _ _ old)
   | refl _ => rfl
   | symm _ _ _ ih => exact ih.symm
   | trans _ _ _ _ _ first second => exact first.trans second

variable [DecidableEq ι]

theorem Represents.join (represents : Represents root pairs) {x y a b : ι}
 (roots : (a = root x ∧ b = root y) ∨ (a = root y ∧ b = root x)) :
 Represents (Forest.joined root a b) (withPair pairs x y) := by
 have wider : ∀ {z w}, root z = root w → EqvGen (withPair pairs x y) z w := fun same =>
  EqvGen.mono (fun _ _ => Or.inr) _ _ ((represents _ _).mp same)
 have pair : EqvGen (withPair pairs x y) x y := .rel _ _ (Or.inl ⟨rfl, rfl⟩)
 -- Elements of the two old trees are related through the new pair.
 have across : ∀ {z w}, root z = a → root w = b → EqvGen (withPair pairs x y) z w := by
  intro z w first second
  rcases roots with ⟨isA, isB⟩ | ⟨isA, isB⟩
  · exact .trans _ _ _ (wider (first.trans isA))
     (.trans _ _ _ pair (wider (second.trans isB).symm))
  · exact .trans _ _ _ (wider (first.trans isA))
     (.trans _ _ _ (.symm _ _ pair) (wider (second.trans isB).symm))
 intro z w
 constructor
 · unfold Forest.joined
   intro same
   by_cases first : root z = b
   · rw [if_pos first] at same
     by_cases second : root w = b
     · exact wider (first.trans second.symm)
     · rw [if_neg second] at same
       exact .symm _ _ (across same.symm first)
   · rw [if_neg first] at same
     by_cases second : root w = b
     · simp_all
     · simp_all
 · intro related
   unfold Forest.joined
   induction related with
   | rel first second either =>
    rcases either with ⟨isX, isY⟩ | old
    · rw [isX, isY]
      rcases roots with ⟨isA, isB⟩ | ⟨isA, isB⟩
      · simp_all
      · simp_all
    · rw [(represents first second).mpr (.rel _ _ old)]
   | refl _ => rfl
   | symm _ _ _ ih => exact ih.symm
   | trans _ _ _ _ _ first second => exact first.trans second

/-! ### Counting trees and their elements -/

section Counting

variable [Fintype ι]

def roots (root : ι → ι) : Finset ι := Finset.univ.filter fun x => root x = x

def tree (root : ι → ι) (r : ι) : Finset ι := Finset.univ.filter fun x => root x = r

theorem mem_roots {x : ι} : x ∈ roots root ↔ root x = x := by
 unfold roots
 simp

variable {r : ι}

theorem mem_tree {x : ι} : x ∈ tree root r ↔ root x = r := by
 unfold tree
 simp

theorem tree_nonempty (top : root r = r) : 0 < (tree root r).card :=
 card_pos.mpr ⟨r, mem_tree.mpr top⟩

theorem card_roots_initial : (roots (id : ι → ι)).card = Fintype.card ι := by
 rw [← card_univ]
 congr 1
 ext x
 exact mem_roots.trans (iff_of_true rfl (mem_univ x))

theorem card_tree_initial (r : ι) : (tree (id : ι → ι) r).card = 1 := by
 rw [card_eq_one]
 refine ⟨r, ?_⟩
 ext x
 rw [mem_tree, mem_singleton]
 rfl

omit [DecidableEq ι] [Fintype ι] in
def Represents.classesEquiv (represents : Represents root pairs)
 (idempotent : ∀ x, root (root x) = root x) :
 Quotient (EqvGen.setoid pairs) ≃ {x // root x = x} where
 toFun := Quotient.lift (fun x => ⟨root x, idempotent x⟩) fun x y related =>
  Subtype.ext ((represents x y).mpr related)
 invFun x := Quotient.mk _ x.1
 left_inv := by
  intro place
  induction place using Quotient.inductionOn with
  | h x => exact Quotient.sound ((represents _ x).mp (idempotent x))
 right_inv x := Subtype.ext x.2

theorem Represents.card_classes (represents : Represents root pairs)
 (idempotent : ∀ x, root (root x) = root x) :
 Nat.card (Quotient (EqvGen.setoid pairs)) = (roots root).card := by
 rw [Nat.card_congr (represents.classesEquiv idempotent)]
 exact Nat.subtype_card (roots root) fun _ => mem_roots

theorem Represents.ncard_class (represents : Represents root pairs) (top : root r = r) :
 {x | EqvGen pairs x r}.ncard = (tree root r).card := by
 rw [← Set.ncard_coe_finset]
 congr 1
 ext x
 rw [Set.mem_ofPred_eq, mem_coe, mem_tree, ← represents, top]

variable {a b : ι}

theorem roots_joined (top : root a = a) (different : a ≠ b) :
 roots (Forest.joined root a b) = (roots root).erase b := by
 ext x
 rw [mem_roots, mem_erase, mem_roots]
 unfold Forest.joined
 split
 · rename_i lower
   constructor
   · grind
   · grind
 · rename_i elsewhere
   constructor
   · grind
   · exact And.right

theorem card_roots_joined (top : root a = a) (other : root b = b) (different : a ≠ b) :
 (roots (Forest.joined root a b)).card + 1 = (roots root).card := by
 rw [roots_joined top different]
 exact card_erase_add_one (mem_roots.mpr other)

theorem card_tree_joined (different : a ≠ b) :
 (tree (Forest.joined root a b) a).card = (tree root a).card + (tree root b).card := by
 rw [← card_union_of_disjoint]
 · congr 1
   ext x
   rw [mem_tree, mem_union, mem_tree, mem_tree]
   unfold Forest.joined
   split
   · simp_all
   · simp_all
 · rw [disjoint_left]
   intro x first second
   exact different ((mem_tree.mp first).symm.trans (mem_tree.mp second))

theorem tree_joined_of_ne (notTop : r ≠ a) (notLower : r ≠ b) :
 tree (Forest.joined root a b) r = tree root r := by
 ext x
 rw [mem_tree, mem_tree]
 unfold Forest.joined
 split
 · grind
 · exact Iff.rfl

end Counting

end MyNotes.Library.ParentForest
