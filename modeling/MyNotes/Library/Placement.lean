/-
Items that are kept in places, each in one place and once in it.
-/

import Mathlib.Data.List.Nodup

namespace MyNotes.Library.Placement

open Function

variable {Place Item : Type*}

structure Placed (items : Item → Prop) (contents : Place → List Item) : Prop where
 nodup : ∀ place, (contents place).Nodup
 known : ∀ place, ∀ item ∈ contents place, items item
 one : ∀ item, items item → ∃! place, item ∈ contents place

variable {items : Item → Prop} {contents : Place → List Item}

variable {item : Item}

variable (placed : Placed items contents)
include placed

theorem Placed.same {left right : Place} (inLeft : item ∈ contents left)
 (inRight : item ∈ contents right) : left = right :=
 (placed.one item (placed.known left item inLeft)).unique inLeft inRight

theorem Placed.add [DecidableEq Place] {target : Place} {new : List Item} (fresh : ¬ items item)
 (put : new.Perm (item :: contents target)) :
 Placed (fun other => items other ∨ other = item) (update contents target new) := by
 have nowhere (place : Place) : item ∉ contents place :=
  fun inside => fresh (placed.known place item inside)
 have atItem (place : Place) : item ∈ update contents target new place ↔
  place = target := by
  by_cases there : place = target
  · grind
  · simp_all
 have others {other : Item} (distinct : other ≠ item) (place : Place) :
  other ∈ update contents target new place ↔ other ∈ contents place := by
  by_cases there : place = target
  · grind
  · rw [update_of_ne there]
 refine ⟨fun place => ?_, fun place other member => ?_, fun other isItem => ?_⟩
 · by_cases there : place = target
   · rw [there, update_self, put.nodup_iff]
     exact List.nodup_cons.mpr ⟨nowhere target, placed.nodup target⟩
   · rw [update_of_ne there]
     exact placed.nodup place
 · by_cases same : other = item
   · exact .inr same
   · exact .inl (placed.known place other ((others same place).mp member))
 · by_cases same : other = item
   · simp_all
   · simp only [others same]
     exact placed.one other (isItem.resolve_right same)

theorem Placed.move [DecidableEq Place] {source target : Place} {rest new : List Item}
 (different : source ≠ target) (taken : (contents source).Perm (item :: rest))
 (put : new.Perm (item :: contents target)) :
 Placed items (update (update contents source rest) target new) := by
 have inSource : item ∈ contents source := taken.mem_iff.mpr List.mem_cons_self
 have nodupSource : (item :: rest).Nodup := taken.nodup_iff.mp (placed.nodup source)
 have notTarget : item ∉ contents target := fun inTarget =>
  different (placed.same inSource inTarget)
 have atTarget : update (update contents source rest) target new target = new :=
  update_self _ _ _
 have elsewhere {place : Place} (notThere : place ≠ target) (notHere : place ≠ source) :
  update (update contents source rest) target new place =
   contents place := by
  rw [update_of_ne notThere, update_of_ne notHere]
 have moved (place : Place) :
  item ∈ update (update contents source rest) target new place ↔
   place = target := by
  by_cases there : place = target
  · grind
  · refine iff_of_false ?_ there
    by_cases here : place = source
    · simp_all
    · rw [elsewhere there here]
      exact fun inside => here (placed.same inside inSource)
 have others {other : Item} (distinct : other ≠ item) (place : Place) :
  other ∈ update (update contents source rest) target new place ↔
   other ∈ contents place := by
  by_cases there : place = target
  · grind
  · by_cases here : place = source
    · grind
    · rw [elsewhere there here]
 refine ⟨fun place => ?_, fun place other member => ?_, fun other isItem => ?_⟩
 · by_cases there : place = target
   · subst there
     rw [atTarget, put.nodup_iff]
     exact List.nodup_cons.mpr ⟨notTarget, placed.nodup place⟩
   · by_cases here : place = source
     · simp_all
     · rw [elsewhere there here]
       exact placed.nodup place
 · by_cases same : other = item
   · rw [same]
     exact placed.known source item inSource
   · exact placed.known place other ((others same place).mp member)
 · by_cases same : other = item
   · simp_all
   · simp only [others same]
     exact placed.one other isItem

end MyNotes.Library.Placement
