/-
Counting in lists without duplicates.

A component that keeps a counter next to a list changes one item at a time; these
lemmas say how the count over the list follows.
-/

import Mathlib.Data.List.Nodup

namespace MyNotes.Library.NodupList

variable {α : Type*}

variable {item : α}

theorem countP_erase_add [DecidableEq α] (items : List α) (test : α → Bool) (member : item ∈ items)
 :
 (items.erase item).countP test + (test item).toNat = items.countP test := by
 rw [(List.perm_cons_erase member).countP_eq test, List.countP_cons]
 cases test item <;> rfl

variable {items : List α}

theorem countP_congr_of_not_mem {before after : α → Bool} (absent : item ∉ items)
 (agree : ∀ other, other ≠ item → after other = before other) :
 items.countP after = items.countP before := by
 refine List.countP_congr fun other member => ?_
 grind

theorem countP_update [DecidableEq α] (nodup : items.Nodup) (before after : α → Bool)
 (member : item ∈ items) (agree : ∀ other, other ≠ item → after other = before other) :
 items.countP after + (before item).toNat = items.countP before + (after item).toNat := by
 have old := countP_erase_add items before member
 have new := countP_erase_add items after member
 have rest := countP_congr_of_not_mem (nodup.not_mem_erase) agree
 omega

theorem countP_eq_length {selected : List α} (nodup : items.Nodup) (selectedNodup : selected.Nodup)
 {test : α → Bool} (same : ∀ item, item ∈ selected ↔ item ∈ items ∧ test item = true) :
 items.countP test = selected.length := by
 rw [List.countP_eq_length_filter]
 refine List.Perm.length_eq ((List.perm_ext_iff_of_nodup (nodup.filter _) selectedNodup).mpr ?_)
 intro item
 rw [List.mem_filter, same]

end MyNotes.Library.NodupList
