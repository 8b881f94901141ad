/-
Finite maps as lists of entries in the order of their keys.

With increasing keys a map is determined by what it finds.
-/

import Mathlib.Data.List.Basic
import Mathlib.Order.Lattice

namespace MyNotes.Library.OrderedMap

open List

variable {Key Item : Type*} [LinearOrder Key]

def Increasing (entries : List (Key × Item)) : Prop :=
 entries.Pairwise fun left right => left.1 < right.1

def find (key : Key) : List (Key × Item) → Option Item
 | [] => none
 | (head, item) :: rest => if head = key then some item else find key rest

def insert (key : Key) (item : Item) : List (Key × Item) → List (Key × Item)
 | [] => [(key, item)]
 | (head, other) :: rest =>
  if key < head then (key, item) :: (head, other) :: rest
  else if head = key then (key, item) :: rest
  else (head, other) :: insert key item rest

def erase (key : Key) (entries : List (Key × Item)) : List (Key × Item) :=
 entries.filter fun entry => entry.1 ≠ key

variable {key other : Key} {item : Item} {entries others : List (Key × Item)}

theorem mem_of_find (found : find key entries = some item) : (key, item) ∈ entries := by
 induction entries with
 | nil => cases found
 | cons entry rest ih =>
  unfold find at found
  split at found
  · grind
  · exact mem_cons_of_mem _ (ih found)

theorem find_eq_none : find key entries = none ↔ ∀ entry ∈ entries, entry.1 ≠ key := by
 induction entries with
 | nil => exact iff_of_true rfl fun _ member => absurd member not_mem_nil
 | cons entry rest ih =>
  unfold find
  rw [forall_mem_cons]
  split
  · simp_all
  · simp_all

theorem find_of_mem (increasing : Increasing entries) (member : (key, item) ∈ entries) :
 find key entries = some item := by
 induction entries with
 | nil => cases member
 | cons entry rest ih =>
  obtain ⟨above, ordered⟩ := pairwise_cons.mp increasing
  unfold find
  rcases mem_cons.mp member with same | later
  · rw [← same]
    exact if_pos rfl
  · rw [if_neg (ne_of_lt (above _ later))]
    exact ih ordered later

theorem find_insert : find other (insert key item entries) =
 if other = key then some item else find other entries := by
 induction entries with
 | nil =>
  unfold insert find
  by_cases same : other = key
  · rw [if_pos same, if_pos same.symm]
  · exact (if_neg (Ne.symm same)).trans (if_neg same).symm
 | cons entry rest ih =>
  obtain ⟨head, held⟩ := entry
  unfold insert
  by_cases same : other = key
  · subst same
    rw [if_pos rfl] at ih ⊢
    split
    · exact if_pos rfl
    · split
      · exact if_pos rfl
      · rename_i different
        exact (if_neg different).trans ih
  · rw [if_neg same] at ih ⊢
    split
    · exact if_neg (Ne.symm same)
    · split
      · rename_i atHead
        have elsewhere : head ≠ other := fun equal => same (equal.symm.trans atHead)
        exact (if_neg (Ne.symm same)).trans (if_neg elsewhere).symm
      · by_cases atHead : head = other
        · exact (if_pos atHead).trans (if_pos atHead).symm
        · exact ((if_neg atHead).trans ih).trans (if_neg atHead).symm

theorem find_erase : find other (erase key entries) =
 if other = key then none else find other entries := by
 by_cases same : other = key
 · rw [if_pos same, same]
   apply find_eq_none.mpr
   intro entry member
   exact of_decide_eq_true (mem_filter.mp member).2
 · rw [if_neg same]
   unfold erase
   induction entries with
   | nil => rfl
   | cons entry rest ih =>
    obtain ⟨head, held⟩ := entry
    by_cases atKey : head = key
    · have elsewhere : head ≠ other := fun equal => same (equal.symm.trans atKey)
      rw [filter_cons_of_neg (by simpa using atKey), ih]
      exact (if_neg elsewhere).symm
    · rw [filter_cons_of_pos (by simpa using atKey)]
      unfold find
      rw [ih]

theorem mem_insert {entry : Key × Item} (member : entry ∈ insert key item entries) :
 entry = (key, item) ∨ entry ∈ entries := by
 induction entries with
 | nil => exact .inl (mem_singleton.mp member)
 | cons head rest ih =>
  unfold insert at member
  split at member
  · exact mem_cons.mp member
  · split at member
    · grind
    · rcases mem_cons.mp member with here | later
      · exact .inr (here ▸ mem_cons_self)
      · grind

theorem insert_ne_nil : insert key item entries ≠ [] := by
 cases entries with
 | nil => exact cons_ne_nil _ _
 | cons head rest =>
  unfold insert
  split
  · exact cons_ne_nil _ _
  · split <;> exact cons_ne_nil _ _

theorem insert_increasing (increasing : Increasing entries) :
 Increasing (insert key item entries) := by
 induction entries with
 | nil => exact pairwise_singleton _ _
 | cons head rest ih =>
  obtain ⟨above, ordered⟩ := pairwise_cons.mp increasing
  unfold insert
  split
  · rename_i first
    refine pairwise_cons.mpr ⟨?_, increasing⟩
    intro entry member
    rcases mem_cons.mp member with same | later
    · exact same ▸ first
    · exact lt_trans first (above entry later)
  · split
    · rename_i same
      exact pairwise_cons.mpr ⟨fun entry member => same ▸ above entry member, ordered⟩
    · rename_i notBelow different
      have after : head.1 < key := lt_of_le_of_ne (not_lt.mp notBelow) different
      refine pairwise_cons.mpr ⟨?_, ih ordered⟩
      intro entry member
      rcases mem_insert member with same | old
      · exact same ▸ after
      · exact above entry old

theorem erase_increasing (increasing : Increasing entries) : Increasing (erase key entries) :=
 increasing.sublist filter_sublist

theorem mem_of_mem_erase {entry : Key × Item} (member : entry ∈ erase key entries) :
 entry ∈ entries := mem_of_mem_filter member

theorem eq_of_find (increasing : Increasing entries) (ordered : Increasing others)
 (same : ∀ key, find key entries = find key others) : entries = others := by
 have subset {left right : List (Key × Item)} (leftIncreasing : Increasing left)
  (agree : ∀ key, find key left = find key right) : left ⊆ right := by
  intro entry member
  apply mem_of_find
  rw [← agree entry.1]
  exact find_of_mem leftIncreasing member
 refine List.Perm.eq_of_pairwise ?_ increasing ordered ?_
 · grind
 · have nodup {left : List (Key × Item)} (leftIncreasing : Increasing left) : left.Nodup :=
    leftIncreasing.imp fun below equal => absurd (equal ▸ below) (lt_irrefl _)
   exact (perm_ext_iff_of_nodup (nodup increasing) (nodup ordered)).mpr fun entry =>
    ⟨fun member => subset increasing same member,
     fun member => subset ordered (fun key => (same key).symm) member⟩

end MyNotes.Library.OrderedMap
