/-
Lists that are rearranged within a range of places.
-/

import Mathlib.Data.List.Basic

namespace MyNotes.Library.Slice

open List

variable {α : Type*}

/-- The items from the first place up to the last, which is left out. -/
def slice (items : List α) (first last : ℕ) : List α := (items.take last).drop first

structure Rearranged (first last : ℕ) (items other : List α) : Prop where
 perm : other.Perm items
 before : other.take first = items.take first
 behind : other.drop last = items.drop last

variable {items other another : List α} {first middle last first' last' place place' : ℕ} {item : α}

theorem mem_slice : item ∈ slice items first last ↔
 ∃ place, first ≤ place ∧ place < last ∧ items[place]? = some item := by
 rw [slice, mem_iff_getElem?]
 constructor
 · rintro ⟨index, here⟩
   rw [getElem?_drop, getElem?_take] at here
   split at here
   · grind
   · cases here
 · rintro ⟨place, after, before, here⟩
   refine ⟨place - first, ?_⟩
   simp_all

theorem take_append_slice (lower : first ≤ last) :
 items.take first ++ slice items first last = items.take last := by
 rw [slice]
 conv_rhs => rw [← take_append_drop first (items.take last)]
 rw [take_take, Nat.min_eq_left lower]

theorem slice_append (lower : first ≤ middle) (upper : middle ≤ last) :
 slice items first middle ++ slice items middle last = slice items first last := by
 have whole : items.take first ++ (slice items first middle ++ slice items middle last) =
  items.take first ++ slice items first last := by
  rw [← append_assoc, take_append_slice lower, take_append_slice upper,
   take_append_slice (Nat.le_trans lower upper)]
 exact append_cancel_left whole

theorem slice_cons (lower : first < last) (here : items[first]? = some item) :
 slice items first last = item :: slice items (first + 1) last := by
 obtain ⟨inside, same⟩ := List.getElem?_eq_some_iff.mp here
 rw [slice, slice, drop_eq_getElem_cons, getElem_take, same]
 grind

theorem take_slice_drop (items : List α) (lower : first ≤ last) :
 items.take first ++ (slice items first last ++ items.drop last) = items := by
 rw [← append_assoc, take_append_slice lower, take_append_drop]

theorem Rearranged.refl (first last : ℕ) (items : List α) : Rearranged first last items items :=
 ⟨List.Perm.refl _, rfl, rfl⟩

theorem Rearranged.trans (once : Rearranged first last items other)
 (again : Rearranged first last other another) : Rearranged first last items another :=
 ⟨again.perm.trans once.perm, again.before.trans once.before, again.behind.trans once.behind⟩

theorem Rearranged.take_eq (rearranged : Rearranged first last items other)
 (lower : middle ≤ first) : other.take middle = items.take middle := by
 have same := congrArg (take middle) rearranged.before
 grind

theorem Rearranged.drop_eq (rearranged : Rearranged first last items other)
 (upper : last ≤ middle) : other.drop middle = items.drop middle := by
 have same := congrArg (drop (middle - last)) rearranged.behind
 simp_all

theorem Rearranged.widen (rearranged : Rearranged first' last' items other)
 (lower : first ≤ first') (upper : last' ≤ last) : Rearranged first last items other :=
 ⟨rearranged.perm, rearranged.take_eq lower, rearranged.drop_eq upper⟩

section

variable (rearranged : Rearranged first last items other)
include rearranged

theorem Rearranged.length_eq :
 other.length = items.length := rearranged.perm.length_eq

theorem Rearranged.slice_before (lower : place' ≤ first) :
 slice other place place' = slice items place place' := by
 rw [slice, slice, rearranged.take_eq lower]

theorem Rearranged.slice_behind (upper : last ≤ place) :
 slice other place place' = slice items place place' := by
 rw [slice, slice, drop_take, drop_take, rearranged.drop_eq upper]

theorem Rearranged.getElem?_before (lower : place < first) : other[place]? = items[place]? := by
 rw [← getElem?_take_of_lt lower, rearranged.before, getElem?_take_of_lt lower]

theorem Rearranged.getElem?_behind (upper : last ≤ place) : other[place]? = items[place]? := by
 have same := congrArg (fun rest => rest[place - last]?) rearranged.behind
 simp_all

theorem Rearranged.slice_perm (lower : first ≤ last) :
 (slice other first last).Perm (slice items first last) := by
 have whole := rearranged.perm
 rw [← take_slice_drop other lower, ← take_slice_drop items lower,
  rearranged.before, rearranged.behind] at whole
 exact (perm_append_right_iff _).mp ((perm_append_left_iff _).mp whole)

end

theorem rearranged_swap {second : α} (here : items[place]? = some item)
 (there : items[place']? = some second) (inside : first ≤ place ∧ place < last)
 (inside' : first ≤ place' ∧ place' < last) :
 Rearranged first last items ((items.set place second).set place' item) := by
 obtain ⟨valid, rfl⟩ := List.getElem?_eq_some_iff.mp here
 obtain ⟨valid', rfl⟩ := List.getElem?_eq_some_iff.mp there
 refine ⟨set_set_perm valid valid', ?_, ?_⟩
 · rw [take_set_of_le inside'.1, take_set_of_le inside.1]
 · rw [drop_set_of_lt inside'.2, drop_set_of_lt inside.2]

theorem rearranged_hole (item : α) {second : α} (valid : place < items.length)
 (there : items[place']? = some second) (inside : first ≤ place ∧ place < last)
 (inside' : first ≤ place' ∧ place' < last) :
 Rearranged first last (items.set place item) ((items.set place second).set place' item) := by
 by_cases same : place = place'
 · subst same
   rw [set_set]
   exact .refl _ _ _
 · have here : (items.set place item)[place]? = some item := getElem?_set_self valid
   have other : (items.set place item)[place']? = some second :=
    (getElem?_set_ne same).trans there
   have swapped := rearranged_swap here other inside inside'
   rwa [set_set] at swapped

end MyNotes.Library.Slice
