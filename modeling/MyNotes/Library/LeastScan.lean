/-
Loops over the places of an array.
-/

import Mathlib.Data.List.FinRange

namespace MyNotes.Library.LeastScan

open Function List

variable {n : ℕ} {α β : Type*}

theorem foldl_update (change : Fin n → β → β) (array : Fin n → β) :
 (List.finRange n).foldl (fun array j => update array j (change j (array j))) array =
  fun j => change j (array j) := by
 have part : ∀ (places : List (Fin n)) (array : Fin n → β), places.Nodup → ∀ j,
  places.foldl (fun array j => update array j (change j (array j))) array j =
   if j ∈ places then change j (array j) else array j := by
  intro places
  induction places with
  | nil => intro array _ j; rfl
  | cons place places ih =>
   intro array apart j
   obtain ⟨new, apart⟩ := nodup_cons.mp apart
   rw [foldl_cons, ih _ apart]
   by_cases same : j = place
   · simp_all
   · simp_all
 funext j
 rw [part _ array (nodup_finRange n), if_pos (mem_finRange j)]

variable [LinearOrder α] {free : Fin n → Bool} {value : Fin n → α} {best : α × Option (Fin n)}

def better (free : Fin n → Bool) (value : Fin n → α) (best : α × Option (Fin n)) (j : Fin n) :
 α × Option (Fin n) := if free j ∧ value j < best.1 then (value j, some j) else best

/-- The first of the free places with the least value, where that is less than the one before. -/
def leastScan (free : Fin n → Bool) (value : Fin n → α) (best : α × Option (Fin n)) :
 α × Option (Fin n) := (List.finRange n).foldl (better free value) best

theorem better_le (free : Fin n → Bool) (value : Fin n → α) (best : α × Option (Fin n))
 (j : Fin n) : (better free value best j).1 ≤ best.1 := by
 rw [better]
 split
 · rename_i less
   exact less.2.le
 · exact le_rfl

variable {j : Fin n}

theorem better_le_value (isFree : free j) :
 (better free value best j).1 ≤ value j := by
 rw [better]
 split
 · exact le_rfl
 · simp_all

/-- The result is the pair before the scan, or a free place with a value that is less. -/
def Found (free : Fin n → Bool) (value : Fin n → α) (best now : α × Option (Fin n)) : Prop :=
 now = best ∨ ∃ j, free j ∧ value j < best.1 ∧ now = (value j, some j)

theorem better_found (j : Fin n) : Found free value best (better free value best j) := by
 rw [better]
 split
 · rename_i less
   exact .inr ⟨j, less.1, less.2, rfl⟩
 · exact .inl rfl

theorem foldl_better (free : Fin n → Bool) (value : Fin n → α) (places : List (Fin n))
 (best : α × Option (Fin n)) :
 (∀ j ∈ places, free j → (places.foldl (better free value) best).1 ≤ value j) ∧
  (places.foldl (better free value) best).1 ≤ best.1 ∧
  Found free value best (places.foldl (better free value) best) := by
 induction places generalizing best with
 | nil => exact ⟨nofun, le_rfl, .inl rfl⟩
 | cons place places ih =>
  obtain ⟨least, below, found⟩ := ih (better free value best place)
  have first := better_le free value best place
  refine ⟨?_, below.trans first, ?_⟩
  · intro j among isFree
    rcases mem_cons.mp among with rfl | later
    · exact below.trans (better_le_value isFree)
    · exact least j later isFree
  · rw [foldl_cons]
    rcases found with same | ⟨j, isFree, less, same⟩
    · rw [same]
      exact better_found place
    · exact .inr ⟨j, isFree, less.trans_le first, same⟩

theorem leastScan_le (isFree : free j) : (leastScan free value best).1 ≤ value j :=
 (foldl_better free value (List.finRange n) best).1 j (mem_finRange j) isFree

theorem leastScan_found (free : Fin n → Bool) (value : Fin n → α) (best : α × Option (Fin n)) :
 Found free value best (leastScan free value best) :=
 (foldl_better free value (List.finRange n) best).2.2

theorem exists_leastScan (free : Fin n → Bool) (value : Fin n → α) (best : α × Option (Fin n))
 (isFree : free j) (less : value j < best.1) :
 ∃ k, free k ∧ leastScan free value best = (value k, some k) ∧
  ∀ other, free other → value k ≤ value other := by
 have least : ∀ other, free other → (leastScan free value best).1 ≤ value other :=
  fun other isFree => leastScan_le isFree
 rcases leastScan_found free value best with same | found
 · grind
 · grind

theorem leastScan_eq (free : Fin n → Bool) (value : Fin n → α) (best : α × Option (Fin n))
 (none : ∀ j, free j → ¬ value j < best.1) : leastScan free value best = best := by
 rcases leastScan_found free value best with same | found
 · exact same
 · grind

end MyNotes.Library.LeastScan
