/-
How many threads stand at certain places of their program.

There may be any number of threads; those at such a place are finitely many.
-/

import Mathlib.Data.Set.Card

namespace MyNotes.Library.ThreadCount

open Function

variable {Tid Stage : Type*} {there : Stage → Bool} {stage : Tid → Stage} {number : ℕ} {tid : Tid}
 {next : Stage}

def standing (there : Stage → Bool) (stage : Tid → Stage) : Set Tid :=
 {tid | there (stage tid) = true}

def Counted (there : Stage → Bool) (stage : Tid → Stage) (number : ℕ) : Prop :=
 (standing there stage).Finite ∧ (standing there stage).ncard = number

theorem Counted.start (none : ∀ tid, there (stage tid) = false) : Counted there stage 0 := by
 have empty : standing there stage = ∅ :=
  Set.eq_empty_of_forall_notMem fun tid => ne_true_of_eq_false (none tid)
 unfold Counted
 simp_all

section

variable (counted : Counted there stage number)
include counted

theorem Counted.exists_of_pos (positive : 0 < number) : ∃ tid, there (stage tid) = true :=
 (Set.ncard_pos counted.1).mp (counted.2.symm ▸ positive)

theorem Counted.pos (inside : there (stage tid) = true) : 0 < number :=
 counted.2 ▸ (Set.ncard_pos counted.1).mpr ⟨tid, inside⟩

theorem Counted.same {other : Tid → Stage} (same : ∀ tid, there (other tid) = there (stage tid)) :
 Counted there other number := by
 have equal : standing there other = standing there stage := by
  refine Set.ext fun tid => ?_
  change there (other tid) = true ↔ there (stage tid) = true
  rw [same]
 unfold Counted
 rw [equal]
 exact counted

theorem Counted.le {wider : Stage → Bool} {more : ℕ} (all : Counted wider stage more)
 (within : ∀ place, there place = true → wider place = true) : number ≤ more := by
 rw [← counted.2, ← all.2]
 exact Set.ncard_le_ncard (fun tid inside => within (stage tid) inside) all.1

end

variable [DecidableEq Tid]

variable (counted : Counted there stage number)
include counted

theorem Counted.stay (same : there next = there (stage tid)) :
 Counted there (update stage tid next) number := by
 have equal : standing there (update stage tid next) = standing there stage := by
  refine Set.ext fun other => ?_
  change there (update stage tid next other) = true ↔ there (stage other) = true
  by_cases me : other = tid
  · rw [me, update_self, same]
  · rw [update_of_ne me]
 unfold Counted
 rw [equal]
 exact counted

theorem Counted.arrive (before : there (stage tid) = false) (after : there next = true) :
 Counted there (update stage tid next) (number + 1) := by
 have equal : standing there (update stage tid next) =
  insert tid (standing there stage) := by
  refine Set.ext fun other => ?_
  change there (update stage tid next other) = true ↔
   other = tid ∨ there (stage other) = true
  by_cases me : other = tid
  · simp_all
  · simp_all
 have outside : tid ∉ standing there stage := ne_true_of_eq_false before
 unfold Counted
 rw [equal, Set.ncard_insert_of_notMem outside counted.1, counted.2]
 exact ⟨counted.1.insert tid, rfl⟩

theorem Counted.depart (before : there (stage tid) = true) (after : there next = false) :
 ∃ left, number = left + 1 ∧ Counted there (update stage tid next) left := by
 have equal : standing there (update stage tid next) =
  standing there stage \ {tid} := by
  refine Set.ext fun other => ?_
  change there (update stage tid next other) = true ↔
   there (stage other) = true ∧ other ≠ tid
  by_cases me : other = tid
  · simp_all
  · simp_all
 have inside : tid ∈ standing there stage := before
 refine ⟨_, ?_, equal ▸ counted.1.sdiff, rfl⟩
 rw [equal, Set.ncard_sdiff_singleton_add_one inside counted.1, counted.2]

end MyNotes.Library.ThreadCount
