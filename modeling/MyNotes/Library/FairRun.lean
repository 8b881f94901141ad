/-
Endless runs of a labelled transition system, and a scheduler that is fair.

A scheduler is fair to a thread that it does not pass over for ever while the thread can go on
all the time.
-/

import Mathlib.Order.Nat

namespace MyNotes.Library.FairRun

variable {State Event : Type*} {step : State → Event → State → Prop} {start : State}

structure Execution (step : State → Event → State → Prop) (start : State) where
 state : ℕ → State
 event : ℕ → Option Event
 initial : state 0 = start
 next : ∀ time, (event time = none ∧ state (time + 1) = state time) ∨
  ∃ taken, event time = some taken ∧ step (state time) taken (state (time + 1))

namespace Execution

variable (execution : Execution step start)

theorem invariant {holds : State → Prop} (initial : holds start)
 (preserved : ∀ state event next, holds state → step state event next → holds next)
 (time : ℕ) : holds (execution.state time) := by
 induction time with
 | zero => exact execution.initial.symm ▸ initial
 | succ time ih =>
  rcases execution.next time with ⟨-, same⟩ | ⟨event, -, taken⟩
  · exact same.symm ▸ ih
  · exact preserved _ _ _ ih taken

def Fair (able : State → Prop) (event : Event) : Prop :=
 ∀ time, (∀ later, time ≤ later → able (execution.state later)) →
  ∃ later, time ≤ later ∧ execution.event later = some event

/-- The event happens whenever it is possible again and again. -/
def StronglyFair (able : State → Prop) (event : Event) : Prop :=
 ∀ time, (∀ later, time ≤ later → ∃ last, later ≤ last ∧ able (execution.state last)) →
  ∃ later, time ≤ later ∧ execution.event later = some event

variable {execution}

variable {event : Event} {holds : ℕ → Prop} {time : ℕ}

theorem lasts (now : holds time)
 (stays : ∀ later, time ≤ later → holds later → execution.event later ≠ some event →
  holds (later + 1))
 (never : ¬ ∃ later, time ≤ later ∧ holds later ∧ execution.event later = some event) :
 ∀ later, time ≤ later → holds later := by
 intro later after
 induction later, after using Nat.le_induction with
 | base => exact now
 | succ later after ih =>
  simp_all

variable {able : State → Prop}

theorem Fair.happens (fair : execution.Fair able event) (now : holds time)
 (enabled : ∀ later, time ≤ later → holds later → able (execution.state later))
 (stays : ∀ later, time ≤ later → holds later → execution.event later ≠ some event →
  holds (later + 1)) :
 ∃ later, time ≤ later ∧ holds later ∧ execution.event later = some event := by
 by_contra never
 have always := lasts now stays never
 obtain ⟨later, after, happens⟩ := fair time fun later after =>
  enabled later after (always later after)
 simp_all

theorem StronglyFair.fair (strong : execution.StronglyFair able event) :
 execution.Fair able event :=
 fun time always => strong time fun later after => ⟨later, Nat.le_refl later, always later after⟩

theorem StronglyFair.happens (strong : execution.StronglyFair able event) (now : holds time)
 (again : (∀ later, time ≤ later → holds later) → ∀ later, time ≤ later →
  ∃ last, later ≤ last ∧ able (execution.state last))
 (stays : ∀ later, time ≤ later → holds later → execution.event later ≠ some event →
  holds (later + 1)) :
 ∃ later, time ≤ later ∧ holds later ∧ execution.event later = some event := by
 by_contra never
 have always := lasts now stays never
 obtain ⟨later, after, happens⟩ := strong time (again always)
 simp_all

theorem taken_of_event (happens : execution.event time = some event) :
 step (execution.state time) event (execution.state (time + 1)) := by
 rcases execution.next time with ⟨none, -⟩ | ⟨taken, same, step⟩
 · cases happens.symm.trans none
 · cases happens.symm.trans same
   exact step

end Execution

theorem comes_to_rest (rank : ℕ → ℕ) {time : ℕ}
 (falls : ∀ later, time ≤ later → rank (later + 1) ≤ rank later) :
 ∃ rest, time ≤ rest ∧ ∀ later, rest ≤ later → rank later = rank rest := by
 generalize bound : rank time = value
 induction value using Nat.strongRecOn generalizing time with
 | ind value ih =>
  by_cases lower : ∃ later, time ≤ later ∧ rank later < value
  · obtain ⟨later, after, less⟩ := lower
    obtain ⟨rest, since, same⟩ := ih _ less
     (fun last past => falls last (Nat.le_trans after past)) rfl
    exact ⟨rest, Nat.le_trans after since, same⟩
  · refine ⟨time, Nat.le_refl time, fun later after => ?_⟩
    have below : rank later ≤ rank time := by
     induction later, after using Nat.le_induction with
     | base => exact Nat.le_refl _
     | succ later after ih => exact Nat.le_trans (falls later after) ih
    grind

end MyNotes.Library.FairRun
