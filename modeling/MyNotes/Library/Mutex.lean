/-
One lock, and threads whose place in their program says whether they hold it.
-/

import Mathlib.Logic.Function.Basic

namespace MyNotes.Library.Mutex

open Function

variable {Tid Stage : Type*} {holds : Stage → Bool} {stage : Tid → Stage} {mutex : Option Tid}
 {tid : Tid} {next : Stage}

/-- The lock is owned by the thread that stands where it is held. -/
def Guards (holds : Stage → Bool) (stage : Tid → Stage) (mutex : Option Tid) : Prop :=
 ∀ tid, holds (stage tid) = true ↔ mutex = some tid

theorem Guards.owner (guards : Guards holds stage mutex) (held : holds (stage tid) = true) :
 mutex = some tid := (guards tid).mp held

theorem Guards.exclusive (guards : Guards holds stage mutex) {other : Tid}
 (mine : holds (stage tid) = true) (theirs : holds (stage other) = true) : tid = other :=
 Option.some.inj ((guards.owner mine).symm.trans (guards.owner theirs))

theorem Guards.start (nobody : ∀ tid, holds (stage tid) = false) : Guards holds stage none :=
 fun tid => iff_of_false (ne_true_of_eq_false (nobody tid)) nofun

theorem Guards.same {other : Tid → Stage} (guards : Guards holds stage mutex)
 (same : ∀ tid, holds (other tid) = holds (stage tid)) : Guards holds other mutex :=
 fun tid => same tid ▸ guards tid

variable [DecidableEq Tid]

variable (guards : Guards holds stage mutex)
include guards

theorem Guards.stay (same : holds next = holds (stage tid)) :
 Guards holds (update stage tid next) mutex := by
 refine guards.same fun other => ?_
 by_cases me : other = tid
 · rw [me, update_self, same]
 · rw [update_of_ne me]

theorem Guards.lock (free : mutex = none) (held : holds next = true) :
 Guards holds (update stage tid next) (some tid) := by
 intro other
 by_cases me : other = tid
 · simp_all
 · rw [update_of_ne me, guards other, free]
   grind

theorem Guards.unlock (held : holds (stage tid) = true) (free : holds next = false) :
 Guards holds (update stage tid next) none := by
 intro other
 refine iff_of_false ?_ nofun
 by_cases me : other = tid
 · simp_all
 · rw [update_of_ne me]
   exact fun theirs => me (guards.exclusive theirs held)

end MyNotes.Library.Mutex
