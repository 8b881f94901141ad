/-
Threads that own locks and wait for locks.

A lock has at most one owner.  A thread waits for the thread that owns the lock it wants, and
threads are stuck for good when they wait for each other in a cycle.
-/

import Mathlib.Logic.Relation
import Mathlib.Logic.Function.Basic
import Mathlib.Data.Nat.Notation

namespace MyNotes.Library.WaitGraph

open Function Relation.TransGen

variable {Tid Lock : Type*}

/-! ### Owners -/

/-- The locks of a thread are those that its place in the program says it holds. -/
def Owns (owner : Lock → Option Tid) (holds : Tid → List Lock) : Prop :=
 ∀ tid lock, owner lock = some tid ↔ lock ∈ holds tid

section Owns

variable {owner : Lock → Option Tid} {holds next : Tid → List Lock} {tid : Tid} {lock : Lock}

theorem Owns.keep (owns : Owns owner holds)
 (same : ∀ tid lock, lock ∈ next tid ↔ lock ∈ holds tid) : Owns owner next :=
 fun tid lock => (owns tid lock).trans (same tid lock).symm

theorem Owns.exclusive (owns : Owns owner holds) {other : Tid} (mine : lock ∈ holds tid)
 (theirs : lock ∈ holds other) : tid = other :=
 Option.some.inj (((owns tid lock).mpr mine).symm.trans ((owns other lock).mpr theirs))

variable [DecidableEq Lock]

theorem Owns.acquire (owns : Owns owner holds) (free : owner lock = none)
 (mine : ∀ other, other ∈ next tid ↔ other = lock ∨ other ∈ holds tid)
 (others : ∀ other ≠ tid, next other = holds other) :
 Owns (update owner lock (some tid)) next := by
 intro thread other
 by_cases same : other = lock
 · subst same
   rw [update_self]
   by_cases me : thread = tid
   · simp_all
   · rw [others thread me, ← owns thread other, free]
     grind
 · rw [update_of_ne same, owns thread other]
   by_cases me : thread = tid
   · simp_all
   · rw [others thread me]

theorem Owns.release (owns : Owns owner holds) (held : lock ∈ holds tid)
 (mine : ∀ other, other ∈ next tid ↔ other ≠ lock ∧ other ∈ holds tid)
 (others : ∀ other ≠ tid, next other = holds other) :
 Owns (update owner lock none) next := by
 intro thread other
 by_cases same : other = lock
 · subst same
   rw [update_self]
   refine iff_of_false nofun fun inside => ?_
   by_cases me : thread = tid
   · simp_all
   · rw [others thread me] at inside
     exact me (owns.exclusive inside held)
 · rw [update_of_ne same, owns thread other]
   by_cases me : thread = tid
   · simp_all
   · rw [others thread me]

end Owns

/-! ### Stages -/

section Stages

variable {Stage : Type*} {stage : Tid → Stage} {locks : Stage → List Lock}
 {owner : Lock → Option Tid} {tid : Tid} {next : Stage} {lock : Lock} [DecidableEq Tid]

theorem Owns.stay (owns : Owns owner fun tid => locks (stage tid))
 (same : locks next = locks (stage tid)) :
 Owns owner fun other => locks (update stage tid next other) := by
 refine owns.keep fun other lock => ?_
 by_cases me : other = tid
 · rw [me, update_self, same]
 · rw [update_of_ne me]

variable [DecidableEq Lock]

theorem Owns.enter (owns : Owns owner fun tid => locks (stage tid)) (free : owner lock = none)
 (mine : ∀ other, other ∈ locks next ↔ other = lock ∨ other ∈ locks (stage tid)) :
 Owns (update owner lock (some tid))
  fun other => locks (update stage tid next other) := by
 refine owns.acquire free (fun other => ?_) fun other me => ?_
 · rw [update_self]
   exact mine other
 · rw [update_of_ne me]

theorem Owns.leave (owns : Owns owner fun tid => locks (stage tid))
 (held : lock ∈ locks (stage tid))
 (mine : ∀ other, other ∈ locks next ↔ other ≠ lock ∧ other ∈ locks (stage tid)) :
 Owns (update owner lock none)
  fun other => locks (update stage tid next other) := by
 refine owns.release held (fun other => ?_) fun other me => ?_
 · rw [update_self]
   exact mine other
 · rw [update_of_ne me]

end Stages

/-! ### Cycles -/

/-- One thread wants a lock that the other one owns. -/
def Waits (wants : Tid → Option Lock) (owner : Lock → Option Tid) (waiter holder : Tid) : Prop :=
 ∃ lock, wants waiter = some lock ∧ owner lock = some holder

def Acyclic (waits : Tid → Tid → Prop) : Prop :=
 ∀ tid, ¬ Relation.TransGen waits tid tid

theorem transGen_of_entered {waits before : Tid → Tid → Prop}
 (old : ∀ {waiter holder}, waits waiter holder → before waiter holder ∨
  (∀ other, ¬ waits holder other) ∨ ∀ other, ¬ waits other waiter)
 {first last : Tid} (path : Relation.TransGen waits first last)
 (entered : ∃ other, waits other first) (left : ∃ other, waits last other) :
 Relation.TransGen before first last := by
 have both {waiter holder : Tid} (edge : waits waiter holder)
  (entered : ∃ other, waits other waiter) (left : ∃ other, waits holder other) :
  before waiter holder := by
  rcases old edge with same | sink | source
  · exact same
  · exact absurd left.choose_spec (sink _)
  · exact absurd entered.choose_spec (source _)
 induction path with
 | single edge => exact .single (both edge entered left)
 | @tail middle last path edge ih =>
  grind

theorem Acyclic.extend {waits before : Tid → Tid → Prop} (acyclic : Acyclic before)
 (old : ∀ {waiter holder}, waits waiter holder → before waiter holder ∨
  (∀ other, ¬ waits holder other) ∨ ∀ other, ¬ waits other waiter) :
 Acyclic waits := by
 intro tid cycle
 obtain ⟨before, -, into⟩ := tail'_iff.mp cycle
 obtain ⟨after, out, -⟩ := head'_iff.mp cycle
 exact acyclic tid (transGen_of_entered old cycle ⟨before, into⟩ ⟨after, out⟩)

variable {wants : Tid → Option Lock} {owner : Lock → Option Tid}

theorem Acyclic.step {nextWants : Tid → Option Lock} {nextOwner : Lock → Option Tid} {tid : Tid}
 (acyclic : Acyclic (Waits wants owner))
 (others : ∀ other ≠ tid, nextWants other = wants other)
 (owned : ∀ lock other, nextOwner lock = some other →
  owner lock = some other ∨ other = tid ∧ nextWants tid = none)
 (request : ∀ lock other, nextWants tid = some lock → nextOwner lock = some other →
  nextWants other = none ∨ ∀ waiter, ¬ Waits nextWants nextOwner waiter tid) :
 Acyclic (Waits nextWants nextOwner) := by
 have sink {other : Tid} (none : nextWants other = none) (last : Tid) :
  ¬ Waits nextWants nextOwner other last := by
  rintro ⟨lock, want, -⟩
  cases none.symm.trans want
 refine acyclic.extend ?_
 rintro waiter holder ⟨lock, want, own⟩
 by_cases me : waiter = tid
 · grind
 · rcases owned lock holder own with before | ⟨here, none⟩
   · exact .inl ⟨lock, (others waiter me).symm.trans want, before⟩
   · exact .inr (.inl (sink (here ▸ none)))

theorem rank_lt (rank : Lock → ℕ)
 (ordered : ∀ {tid held wanted}, owner held = some tid → wants tid = some wanted →
  rank held < rank wanted)
 {first last : Tid} (path : Relation.TransGen (Waits wants owner) first last)
 {wanted other : Lock} (start : wants first = some wanted) (finish : wants last = some other) :
 rank wanted < rank other := by
 induction path generalizing other with
 | single edge =>
  obtain ⟨lock, want, owned⟩ := edge
  simp_all
 | tail _ edge ih =>
  obtain ⟨lock, want, owned⟩ := edge
  grind

theorem acyclic_of_rank (rank : Lock → ℕ)
 (ordered : ∀ {tid held wanted}, owner held = some tid → wants tid = some wanted →
  rank held < rank wanted) :
 Acyclic (Waits wants owner) := by
 intro tid cycle
 obtain ⟨next, ⟨lock, want, -⟩, -⟩ := head'_iff.mp cycle
 exact Nat.lt_irrefl _ (rank_lt rank ordered cycle want want)

end MyNotes.Library.WaitGraph
