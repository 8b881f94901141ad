/-
`NumberPrinter` and `ZeroEvenOdd`: three threads that print 0 1 0 2 ... in turn.

What a thread does under the lock is one step, up to the point where it gives the lock back or,
in `ZeroEvenOdd`, goes round its loop with the lock still taken.  The counter of a loop is an
`int`.
-/

import MyNotes.Library.CheckedInt
import MyNotes.Library.Transition
import Mathlib.Logic.Function.Basic

namespace MyNotes.Algorithms.ZeroEvenOdd

open Library.CheckedInt Library.Transition Function List

inductive Thread where
 | zero
 | even
 | odd
 deriving DecidableEq

/-- A thread that tries goes for the lock and then looks at its condition. -/
inductive Stage where
 | trying (i : ℕ)
 | waiting (i : ℕ)
 | finished
 | overflowed
 deriving DecidableEq

/-- What the two classes differ in: the loops, the condition that a thread waits for, what it
prints and sets, and whether the lock is taken before the loop or in each of its turns. -/
structure Printer (Shared : Type) where
 start : Thread → ℕ
 goes : Thread → ℕ → Bool
 next : Thread → ℕ → ℕ
 ready : Thread → ℕ → Shared → Bool
 print : Thread → ℕ → ℕ
 set : Thread → ℕ → Shared → Shared
 keepsLock : Bool

structure State (Shared : Type) where
 shared : Shared
 stage : Thread → Stage
 holder : Option Thread
 output : List ℕ

namespace Printer

variable {Shared : Type} (self : Printer Shared)

def enter (thread : Thread) (i : ℕ) : Stage :=
 if intMax < i then .overflowed else if self.goes thread i then .trying i else .finished

def init (shared : Shared) : State Shared :=
 ⟨shared, fun thread => self.enter thread (self.start thread), none, []⟩

/-- `notify_all`. -/
def wake : Stage → Stage
 | .waiting i => .trying i
 | stage => stage

def step (state : State Shared) (thread : Thread) : Option (State Shared) :=
 if state.holder = none ∨ state.holder = some thread then
  match state.stage thread with
  | .trying i =>
   if self.ready thread i state.shared then
    let after := self.enter thread (self.next thread i)
    some {
     shared := self.set thread i state.shared
     stage := update (fun other => wake (state.stage other)) thread after
     holder := if self.keepsLock ∧ after = .trying (self.next thread i) then some thread else none
     output := state.output ++ [self.print thread i] }
   else some { state with stage := update state.stage thread (.waiting i), holder := none }
  | _ => none
 else none

def Reachable (shared : Shared) (state : State Shared) : Prop :=
 ∃ threads, Run (ofFunction self.step) (self.init shared) threads state

end Printer

/-- Some thread is not finished, and all such threads wait, so that nothing can wake them. -/
def State.Stuck {Shared : Type} (state : State Shared) : Prop :=
 (∃ thread, state.stage thread ≠ .finished) ∧
  ∀ thread, state.stage thread = .finished ∨ ∃ i, state.stage thread = .waiting i

def sequence (n : ℕ) : List ℕ := (List.range n).flatMap fun i => [0, i + 1]

/-- The printer with these first values of its fields prints the sequence of `n` in its order,
never waits for ever before that, and no counter overflows. -/
structure Printer.Correct {Shared : Type} (printer : Printer Shared) (shared : Shared) (n : ℕ) :
 Prop where
 ordered : ∀ state, printer.Reachable shared state → state.output <+: sequence n
 unstuck : ∀ state, printer.Reachable shared state → ¬ state.Stuck
 complete : ∀ state, printer.Reachable shared state →
  (∀ thread, state.stage thread = .finished) → state.output = sequence n
 fits : ∀ state, printer.Reachable shared state → ∀ thread, state.stage thread ≠ .overflowed

/-! ### The two classes -/

structure Fields where
 current : ℕ
 printZero : Bool

def first : Thread → ℕ
 | .zero => 0
 | .even => 2
 | .odd => 1

def stride : Thread → ℕ → ℕ
 | .zero, i => i + 1
 | _, i => i + 2

def numberPrinter (n : ℕ) : Printer Fields where
 start := first
 goes
  | .zero, i => i < n / 2
  | _, i => i ≤ n
 next := stride
 ready
  | .zero, _, fields => fields.printZero
  | _, i, fields => !fields.printZero && fields.current == i
 print
  | .zero, _ => 0
  | _, i => i
 set
  | .zero, _, fields => { fields with printZero := false }
  | _, _, fields => ⟨fields.current + 1, true⟩
 keepsLock := false

/-- The shared value is `flag`, which the constructor does not set. -/
def zeroEvenOdd (n : ℕ) : Printer ℤ where
 start := first
 goes
  | .zero, i => i < n
  | _, i => i ≤ n
 next := stride
 ready
  | .zero, _, flag => flag = 0
  | .even, _, flag => flag = 1
  | .odd, _, flag => flag = 2
 print
  | .zero, _ => 0
  | _, i => i
 set
  | .zero, i, _ => if i % 2 = 0 then 2 else 1
  | _, _, _ => 0
 keepsLock := true

/-! ### Turns -/

variable {Shared : Type} {self : Printer Shared} {initial : Shared} {shared : ℕ → Shared}
 {state next : State Shared} {thread : Thread} {i n turn : ℕ}

def owner (turn : ℕ) : Thread :=
 if turn % 2 = 0 then .zero else if turn % 4 = 1 then .odd else .even

def said (turn : ℕ) : ℕ := if turn % 2 = 0 then 0 else turn / 2 + 1

/-- The counter of a thread's loop after so many turns. -/
def place (turn : ℕ) : Thread → ℕ
 | .zero => (turn + 1) / 2
 | .even => 2 * (turn / 4) + 2
 | .odd => 2 * ((turn + 2) / 4) + 1

theorem sequence_eq (n : ℕ) : sequence n = (range (2 * n)).map said := by
 induction n with
 | zero => rfl
 | succ n ih =>
  have zero : said (2 * n) = 0 := if_pos (by omega)
  have number : said (2 * n + 1) = n + 1 := by
   rw [said, if_neg (by omega)]
   omega
  have before : sequence (n + 1) = sequence n ++ [0, n + 1] := by
   simp [sequence, range_succ]
  rw [before, ih, show 2 * (n + 1) = 2 * n + 1 + 1 by omega, range_succ, range_succ, map_append,
   map_append, append_assoc]
  simp [zero, number]

theorem place_owner (turn : ℕ) : place turn (owner turn) = (turn + 1) / 2 := by
 unfold owner
 split
 · rfl
 split <;> simp only [place] <;> omega

theorem place_le (turn : ℕ) (thread : Thread) : place turn thread ≤ turn / 2 + 2 := by
 cases thread <;> simp only [place] <;> omega

theorem place_succ_owner (turn : ℕ) :
 place (turn + 1) (owner turn) = stride (owner turn) (place turn (owner turn)) := by
 unfold owner
 split
 · simp only [place, stride]
   omega
 split <;> simp only [place, stride] <;> omega

theorem place_succ_of_ne (other : thread ≠ owner turn) :
 place (turn + 1) thread = place turn thread := by
 unfold owner at other
 cases thread <;> simp only [place] <;> grind

theorem owner_succ_ne (turn : ℕ) : owner (turn + 1) ≠ owner turn := by
 unfold owner
 grind

/-- With these shared values, one for each turn, the threads print in turn. -/
structure Printer.TakesTurns (printer : Printer Shared) (shared : ℕ → Shared) : Prop where
 next : printer.next = stride
 ready_iff : ∀ turn thread,
  printer.ready thread (place turn thread) (shared turn) = true ↔ thread = owner turn
 set : ∀ turn, printer.set (owner turn) (place turn (owner turn)) (shared turn) = shared (turn + 1)
 print : ∀ turn, printer.print (owner turn) (place turn (owner turn)) = said turn

/-- The thread whose turn it is goes round its loop once more. -/
def Printer.Takes (self : Printer Shared) (turn : ℕ) : Prop :=
 self.enter (owner turn) (place turn (owner turn)) = .trying (place turn (owner turn))

/-- A thread waits only when it is not its turn. -/
structure State.AtTurn (state : State Shared) (printer : Printer Shared) (shared : ℕ → Shared)
 (turn : ℕ) : Prop where
 shared : state.shared = shared turn
 output : state.output = (range turn).map said
 stage : ∀ thread, state.stage thread = printer.enter thread (place turn thread) ∨
  thread ≠ owner turn ∧ printer.enter thread (place turn thread) = .trying (place turn thread) ∧
   state.stage thread = .waiting (place turn thread)

theorem enter_eq_trying {j : ℕ} (trying : self.enter thread i = .trying j) : j = i := by
 unfold Printer.enter at trying
 split at trying
 · cases trying
 split at trying
 · exact (Stage.trying.inj trying).symm
 · cases trying

theorem wake_enter (thread : Thread) (i : ℕ) :
 Printer.wake (self.enter thread i) = self.enter thread i := by
 unfold Printer.enter
 split
 · rfl
 split <;> rfl

theorem State.AtTurn.trying (atTurn : state.AtTurn self shared turn)
 (trying : state.stage thread = .trying i) :
 i = place turn thread ∧ self.enter thread i = .trying i := by
 rcases atTurn.stage thread with enters | ⟨-, -, waits⟩
 · have same := enter_eq_trying (enters.symm.trans trying)
   subst same
   exact ⟨rfl, enters.symm.trans trying⟩
 · cases waits.symm.trans trying

theorem State.AtTurn.of_takes (atTurn : state.AtTurn self shared turn) (takes : self.Takes turn) :
 state.stage (owner turn) = .trying (place turn (owner turn)) := by
 rcases atTurn.stage (owner turn) with enters | ⟨other, -, -⟩
 · exact enters.trans takes
 · exact absurd rfl other

/-- A step lets a thread wait that has no turn, or it takes the turn. -/
theorem State.AtTurn.step (turns : self.TakesTurns shared) (atTurn : state.AtTurn self shared turn)
 (taken : self.step state thread = some next) :
 thread ≠ owner turn ∧ next.AtTurn self shared turn ∨
 thread = owner turn ∧ self.Takes turn ∧ next.AtTurn self shared (turn + 1) := by
 unfold Printer.step at taken
 split at taken
 swap
 · cases taken
 cases stage : state.stage thread with
 | waiting i | finished | overflowed =>
  rw [stage] at taken
  cases taken
 | trying i =>
  obtain ⟨rfl, enters⟩ := atTurn.trying stage
  rw [stage] at taken
  dsimp only at taken
  rw [atTurn.shared, turns.next] at taken
  by_cases own : thread = owner turn
  · rw [if_pos ((turns.ready_iff turn thread).mpr own)] at taken
    subst own
    cases taken
    refine .inr ⟨rfl, enters, turns.set turn, ?_, fun other => .inl ?_⟩
    · rw [atTurn.output, turns.print, range_succ, map_append]
      rfl
    · dsimp only
      by_cases same : other = owner turn
      · rw [same, update_self, place_succ_owner]
      · rw [update_of_ne same, place_succ_of_ne same]
        rcases atTurn.stage other with enters | ⟨-, enters, waits⟩
        · rw [enters, wake_enter]
        · rw [waits, enters]
          rfl
  · rw [if_neg (mt (turns.ready_iff turn thread).mp own)] at taken
    cases taken
    refine .inl ⟨own, rfl, atTurn.output, fun other => ?_⟩
    by_cases same : other = thread
    · subst same
      exact .inr ⟨own, enters, update_self _ _ _⟩
    · dsimp only
      rw [update_of_ne same]
      exact atTurn.stage other

theorem init_atTurn (start : self.start = first) :
 (self.init (shared 0)).AtTurn self shared 0 := by
 refine ⟨rfl, rfl, fun thread => .inl ?_⟩
 change self.enter thread (self.start thread) = _
 rw [start]
 cases thread <;> rfl

/-- Every turn before the present one was taken. -/
theorem exists_atTurn (turns : self.TakesTurns shared) (start : self.start = first)
 (reached : self.Reachable (shared 0) state) :
 ∃ turn, state.AtTurn self shared turn ∧ ∀ earlier < turn, self.Takes earlier := by
 obtain ⟨threads, run⟩ := reached
 induction run with
 | nil => exact ⟨0, init_atTurn start, by simp⟩
 | snoc _ taken ih =>
  obtain ⟨turn, atTurn, before⟩ := ih
  obtain ⟨-, same⟩ | ⟨-, takes, after⟩ := atTurn.step turns taken
  · exact ⟨turn, same, before⟩
  · refine ⟨turn + 1, after, fun earlier below => ?_⟩
    rcases Nat.lt_succ_iff_lt_or_eq.mp below with below | rfl
    · exact before earlier below
    · exact takes

/-! ### Parked threads -/

def park : Stage → Stage
 | .trying i => .waiting i
 | stage => stage

theorem step_of_not_ready (free : state.holder = none ∨ state.holder = some thread)
 (trying : state.stage thread = .trying i) (early : self.ready thread i state.shared = false) :
 self.step state thread =
  some { state with stage := update state.stage thread (.waiting i), holder := none } := by
 rw [Printer.step, if_pos free, trying]
 dsimp only
 rw [early, if_neg Bool.false_ne_true]

theorem step_of_ready (free : state.holder = none) (trying : state.stage thread = .trying i)
 (ready : self.ready thread i state.shared = true) :
 ∃ next, self.step state thread = some next ∧ next.output = state.output ++ [self.print thread i] ∧
  (next.holder = none ∨ next.holder = some thread ∧
   next.stage thread = .trying (self.next thread i)) := by
 rw [Printer.step, if_pos (.inl free), trying]
 dsimp only
 rw [if_pos ready]
 refine ⟨_, rfl, rfl, ?_⟩
 dsimp only
 split
 · rename_i keeps
   exact .inr ⟨rfl, by rw [update_self, keeps.2]⟩
 · exact .inl rfl

/-- No thread that tries can go on. -/
def State.Quiet (state : State Shared) (self : Printer Shared) : Prop :=
 ∀ thread i, state.stage thread = .trying i → self.ready thread i state.shared = false

theorem exists_parked_one (reached : self.Reachable initial state) (free : state.holder = none)
 (quiet : state.Quiet self) (thread : Thread) :
 ∃ next, self.Reachable initial next ∧ next.holder = none ∧ next.Quiet self ∧
  next.stage = update state.stage thread (park (state.stage thread)) := by
 cases stage : state.stage thread with
 | trying i =>
  obtain ⟨threads, run⟩ := reached
  refine ⟨_, ⟨_, run.snoc (step_of_not_ready (.inl free) stage (quiet thread i stage))⟩, rfl,
   fun other j trying => ?_, rfl⟩
  by_cases same : other = thread
  · subst same
    cases (update_self other _ state.stage).symm.trans trying
  · exact quiet other j ((update_of_ne same _ state.stage).symm.trans trying)
 | waiting i | finished | overflowed =>
  refine ⟨state, reached, free, quiet, (update_eq_self thread state.stage).symm.trans ?_⟩
  rw [stage]
  rfl

theorem exists_parked (reached : self.Reachable initial state) (free : state.holder = none)
 (quiet : state.Quiet self) :
 ∃ next, self.Reachable initial next ∧ ∀ thread, next.stage thread = park (state.stage thread) := by
 obtain ⟨one, reached, free, quiet, stage⟩ := exists_parked_one reached free quiet .zero
 obtain ⟨two, reached, free, quiet, stage'⟩ := exists_parked_one reached free quiet .even
 obtain ⟨three, reached, -, -, stage''⟩ := exists_parked_one reached free quiet .odd
 refine ⟨three, reached, fun thread => ?_⟩
 rw [stage'', stage', stage]
 cases thread <;> rfl

theorem exists_stuck (reached : self.Reachable initial state) (free : state.holder = none)
 (quiet : state.Quiet self) (unfinished : ∃ thread, state.stage thread ≠ .finished)
 (fits : ∀ thread, state.stage thread ≠ .overflowed) :
 ∃ next, self.Reachable initial next ∧ next.Stuck := by
 obtain ⟨next, reached, parked⟩ := exists_parked reached free quiet
 refine ⟨next, reached, ?_, fun thread => ?_⟩
 · obtain ⟨thread, other⟩ := unfinished
   refine ⟨thread, fun finished => ?_⟩
   rw [parked] at finished
   cases stage : state.stage thread <;> rw [stage] at finished other <;> cases finished
   exact other rfl
 · rw [parked]
   cases stage : state.stage thread with
   | overflowed => exact absurd stage (fits thread)
   | trying i => exact .inr ⟨i, rfl⟩
   | waiting i => exact .inr ⟨i, rfl⟩
   | finished => exact .inl rfl

/-- A turn is reached when all turns before it are taken. -/
theorem exists_reachable_atTurn (turns : self.TakesTurns shared)
 (start : self.start = first) (before : ∀ earlier < turn, self.Takes earlier) :
 ∃ state, self.Reachable (shared 0) state ∧ state.AtTurn self shared turn ∧
  state.holder = none := by
 induction turn with
 | zero => exact ⟨_, ⟨[], .nil⟩, init_atTurn start, rfl⟩
 | succ turn ih =>
  obtain ⟨state, ⟨threads, run⟩, atTurn, free⟩ := ih fun earlier below => before _ (by omega)
  have ready := (turns.ready_iff turn (owner turn)).mpr rfl
  rw [← atTurn.shared] at ready
  obtain ⟨next, taken, -, keeps⟩ :=
   step_of_ready free (atTurn.of_takes (before turn (by omega))) ready
  have after : next.AtTurn self shared (turn + 1) := by
   obtain ⟨other, -⟩ | ⟨-, -, after⟩ := atTurn.step turns taken
   · exact absurd rfl other
   · exact after
  obtain free | ⟨held, trying⟩ := keeps
  · exact ⟨next, ⟨_, run.snoc taken⟩, after, free⟩
  · -- The thread that keeps the lock has no turn now, and gives it back.
    have early : self.ready (owner turn) (self.next (owner turn) (place turn (owner turn)))
     next.shared = false := by
     rw [(after.trying trying).1, after.shared, Bool.eq_false_iff]
     exact fun own => owner_succ_ne turn ((turns.ready_iff _ _).mp own).symm
    have waits := step_of_not_ready (.inr held) trying early
    obtain ⟨-, same⟩ | ⟨own, -, -⟩ := after.step turns waits
    · exact ⟨_, ⟨_, (run.snoc taken).snoc waits⟩, same, rfl⟩
    · exact absurd own.symm (owner_succ_ne turn)

/-! ### `NumberPrinter` -/

theorem State.AtTurn.stage_ne_overflowed (atTurn : state.AtTurn self shared turn)
 (fits : ((turn / 2 + 2 : ℕ) : ℤ) ≤ intMax) (thread : Thread) :
 state.stage thread ≠ .overflowed := by
 intro overflowed
 rcases atTurn.stage thread with enters | ⟨-, -, waits⟩
 · have small := place_le turn thread
   rw [overflowed, Printer.enter, if_neg (by omega)] at enters
   split at enters <;> cases enters
 · cases overflowed.symm.trans waits

theorem takes_of_goes (fits : ((turn + 1) / 2 : ℕ) ≤ intMax)
 (goes : self.goes (owner turn) ((turn + 1) / 2) = true) : self.Takes turn := by
 rw [Printer.Takes, place_owner, Printer.enter, if_neg (by omega), if_pos goes]

theorem numberPrinter_takesTurns (n : ℕ) :
 (numberPrinter n).TakesTurns fun turn => ⟨turn / 2 + 1, turn % 2 = 0⟩ := by
 refine ⟨rfl, fun turn thread => ?_, fun turn => ?_, fun turn => ?_⟩
 · cases thread <;> simp only [numberPrinter, place, owner] <;> grind
 · simp only [owner]
   split
   · simp only [numberPrinter, Fields.mk.injEq]
     grind
   split <;> simp only [numberPrinter, Fields.mk.injEq] <;> grind
 · rw [place_owner]
   simp only [owner, said]
   split
   · rfl
   split <;> simp only [numberPrinter] <;> omega

/-- `zero` of `NumberPrinter` is finished after half of the rounds. -/
theorem numberPrinter_exists_stuck (positive : 1 ≤ n) (counted : (n : ℤ) ≤ intMax) :
 ∃ state, (numberPrinter n).Reachable ⟨1, true⟩ state ∧ state.Stuck := by
 have turns := numberPrinter_takesTurns n
 unfold intMax at counted
 have taken : ∀ earlier < 2 * (n / 2), (numberPrinter n).Takes earlier := by
  intro earlier below
  refine takes_of_goes (by unfold intMax; omega) ?_
  simp only [numberPrinter, owner]
  grind
 obtain ⟨state, reached, atTurn, free⟩ := exists_reachable_atTurn turns rfl taken
 have zero : ∀ i, (numberPrinter n).enter .zero (place (2 * (n / 2)) .zero) ≠ .trying i := by
  intro i trying
  simp only [Printer.enter, numberPrinter, place] at trying
  grind
 have own : owner (2 * (n / 2)) = .zero := if_pos (by omega)
 refine exists_stuck reached free (fun thread i trying => ?_) ?_
  (atTurn.stage_ne_overflowed (by unfold intMax; omega))
 · obtain ⟨rfl, enters⟩ := atTurn.trying trying
   rw [atTurn.shared, Bool.eq_false_iff]
   intro ready
   rw [(turns.ready_iff _ _).mp ready, own] at enters
   exact zero _ enters
 · refine ⟨if n / 2 % 2 = 0 then .odd else .even, fun finished => ?_⟩
   rcases atTurn.stage (if n / 2 % 2 = 0 then .odd else .even) with enters | ⟨-, -, waits⟩
   · rw [finished] at enters
     simp only [Printer.enter, numberPrinter, intMax] at enters
     grind [place]
   · cases finished.symm.trans waits

/-! ### `ZeroEvenOdd` -/

def flagAt (turn : ℕ) : ℤ := if turn % 2 = 0 then 0 else if turn % 4 = 1 then 2 else 1

theorem zeroEvenOdd_takesTurns (n : ℕ) : (zeroEvenOdd n).TakesTurns flagAt := by
 refine ⟨rfl, fun turn thread => ?_, fun turn => ?_, fun turn => ?_⟩
 · cases thread <;> simp only [zeroEvenOdd, owner, flagAt] <;> grind
 · rw [place_owner]
   simp only [owner, flagAt]
   split
   · simp only [zeroEvenOdd]
     grind
   split <;> simp only [zeroEvenOdd] <;> grind
 · rw [place_owner]
   simp only [owner, said]
   split
   · rfl
   split <;> simp only [zeroEvenOdd] <;> omega

theorem zeroEvenOdd_takes (counted : (n : ℤ) ≤ intMax) (before : turn < 2 * n) :
 (zeroEvenOdd n).Takes turn := by
 refine takes_of_goes (by unfold intMax at counted ⊢; omega) ?_
 simp only [zeroEvenOdd, owner]
 grind

theorem zeroEvenOdd_enter_last (n : ℕ) (thread : Thread) :
 (zeroEvenOdd n).enter thread (place (2 * n) thread) =
  if intMax < place (2 * n) thread then .overflowed else .finished := by
 unfold Printer.enter
 congr 1
 apply if_neg
 cases thread <;> simp only [zeroEvenOdd, place, decide_eq_true_eq] <;> omega

theorem stage_last {state : State ℤ} (atTurn : state.AtTurn (zeroEvenOdd n) flagAt (2 * n))
 (thread : Thread) : state.stage thread =
  if intMax < place (2 * n) thread then .overflowed else .finished := by
 have last := zeroEvenOdd_enter_last n thread
 rcases atTurn.stage thread with enters | ⟨-, trying, -⟩
 · exact enters.trans last
 · rw [trying] at last
   split at last <;> cases last

theorem exists_turn_le {state : State ℤ} (reached : (zeroEvenOdd n).Reachable 0 state) :
 ∃ turn ≤ 2 * n, state.AtTurn (zeroEvenOdd n) flagAt turn := by
 obtain ⟨turn, atTurn, before⟩ := exists_atTurn (zeroEvenOdd_takesTurns n) rfl reached
 refine ⟨turn, ?_, atTurn⟩
 by_contra later
 have takes := before (2 * n) (by omega)
 rw [Printer.Takes, zeroEvenOdd_enter_last] at takes
 split at takes <;> cases takes

theorem zeroEvenOdd_correct (fits : (n : ℤ) + 2 ≤ intMax) : (zeroEvenOdd n).Correct 0 n where
 ordered state reached := by
  obtain ⟨turn, inside, atTurn⟩ := exists_turn_le reached
  rw [atTurn.output, sequence_eq, ← Nat.min_eq_left inside, ← take_range, map_take]
  exact take_prefix _ _
 unstuck state reached := by
  intro ⟨⟨thread, unfinished⟩, parked⟩
  obtain ⟨turn, inside, atTurn⟩ := exists_turn_le reached
  obtain below | rfl := Nat.lt_or_eq_of_le inside
  · have tries := atTurn.of_takes (zeroEvenOdd_takes (by omega) below)
    rcases parked (owner turn) with finished | ⟨i, waits⟩
    · cases tries.symm.trans finished
    · cases tries.symm.trans waits
  · have small := place_le (2 * n) thread
    exact unfinished ((stage_last atTurn thread).trans (if_neg (by omega)))
 complete state reached finished := by
  obtain ⟨turn, inside, atTurn⟩ := exists_turn_le reached
  obtain below | rfl := Nat.lt_or_eq_of_le inside
  · have tries := atTurn.of_takes (zeroEvenOdd_takes (by omega) below)
    cases tries.symm.trans (finished _)
  · rw [atTurn.output, sequence_eq]
 fits state reached := by
  obtain ⟨turn, inside, atTurn⟩ := exists_turn_le reached
  exact atTurn.stage_ne_overflowed (by omega)

/-- The last number's thread adds two to its counter before it is finished. -/
theorem not_correct_of_large (counted : (n : ℤ) ≤ intMax) (large : intMax < (n : ℤ) + 2) :
 ¬ (zeroEvenOdd n).Correct 0 n := by
 intro correct
 obtain ⟨state, reached, atTurn, -⟩ := exists_reachable_atTurn (zeroEvenOdd_takesTurns n) rfl
  fun _ below => zeroEvenOdd_takes counted below
 apply correct.fits state reached (if n % 2 = 0 then .even else .odd)
 rw [stage_last atTurn]
 apply if_pos
 split <;> simp only [place] <;> omega

theorem head_sequence {v : ℕ} (positive : 1 ≤ n) (ordered : [v] <+: sequence n) : v = 0 := by
 obtain ⟨m, rfl⟩ := Nat.exists_eq_add_of_le' positive
 rw [sequence_eq, show 2 * (m + 1) = 2 * m + 1 + 1 by omega, range_succ_eq_map, map_cons,
  cons_prefix_cons] at ordered
 exact ordered.1

/-- Another first flag lets a number be printed first, or lets all threads wait. -/
theorem not_correct_of_flag (positive : 1 ≤ n) {flag : ℤ} (other : flag ≠ 0) :
 ¬ (zeroEvenOdd n).Correct flag n := by
 intro correct
 have start : (zeroEvenOdd n).Reachable flag ((zeroEvenOdd n).init flag) := ⟨[], .nil⟩
 have stage : ∀ thread, ((zeroEvenOdd n).init flag).stage thread =
  if (zeroEvenOdd n).goes thread (first thread) then .trying (first thread) else .finished := by
  intro thread
  apply if_neg
  change ¬ intMax < (first thread : ℤ)
  cases thread <;> decide
 by_cases quiet : ((zeroEvenOdd n).init flag).Quiet (zeroEvenOdd n)
 · have tries : ((zeroEvenOdd n).init flag).stage .zero = .trying 0 :=
    (stage .zero).trans (if_pos (decide_eq_true positive))
   obtain ⟨state, reached, stuck⟩ := exists_stuck start rfl quiet
    ⟨.zero, fun finished => by cases tries.symm.trans finished⟩ fun thread overflowed => by
     rw [stage] at overflowed
     split at overflowed <;> cases overflowed
   exact correct.unstuck state reached stuck
 · unfold State.Quiet at quiet
   push Not at quiet
   obtain ⟨thread, i, trying, ready⟩ := quiet
   obtain ⟨next, taken, output, -⟩ := step_of_ready rfl trying (by simpa using ready)
   have printed := head_sequence positive
    (output ▸ correct.ordered next ⟨_, Run.snoc .nil taken⟩)
   rw [stage] at trying
   split at trying <;> cases trying
   cases thread
   · exact other (by simpa [zeroEvenOdd, Printer.init] using ready)
   · cases printed
   · cases printed

theorem zeroEvenOdd_correct_iff (positive : 1 ≤ n) (counted : (n : ℤ) ≤ intMax) (flag : ℤ) :
 (zeroEvenOdd n).Correct flag n ↔ flag = 0 ∧ (n : ℤ) + 2 ≤ intMax := by
 constructor
 · intro correct
   by_cases zero : flag = 0
   · subst zero
     exact ⟨rfl, not_lt.mp fun large => not_correct_of_large counted large correct⟩
   · exact absurd correct (not_correct_of_flag positive zero)
 · rintro ⟨rfl, fits⟩
   exact zeroEvenOdd_correct fits

/-- `NumberPrinter` always gets stuck.  `ZeroEvenOdd` is correct when its flag, which the
constructor does not set, is zero at first, and the last counters are still `int`s. -/
theorem printers_correct_iff (positive : 1 ≤ n) (counted : (n : ℤ) ≤ intMax) (flag : ℤ) :
 ¬ (numberPrinter n).Correct ⟨1, true⟩ n ∧
  ((zeroEvenOdd n).Correct flag n ↔ flag = 0 ∧ (n : ℤ) + 2 ≤ intMax) := by
 refine ⟨fun correct => ?_, zeroEvenOdd_correct_iff positive counted flag⟩
 obtain ⟨state, reached, stuck⟩ := numberPrinter_exists_stuck positive counted
 exact correct.unstuck state reached stuck

theorem printers_correct_iff_three : ¬ (numberPrinter 3).Correct ⟨1, true⟩ 3 ∧
 ((zeroEvenOdd 3).Correct 0 3 ↔ (0 : ℤ) = 0 ∧ ((3 : ℕ) : ℤ) + 2 ≤ intMax) :=
 printers_correct_iff (by decide) (by decide) 0

/-- With one number, `zero` of `NumberPrinter` prints nothing and `odd` waits for it; with the
flag at one, `zero` and `odd` of `ZeroEvenOdd` wait for each other. -/
theorem not_correct_one :
 ¬ (numberPrinter 1).Correct ⟨1, true⟩ 1 ∧ ¬ (zeroEvenOdd 1).Correct 1 1 := by
 refine ⟨fun correct => ?_, not_correct_of_flag (Nat.le_refl 1) (by decide)⟩
 obtain ⟨state, reached, stuck⟩ := numberPrinter_exists_stuck (Nat.le_refl 1) (by decide)
 exact correct.unstuck state reached stuck

end MyNotes.Algorithms.ZeroEvenOdd
