/-
Machines that are called again and again: a call returns an item or nothing, and leaves a
state either way.
-/

import Mathlib.Logic.Function.Iterate
import MyNotes.Library.PullIterator

namespace MyNotes.Library.Cursor

open Library.PullIterator

variable {State Item : Type*}

def after (next : State → Option Item × State) (calls : ℕ) (state : State) : State :=
 (fun now => (next now).2)^[calls] state

/-- The calls return the items, and every call behind them returns nothing. -/
def Yields (next : State → Option Item × State) (state : State) (items : List Item) : Prop :=
 ∀ call : ℕ, (next (after next call state)).1 = items[call]?

/-- The calls return the items, and the next call returns nothing. -/
def Drains (next : State → Option Item × State) (state : State) (items : List Item) : Prop :=
 ∀ call ≤ items.length, (next (after next call state)).1 = items[call]?

variable {next : State → Option Item × State} {state : State} {item : Item} {items : List Item}

theorem after_succ (calls : ℕ) : after next (calls + 1) state = after next calls (next state).2 :=
 Function.iterate_succ_apply _ _ _

theorem Yields.drains (yields : Yields next state items) : Drains next state items :=
 fun call _ => yields call

theorem yields_cons : Yields next state (item :: items) ↔
 (next state).1 = some item ∧ Yields next (next state).2 items := by
 constructor
 · intro yields
   refine ⟨yields 0, fun call => ?_⟩
   rw [← after_succ]
   exact yields (call + 1)
 · intro both call
   cases call with
   | zero => exact both.1
   | succ call =>
    rw [after_succ]
    exact both.2 call

theorem after_invariant (holds : State → Prop) (preserved : ∀ now, holds now → holds (next now).2)
 (calls : ℕ) (now : holds state) : holds (after next calls state) := by
 induction calls generalizing state with
 | zero => exact now
 | succ calls ih =>
  rw [after_succ]
  exact ih (preserved state now)

theorem yields_nil_of (ended : State → Prop) (now : ended state)
 (returns : ∀ other, ended other → (next other).1 = none)
 (stays : ∀ other, ended other → ended (next other).2) : Yields next state [] :=
 fun call => returns _ (after_invariant ended stays call now)

theorem yields_of_list (rest : State → List Item)
 (ended : ∀ now, rest now = [] → next now = (none, now))
 (more : ∀ now item items, rest now = item :: items →
  (next now).1 = some item ∧ rest (next now).2 = items) : Yields next state (rest state) := by
 generalize left : rest state = items
 induction items generalizing state with
 | nil =>
  refine yields_nil_of (fun now => rest now = []) left ?_ ?_
  · intro now empty
    rw [ended now empty]
  · simp_all
 | cons item items ih =>
  obtain ⟨returned, later⟩ := more state item items left
  exact yields_cons.mpr ⟨returned, ih later⟩

theorem drains_nil : Drains next state [] ↔ (next state).1 = none := by
 constructor
 · intro drains
   exact drains 0 (Nat.le_refl 0)
 · intro ended call bound
   rw [Nat.le_zero.mp bound]
   exact ended

theorem drains_cons : Drains next state (item :: items) ↔
 (next state).1 = some item ∧ Drains next (next state).2 items := by
 constructor
 · intro drains
   refine ⟨drains 0 (Nat.zero_le _), fun call bound => ?_⟩
   rw [← after_succ]
   exact drains (call + 1) (Nat.succ_le_succ bound)
 · intro both call bound
   cases call with
   | zero => exact both.1
   | succ call =>
    rw [after_succ]
    exact both.2 call (Nat.le_of_succ_le_succ bound)

theorem Drains.unique {others : List Item} (first : Drains next state items)
 (second : Drains next state others) : items = others := by
 induction items generalizing state others with
 | nil =>
  cases others with
  | nil => rfl
  | cons other rest =>
   have ended := drains_nil.mp first
   rw [(drains_cons.mp second).1] at ended
   cases ended
 | cons item items ih =>
  obtain ⟨returned, later⟩ := drains_cons.mp first
  cases others with
  | nil =>
   rw [drains_nil.mp second] at returned
   cases returned
  | cons other rest =>
   obtain ⟨otherReturned, otherLater⟩ := drains_cons.mp second
   grind

/-- A machine that follows another one, call by call. -/
structure Follows {Other OtherItem : Type*} (next : State → Option Item × State)
 (other : Other → Option OtherItem × Other) (give : Item → OtherItem)
 (related : State → Other → Prop) : Prop where
 returns : ∀ state now, related state now → (other now).1 = (next state).1.map give
 step : ∀ state now, related state now → related (next state).2 (other now).2

section Follows

variable {Other OtherItem : Type*} {other : Other → Option OtherItem × Other}
variable {give : Item → OtherItem} {related : State → Other → Prop} {now : Other}

theorem Follows.after (follows : Follows next other give related) (start : related state now)
 (calls : ℕ) : related (after next calls state) (Cursor.after other calls now) := by
 induction calls generalizing state now with
 | zero => exact start
 | succ calls ih =>
  rw [after_succ, after_succ]
  exact ih (follows.step state now start)

theorem Follows.drains (follows : Follows next other give related) (start : related state now)
 (drains : Drains next state items) : Drains other now (items.map give) := by
 intro call bound
 rw [List.length_map] at bound
 rw [follows.returns _ _ (follows.after start call), drains call bound, List.getElem?_map]

end Follows

/-! ### Pulled iterators -/

/-- A pulled iterator, with the state that is left behind its end. -/
def pull (next : State → Option (Item × State)) (ended : State → State) (state : State) :
 Option Item × State :=
 match next state with
 | some (item, later) => (some item, later)
 | none => (none, ended state)

section Pull

variable {next : State → Option (Item × State)} {ended : State → State}

theorem pull_some {later : State} (pulled : next state = some (item, later)) :
 pull next ended state = (some item, later) := by
 rw [pull, pulled]

theorem pull_none (stopped : next state = none) : pull next ended state = (none, ended state) := by
 rw [pull, stopped]

theorem drains_pull (emits : Emits next state items) : Drains (pull next ended) state items := by
 induction emits with
 | done stopped =>
  rw [drains_nil, pull_none stopped]
 | more pulled _ ih =>
  rw [drains_cons, pull_some pulled]
  exact ⟨rfl, ih⟩

theorem emits_after_pull (stays : ∀ now, next now = none → next (ended now) = none)
 (emits : Emits next state items) (calls : ℕ) :
 Emits next (after (pull next ended) calls state) (items.drop calls) := by
 induction calls generalizing state items with
 | zero => exact emits
 | succ calls ih =>
  rw [after_succ]
  cases emits with
  | done stopped =>
   rw [pull_none stopped, List.drop_nil, ← List.drop_nil (i := calls)]
   exact ih (.done (stays _ stopped))
  | more pulled later =>
   rw [pull_some pulled, List.drop_succ_cons]
   exact ih later

theorem shows_after_pull {Mark : Type*} {mark : State → Mark} {last : Mark}
 {items : List (Item × Mark)} (stays : ∀ now, next now = none → next (ended now) = none)
 (atEnd : ∀ now, mark (ended now) = last) (emits : Emits (marked next mark) state items)
 (calls : ℕ) :
 mark (after (pull next ended) (calls + 1) state) = (items[calls]?.map Prod.snd).getD last := by
 induction calls generalizing state items with
 | zero =>
  rw [after_succ]
  cases emits with
  | done stopped =>
   rw [pull_none (marked_eq_none.mp stopped)]
   exact atEnd state
  | more pulled later =>
   obtain ⟨result, given, same⟩ := Option.map_eq_some_iff.mp pulled
   cases same
   rw [pull_some given]
   rfl
 | succ calls ih =>
  rw [after_succ]
  cases emits with
  | done stopped =>
   rw [pull_none (marked_eq_none.mp stopped)]
   exact ih (.done (marked_eq_none.mpr (stays _ (marked_eq_none.mp stopped))))
  | more pulled later =>
   obtain ⟨result, given, same⟩ := Option.map_eq_some_iff.mp pulled
   cases same
   rw [pull_some given]
   exact ih later

end Pull

/-! ### Machines that are set up again -/

structure Machine (Item : Type*) where
 State : Type
 start : State
 init : State → State
 next : State → Option Item × State

namespace Machine

variable (machine : Machine Item)

def ran (calls : ℕ) : machine.State := after machine.next calls (machine.init machine.start)

/-- Set up again after some calls, the machine gives the items that it gave at first. -/
def Restarts (calls : ℕ) : Prop :=
 ∃ items, Drains machine.next (machine.init machine.start) items ∧
  Drains machine.next (machine.init (machine.ran calls)) items

variable {machine}

theorem restarts_iff {calls : ℕ} {others : List Item}
 (first : Drains machine.next (machine.init machine.start) items)
 (second : Drains machine.next (machine.init (machine.ran calls)) others) :
 machine.Restarts calls ↔ others = items := by
 constructor
 · intro restarts
   obtain ⟨same, again, more⟩ := restarts
   rw [first.unique again, second.unique more]
 · intro same
   exact ⟨items, first, same ▸ second⟩

theorem Restarts.drains {calls : ℕ} (restarts : machine.Restarts calls)
 (first : Drains machine.next (machine.init machine.start) items) :
 Drains machine.next (machine.init (machine.ran calls)) items := by
 obtain ⟨same, again, later⟩ := restarts
 rw [first.unique again]
 exact later

def ofList {Item : Type} (rows : List Item) : Machine Item where
 State := List Item
 start := []
 init _ := rows
 next
  | [] => (none, [])
  | row :: rest => (some row, rest)

theorem drains_ofList {Item : Type} (rows : List Item) : Drains (ofList rows).next rows rows := by
 have returns : ∀ rest : List Item, Drains (ofList rows).next rest rest := by
  intro rest
  induction rest with
  | nil => exact drains_nil.mpr rfl
  | cons row rest ih => exact drains_cons.mpr ⟨rfl, ih⟩
 exact returns rows

end Machine

end MyNotes.Library.Cursor
