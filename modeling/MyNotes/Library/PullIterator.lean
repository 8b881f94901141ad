/-
Iterators that are pulled: a state either is at its end, or gives an item and the state
after it.
-/

import Mathlib.Init

namespace MyNotes.Library.PullIterator

variable {State Item : Type*}

inductive Emits (next : State → Option (Item × State)) : State → List Item → Prop
 | done {state : State} (ended : next state = none) : Emits next state []
 | more {state after : State} {item : Item} {rest : List Item}
  (pulled : next state = some (item, after)) (later : Emits next after rest) :
  Emits next state (item :: rest)

variable {next : State → Option (Item × State)}

theorem Emits.unique {state : State} {items others : List Item} (first : Emits next state items)
 (second : Emits next state others) : items = others := by
 induction first generalizing others with
 | done ended =>
  cases second with
  | done _ => rfl
  | more pulled _ =>
   rw [ended] at pulled
   cases pulled
 | more pulled _ ih =>
  cases second with
  | done ended =>
   rw [ended] at pulled
   cases pulled
  | more otherPulled later =>
   grind

theorem Emits.congr {state other : State} {items : List Item} (emits : Emits next state items)
 (same : next other = next state) : Emits next other items := by
 cases emits with
 | done ended => exact .done (same.trans ended)
 | more pulled later => exact .more (same.trans pulled) later

/-- Items that come with a mark of the state behind them. -/
def marked {Mark : Type*} (next : State → Option (Item × State)) (mark : State → Mark)
 (state : State) : Option ((Item × Mark) × State) :=
 (next state).map fun result => ((result.1, mark result.2), result.2)

section Marked

variable {Mark : Type*} {mark : State → Mark} {state after : State} {item : Item}

theorem marked_some (pulled : next state = some (item, after)) :
 marked next mark state = some ((item, mark after), after) := by
 rw [marked, pulled]
 rfl

theorem marked_eq_none : marked next mark state = none ↔ next state = none :=
 Option.map_eq_none_iff

theorem Emits.of_marked {items : List (Item × Mark)}
 (emits : Emits (marked next mark) state items) : Emits next state (items.map Prod.fst) := by
 induction emits with
 | done ended => exact .done (marked_eq_none.mp ended)
 | more pulled _ ih =>
  obtain ⟨result, given, same⟩ := Option.map_eq_some_iff.mp pulled
  cases same
  exact .more given ih

end Marked

end MyNotes.Library.PullIterator
