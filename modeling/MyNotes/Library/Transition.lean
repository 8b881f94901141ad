/-
Labelled transition systems and their runs.

A run records its events, oldest first, so that a statement can speak about the
history of a state as well as about the state.  The rules here are the only
inductions over runs: an invariant is checked on one step and then used on
every reachable state.
-/

import Mathlib.Init

namespace MyNotes.Library.Transition

open List

variable {State Event : Type*}

inductive Run (step : State → Event → State → Prop) (start : State) :
 List Event → State → Prop
 | nil : Run step start [] start
 | snoc {events : List Event} {state next : State} {event : Event} :
  Run step start events state → step state event next →
  Run step start (events ++ [event]) next

/-- The steps whose event is allowed in the state they leave. -/
def Guarded (allowed : State → Event → Prop)
 (step : State → Event → State → Prop) :
 State → Event → State → Prop :=
 fun state event next => allowed state event ∧ step state event next

/-- The steps of a partial step function; a fault has no successor. -/
def ofFunction (step : State → Event → Option State) :
 State → Event → State → Prop :=
 fun state event next => step state event = some next

variable {step : State → Event → State → Prop} {start : State} {holds : State → Prop}
 {events : List Event} {final : State}

theorem Run.invariant (initial : holds start)
 (preserved : ∀ state event next,
  holds state → step state event next → holds next)
 {events : List Event} {final : State} (run : Run step start events final) :
 holds final := by
 induction run with
 | nil => exact initial
 | snoc _ taken ih => exact preserved _ _ _ ih taken

theorem Run.history {holds : List Event → State → Prop} (initial : holds [] start)
 (preserved : ∀ events state event next, Run step start events state →
  holds events state → step state event next → holds (events ++ [event]) next)
 (run : Run step start events final) :
 holds events final := by
 induction run with
 | nil => exact initial
 | snoc before taken ih => exact preserved _ _ _ _ before ih taken

theorem Run.mono {wider : State → Event → State → Prop}
 (include_step : ∀ state event next,
  step state event next → wider state event next) (run : Run step start events final) :
 Run wider start events final := by
 induction run with
 | nil => exact .nil
 | snoc _ taken ih => exact .snoc ih (include_step _ _ _ taken)

variable {allowed : State → Event → Prop}

theorem Run.of_guarded (run : Run (Guarded allowed step) start events final) :
 Run step start events final :=
 run.mono fun _ _ _ taken => taken.2

variable {state : State} {event : Event}

theorem Run.single {next : State} (taken : step state event next) : Run step state [event] next :=
 .snoc .nil taken

theorem Run.last (run : Run step start (events ++ [event]) final) :
 ∃ middle, Run step start events middle ∧ step middle event final := by
 generalize whole : events ++ [event] = all at run
 cases run with
 | nil => simp_all
 | snoc before taken =>
  obtain ⟨sameEvents, sameEvent⟩ := append_inj' whole rfl
  grind

variable {sound : State → Prop}

theorem Run.guarded_of_guarded {permitted : State → Event → Prop} (initial : sound start)
 (kept : ∀ state event next, sound state → allowed state event → step state event next →
  permitted state event ∧ sound next) (run : Run (Guarded allowed step) start events final) :
 Run (Guarded permitted step) start events final := by
 have both : Run (Guarded permitted step) start events final ∧ sound final := by
  induction run with
  | nil => exact ⟨.nil, initial⟩
  | snoc before taken ih =>
   obtain ⟨permit, next⟩ := kept _ _ _ ih.2 taken.1 taken.2
   exact ⟨.snoc ih.1 ⟨permit, taken.2⟩, next⟩
 exact both.1

theorem Run.trans {middle : State} {before after : List Event}
 (first : Run step start before middle) (second : Run step middle after final) :
 Run step start (before ++ after) final := by
 induction second with
 | nil => simpa using first
 | snoc _ taken ih =>
  rw [← append_assoc]
  exact .snoc ih taken

variable {step : State → Event → Option State}

theorem Run.unique {other : State} (run : Run (ofFunction step) start events final)
 (second : Run (ofFunction step) start events other) : final = other := by
 induction run generalizing other with
 | nil =>
  generalize whole : ([] : List Event) = all at second
  cases second with
  | nil => rfl
  | snoc _ _ =>
   simp_all
 | snoc _ taken ih =>
  obtain ⟨middle, before, otherTaken⟩ := second.last
  rw [← ih before] at otherTaken
  exact Option.some.inj (taken.symm.trans otherTaken)

theorem Run.guarded_snoc_iff {next : State}
 (run : Run (ofFunction step) start events state) (taken : step state event = some next) :
 Run (Guarded allowed (ofFunction step)) start (events ++ [event]) next ↔
  Run (Guarded allowed (ofFunction step)) start events state ∧ allowed state event := by
 constructor
 · intro guarded
   obtain ⟨middle, before, last⟩ := guarded.last
   have same := before.of_guarded.unique run
   subst same
   exact ⟨before, last.1⟩
 · intro both
   exact .snoc both.1 ⟨both.2, taken⟩

theorem Run.holds_iff_guarded (initial : sound start ∧ holds start)
 (preserved : ∀ state event next, sound state → step state event = some next → sound next)
 (kept : ∀ state event next, sound state → step state event = some next →
  (holds next ↔ holds state ∧ allowed state event))
 (run : Run (ofFunction step) start events final) :
 holds final ↔ Run (Guarded allowed (ofFunction step)) start events final := by
 have both : sound final ∧
  (holds final ↔ Run (Guarded allowed (ofFunction step)) start events final) := by
  induction run with
  | nil => exact ⟨initial.1, iff_of_true initial.2 .nil⟩
  | snoc before taken ih =>
   refine ⟨preserved _ _ _ ih.1 taken, ?_⟩
   rw [kept _ _ _ ih.1 taken, before.guarded_snoc_iff taken, ih.2]
 exact both.2

theorem Run.guarded_iff (run : Run (ofFunction step) start events final) :
 Run (Guarded allowed (ofFunction step)) start events final ↔
  ∀ before event state next, before ++ [event] <+: events →
   Run (ofFunction step) start before state → step state event = some next →
    allowed state event := by
 induction run with
 | nil =>
  refine iff_of_true .nil fun before event state next early _ _ => ?_
  simp_all
 | @snoc events state next event run taken ih =>
  rw [run.guarded_snoc_iff taken, ih]
  constructor
  · rintro ⟨earlier, here⟩ before other found later early reached stepped
    rcases prefix_concat_iff.mp early with whole | inside
    · obtain ⟨sameEvents, sameEvent⟩ := append_inj' whole rfl
      cases sameEvent
      subst sameEvents
      rw [reached.unique run]
      exact here
    · grind
  · intro every
    refine ⟨fun before other found later early => ?_,
     every events event state next (prefix_refl _) run taken⟩
    grind

theorem Run.guarded_prefix {before : List Event}
 (run : Run (Guarded allowed (ofFunction step)) start events final) (early : before <+: events)
 (reached : Run (ofFunction step) start before state) :
 Run (Guarded allowed (ofFunction step)) start before state := by
 induction run with
 | nil =>
  obtain rfl := prefix_nil.mp early
  rw [reached.unique .nil]
  exact .nil
 | snoc run taken ih =>
  rcases prefix_concat_iff.mp early with whole | inside
  · subst whole
    rw [reached.unique (Run.snoc run taken).of_guarded]
    exact .snoc run taken
  · exact ih inside

theorem Run.always_iff_guarded (initial : sound start)
 (holds_of_sound : ∀ state, sound state → holds state)
 (kept : ∀ state event next, sound state → step state event = some next →
  (allowed state event → sound next) ∧ (holds next → allowed state event))
 (run : Run (ofFunction step) start events final) :
 (∀ before state, before <+: events → Run (ofFunction step) start before state → holds state) ↔
  Run (Guarded allowed (ofFunction step)) start events final := by
 have sound_of_guarded : ∀ events state,
  Run (Guarded allowed (ofFunction step)) start events state → sound state := by
  intro events state guarded
  exact guarded.invariant initial fun _ _ _ before taken => (kept _ _ _ before taken.2).1 taken.1
 constructor
 · intro every
   induction run with
   | nil => exact .nil
   | snoc before taken ih =>
    have guarded := ih fun early state inside =>
     every early state (inside.trans (prefix_append _ _))
    have now := every _ _ (prefix_refl _) (before.snoc taken)
    exact .snoc guarded ⟨(kept _ _ _ (sound_of_guarded _ _ guarded) taken).2 now, taken⟩
 · intro guarded before state early reached
   exact holds_of_sound state (sound_of_guarded _ _ (guarded.guarded_prefix early reached))

/-! ### Replaying a list of events -/

/-- The state after a list of events; a fault ends the replay. -/
def replay (step : State → Event → Option State) (state : State) :
 List Event → Option State
 | [] => some state
 | event :: rest => (step state event).bind fun next => replay step next rest

/-- A step function cut down to the allowed events. -/
def restrict (allowed : State → Event → Prop) [∀ state event, Decidable (allowed state event)]
 (step : State → Event → Option State) (state : State) (event : Event) : Option State :=
 if allowed state event then step state event else none

theorem Run.of_replay_all (replayed : replay step start events = some final) :
 Run (ofFunction step) start events final := by
 induction events generalizing start with
 | nil =>
  cases replayed
  exact .nil
 | cons event rest ih =>
  obtain ⟨next, taken, later⟩ := Option.bind_eq_some_iff.mp replayed
  exact (Run.single taken).trans (ih later)

theorem Run.of_replay [∀ state event, Decidable (allowed state event)]
 (replayed : replay (restrict allowed step) start events = some final) :
 Run (Guarded allowed (ofFunction step)) start events final := by
 apply (Run.of_replay_all replayed).mono
 intro state event next taken
 unfold ofFunction restrict at taken
 split at taken
 · rename_i permitted
   exact ⟨permitted, taken⟩
 · cases taken

theorem replay_related {Other : Type*} {other : Other → Event → Option Other}
 {related : State → Other → Prop} (events : List Event)
 (preserved : ∀ left right, related left right → ∀ event ∈ events,
  Option.Rel related (step left event) (other right event))
 {left : State} {right : Other} (start : related left right) :
 Option.Rel related (replay step left events) (replay other right events) := by
 induction events generalizing left right with
 | nil => exact .some start
 | cons event rest ih =>
  simp only [replay]
  have one := preserved left right start event mem_cons_self
  generalize step left event = next at one ⊢
  generalize other right event = otherNext at one ⊢
  cases one with
  | none => exact .none
  | some kept =>
   simp_all

end MyNotes.Library.Transition
