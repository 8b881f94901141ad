/-
The barrier of lab 6, over a mutex and a condition variable.

There is one thread for each of the `nthread` that the barrier waits for.  A thread that is
woken, by a broadcast or for no reason, has to take the mutex again before it goes on, and it
goes on behind the `if`.
-/

import MyNotes.Library.Transition
import Mathlib.Data.Fintype.Card

namespace MyNotes.Xv6.Barrier

open Library.Transition Function Option Finset

variable {Tid : Type}

inductive Stage where
 | outside
 | locking
 | locked
 | counted
 | waiting
 | woken
 | leaving
 deriving DecidableEq

/-- `bstate`, where every thread is, and how often it entered and returned. -/
structure State (Tid : Type) where
 nthread : ℕ
 round : ℕ
 barrierMutex : Option Tid
 stage : Tid → Stage
 entered : Tid → ℕ
 returned : Tid → ℕ

inductive Event (Tid : Type) where
 | call (tid : Tid)
 | lock (tid : Tid)
 | count (tid : Tid)
 /-- `pthread_cond_wait`, or the broadcast of the last thread. -/
 | test (tid : Tid)
 | spurious (tid : Tid)
 | relock (tid : Tid)
 | unlock (tid : Tid)

def start : State Tid where
 nthread := 0
 round := 0
 barrierMutex := none
 stage _ := .outside
 entered _ := 0
 returned _ := 0

namespace State

variable [DecidableEq Tid]

def move (self : State Tid) (tid : Tid) (stage : Stage) : State Tid :=
 { self with stage := update self.stage tid stage }

def wake : Stage → Stage
 | .waiting => .woken
 | stage => stage

variable [Fintype Tid]

def step (self : State Tid) : Event Tid → Option (State Tid)
 | .call tid =>
  if self.stage tid = .outside then some (self.move tid .locking) else none
 | .lock tid =>
  if self.stage tid = .locking ∧ self.barrierMutex.isNone then
   some { self.move tid .locked with barrierMutex := some tid }
  else none
 | .count tid =>
  if self.stage tid = .locked then
   some { self.move tid .counted with
    nthread := self.nthread + 1
    entered := update self.entered tid (self.entered tid + 1) }
  else none
 | .test tid =>
  if self.stage tid = .counted then
   if self.nthread ≠ Fintype.card Tid then
    some { self.move tid .waiting with barrierMutex := none }
   else
    some { self with
     stage := update (wake ∘ self.stage) tid .leaving
     round := self.round + 1
     nthread := 0 }
  else none
 | .spurious tid =>
  if self.stage tid = .waiting then some (self.move tid .woken) else none
 | .relock tid =>
  if self.stage tid = .woken ∧ self.barrierMutex.isNone then
   some { self.move tid .leaving with barrierMutex := some tid }
  else none
 | .unlock tid =>
  if self.stage tid = .leaving then
   some { self.move tid .outside with
    barrierMutex := none
    returned := update self.returned tid (self.returned tid + 1) }
  else none

def avoids (_ : State Tid) : Event Tid → Prop
 | .spurious _ => False
 | _ => True

instance (state : State Tid) : ∀ event, Decidable (state.avoids event)
 | .spurious _ => .isFalse id
 | .call _ => .isTrue trivial
 | .lock _ => .isTrue trivial
 | .count _ => .isTrue trivial
 | .test _ => .isTrue trivial
 | .relock _ => .isTrue trivial
 | .unlock _ => .isTrue trivial

structure Synchronised (state : State Tid) : Prop where
 /-- Who has returned from a call has waited for all threads to enter theirs. -/
 order : ∀ tid other, state.returned tid ≤ state.entered other
 round : state.barrierMutex = none →
  (∀ tid, state.round ≤ state.entered tid) ∧ ∃ tid, state.entered tid = state.round
 nthread : state.nthread =
  (Finset.univ.filter fun tid => state.entered tid = state.round + 1).card

/-! ### Runs without spurious wake-ups -/

def inRound : Stage → Bool
 | .counted => true
 | .waiting => true
 | _ => false

def holdsMutex : Stage → Bool
 | .locked => true
 | .counted => true
 | .leaving => true
 | _ => false

/-- The thread still has to return from the last round. -/
def late : Stage → Bool
 | .woken => true
 | .leaving => true
 | _ => false

structure Consistent (state : State Tid) : Prop where
 mutex : ∀ tid, holdsMutex (state.stage tid) = true ↔ state.barrierMutex = some tid
 entered : ∀ tid, state.entered tid =
  state.round + if inRound (state.stage tid) then 1 else 0
 returned : ∀ tid, (state.returned tid + if late (state.stage tid) then 1 else 0) = state.round
 nthread : state.nthread =
  (Finset.univ.filter fun tid => inRound (state.stage tid) = true).card
 /-- The last thread to enter has not tested yet. -/
 last : state.nthread = Fintype.card Tid → ∃ tid, state.stage tid = .counted

variable {state next : State Tid} {tid : Tid} {event : Event Tid}

omit [DecidableEq Tid] in
theorem start_consistent [Nonempty Tid] : (start : State Tid).Consistent where
 mutex _ := ⟨nofun, nofun⟩
 entered _ := rfl
 returned _ := rfl
 nthread := (card_eq_zero.mpr
  (filter_false_of_mem fun _ _ => Bool.false_ne_true)).symm
 last all := absurd all (Nat.ne_of_lt Fintype.card_pos)

variable {stage : Stage}

section

variable (consistent : state.Consistent)
include consistent

theorem Consistent.moved {mutex : Option Tid} {returned : Tid → ℕ}
 (same : inRound stage = inRound (state.stage tid))
 (mutexOk : ∀ other, holdsMutex (update state.stage tid stage other) = true ↔
  mutex = some other) (returnedOk : ∀ other, (returned other +
  if late (update state.stage tid stage other) then 1 else 0) = state.round)
 (last : state.stage tid = .counted → state.nthread ≠ Fintype.card Tid) :
 Consistent { state with
  stage := update state.stage tid stage
  barrierMutex := mutex
  returned := returned } := by
 have sameRound (other : Tid) :
  inRound (update state.stage tid stage other) = inRound (state.stage other) := by
  by_cases here : other = tid
  · rw [here, update_self, same]
  · rw [update_of_ne here]
 refine ⟨mutexOk, ?_, returnedOk, ?_, ?_⟩
 · intro other
   simp only [sameRound]
   exact consistent.entered other
 · simp only [sameRound]
   exact consistent.nthread
 · intro all
   obtain ⟨other, counted⟩ := consistent.last all
   refine ⟨other, ?_⟩
   have elsewhere : other ≠ tid := fun here => last (here ▸ counted) all
   simp_all

theorem Consistent.kept (same : inRound stage = inRound (state.stage tid))
 (mutex : holdsMutex stage = holdsMutex (state.stage tid))
 (debt : late stage = late (state.stage tid)) (last : state.stage tid ≠ .counted) :
 (state.move tid stage).Consistent := by
 refine consistent.moved same ?_ ?_ fun counted => absurd counted last
 · intro other
   by_cases here : other = tid
   · rw [here, update_self, mutex]
     exact consistent.mutex tid
   · rw [update_of_ne here]
     exact consistent.mutex other
 · intro other
   by_cases here : other = tid
   · rw [here, update_self, debt]
     exact consistent.returned tid
   · rw [update_of_ne here]
     exact consistent.returned other

theorem Consistent.takes (free : state.barrierMutex = none)
 (same : inRound stage = inRound (state.stage tid)) (holds : holdsMutex stage = true)
 (debt : late stage = late (state.stage tid)) (last : state.stage tid ≠ .counted) :
 Consistent { state.move tid stage with barrierMutex := some tid } := by
 refine consistent.moved same ?_ ?_ fun counted => absurd counted last
 · intro other
   by_cases here : other = tid
   · simp_all
   · rw [update_of_ne here, consistent.mutex other, free]
     grind
 · intro other
   by_cases here : other = tid
   · rw [here, update_self, debt]
     exact consistent.returned tid
   · rw [update_of_ne here]
     exact consistent.returned other

theorem Consistent.released {stage : Stage} (held : holdsMutex (state.stage tid) = true)
 (free : holdsMutex stage = false) (other : Tid) :
 holdsMutex (update state.stage tid stage other) = true ↔
  (none : Option Tid) = some other := by
 refine iff_of_false ?_ nofun
 by_cases here : other = tid
 · simp_all
 · rw [update_of_ne here, consistent.mutex other, (consistent.mutex tid).mp held]
   grind

theorem Consistent.count (locked : state.stage tid = .locked) :
 Consistent { state.move tid .counted with
  nthread := state.nthread + 1
  entered := update state.entered tid (state.entered tid + 1) } := by
 refine ⟨?_, ?_, ?_, ?_, fun _ => ⟨tid, update_self _ _ _⟩⟩
 · intro other
   by_cases here : other = tid
   · subst here
     have holds := consistent.mutex other
     rw [locked] at holds
     simp only [move, update_self]
     exact holds
   · simp only [move, update_of_ne here]
     exact consistent.mutex other
 · intro other
   by_cases here : other = tid
   · subst here
     have entered := consistent.entered other
     rw [locked] at entered
     simp only [move, update_self, inRound, if_true, entered, Bool.false_eq_true,
      if_false, Nat.add_zero]
   · simp only [move, update_of_ne here]
     exact consistent.entered other
 · intro other
   by_cases here : other = tid
   · subst here
     have returned := consistent.returned other
     rw [locked] at returned
     simp only [move, update_self]
     exact returned
   · simp only [move, update_of_ne here]
     exact consistent.returned other
 · have absent : tid ∉ univ.filter fun other => inRound (state.stage other) = true := by
    rw [mem_filter, locked]
    exact fun member => Bool.false_ne_true member.2
   have more := card_insert_of_notMem absent
   rw [← consistent.nthread] at more
   rw [← more]
   refine congrArg card (ext fun other => ?_)
   rw [mem_insert, mem_filter, mem_filter]
   by_cases here : other = tid
   · refine iff_of_true (.inl here) ⟨mem_univ other, ?_⟩
     change inRound (update state.stage tid .counted other) = true
     rw [here, update_self]
     rfl
   · refine (or_iff_right here).trans (and_congr_right fun _ => ?_)
     change _ ↔ inRound (update state.stage tid .counted other) = true
     rw [update_of_ne here]

theorem Consistent.broadcast [Nonempty Tid] (counted : state.stage tid = .counted)
 (all : state.nthread = Fintype.card Tid) :
 Consistent { state with
  stage := update (wake ∘ state.stage) tid .leaving
  round := state.round + 1
  nthread := 0 } := by
 have everyone : ∀ other, inRound (state.stage other) = true := by
  have full := card_eq_iff_eq_univ _ |>.mp (consistent.nthread.symm.trans all)
  intro other
  have member := mem_univ other
  rw [← full] at member
  exact (mem_filter.mp member).2
 have mine := (consistent.mutex tid).mp (by rw [counted]; rfl)
 have others (other : Tid) (elsewhere : other ≠ tid) : state.stage other = .waiting := by
  have entered := everyone other
  have free : holdsMutex (state.stage other) ≠ true := by
   intro holds
   have yours := (consistent.mutex other).mp holds
   exact elsewhere (some.inj (yours.symm.trans mine))
  revert entered free
  cases state.stage other <;> decide
 have stages : update (wake ∘ state.stage) tid .leaving =
  fun other => if other = tid then .leaving else .woken := by
  funext other
  by_cases here : other = tid
  · rw [here, update_self, if_pos rfl]
  · rw [update_of_ne here, if_neg here, comp_apply, others other here]
    rfl
 rw [stages]
 refine ⟨fun other => ?_, fun other => ?_, fun other => ?_, ?_,
  fun none => absurd none (Nat.ne_of_lt Fintype.card_pos)⟩
 · dsimp only
   rw [mine]
   split
   · rename_i here
     exact iff_of_true rfl (congrArg some here.symm)
   · rename_i elsewhere
     exact iff_of_false Bool.false_ne_true fun equal => elsewhere (some.inj equal).symm
 · have entered := consistent.entered other
   rw [if_pos (everyone other)] at entered
   dsimp only
   split <;> exact entered
 · have returned := consistent.returned other
   have prompt : late (state.stage other) = false := by
    have entered := everyone other
    revert entered
    cases state.stage other <;> decide
   rw [prompt] at returned
   dsimp only
   split <;> exact congrArg (· + 1) returned
 · refine (card_eq_zero.mpr (filter_false_of_mem fun other _ => ?_)).symm
   dsimp only
   split <;> exact Bool.false_ne_true

theorem Consistent.step [Nonempty Tid] (avoids : state.avoids event)
 (taken : state.step event = some next) : next.Consistent := by
 cases event with
 | call tid =>
  obtain ⟨outside, same⟩ := ite_none_right_eq_some.mp taken
  cases same
  apply consistent.kept <;> rw [outside] <;> first | rfl | exact nofun
 | lock tid =>
  obtain ⟨⟨locking, free⟩, same⟩ := ite_none_right_eq_some.mp taken
  cases same
  apply consistent.takes (isNone_iff_eq_none.mp free) <;> try rw [locking]
  all_goals first | rfl | exact nofun
 | count tid =>
  obtain ⟨locked, same⟩ := ite_none_right_eq_some.mp taken
  cases same
  exact consistent.count locked
 | test tid =>
  obtain ⟨counted, same⟩ := ite_none_right_eq_some.mp taken
  split at same
  · rename_i missing
    cases same
    have mine : holdsMutex (state.stage tid) = true := by rw [counted]; rfl
    refine consistent.moved (by rw [counted]; rfl) (consistent.released mine rfl) ?_
     fun _ => missing
    intro other
    by_cases here : other = tid
    · have returned := consistent.returned other
      rw [here, counted] at returned
      rw [here, update_self]
      exact returned
    · rw [update_of_ne here]
      exact consistent.returned other
  · rename_i all
    cases same
    exact consistent.broadcast counted (not_not.mp all)
 | spurious tid => exact avoids.elim
 | relock tid =>
  obtain ⟨⟨woken, free⟩, same⟩ := ite_none_right_eq_some.mp taken
  cases same
  apply consistent.takes (isNone_iff_eq_none.mp free) <;> try rw [woken]
  all_goals first | rfl | exact nofun
 | unlock tid =>
  obtain ⟨leaving, same⟩ := ite_none_right_eq_some.mp taken
  cases same
  have mine : holdsMutex (state.stage tid) = true := by rw [leaving]; rfl
  refine consistent.moved (by rw [leaving]; rfl) (consistent.released mine rfl) ?_
   fun counted => by cases leaving.symm.trans counted
  intro other
  by_cases here : other = tid
  · have returned := consistent.returned other
    rw [here, leaving] at returned
    rw [here, update_self, update_self]
    exact returned
  · rw [update_of_ne here, update_of_ne here]
    exact consistent.returned other

omit [DecidableEq Tid] in
theorem Consistent.synchronised : state.Synchronised where
 order tid other := by
  have returned := consistent.returned tid
  have entered := consistent.entered other
  omega
 round free := by
  refine ⟨fun tid => by rw [consistent.entered]; exact Nat.le_add_right _ _, ?_⟩
  have missing : ∃ tid, inRound (state.stage tid) = false := by
   by_contra all
   have full : ∀ tid, inRound (state.stage tid) = true := fun tid =>
    Bool.not_eq_false _ ▸ fun outside => all ⟨tid, outside⟩
   have card : state.nthread = Fintype.card Tid := by
    rw [consistent.nthread, filter_true_of_mem fun tid _ => full tid]
    rfl
   obtain ⟨tid, counted⟩ := consistent.last card
   have mine := (consistent.mutex tid).mp (by rw [counted]; rfl)
   cases mine.symm.trans free
  obtain ⟨tid, outside⟩ := missing
  refine ⟨tid, ?_⟩
  rw [consistent.entered, outside]
  rfl
 nthread := by
  rw [consistent.nthread]
  congr 1
  ext tid
  simp only [mem_filter, mem_univ, true_and, consistent.entered]
  cases inRound (state.stage tid) <;> simp

end

/-- Without spurious wake-ups the barrier keeps all threads in step. -/
theorem barrier_synchronises [Nonempty Tid] {events : List (Event Tid)}
 (run : Run (Guarded avoids (ofFunction step)) start events state) : state.Synchronised := by
 have consistent : state.Consistent :=
  run.invariant start_consistent fun _ _ _ before taken => before.step taken.1 taken.2
 exact consistent.synchronised

theorem barrier_synchronises_two :
 ∃ state : State Bool, state.returned true = 1 ∧ state.Synchronised := by
 obtain ⟨state, same, returned⟩ : ∃ state, replay (restrict avoids step) (start : State Bool)
  [.call true, .lock true, .count true, .test true, .call false, .lock false, .count false,
   .test false, .unlock false, .relock true, .unlock true] = some state ∧
   state.returned true = 1 := ⟨_, rfl, rfl⟩
 exact ⟨state, returned, barrier_synchronises (Run.of_replay same)⟩

/-- A thread that is woken for no reason returns before the other has called. -/
theorem spurious_wake_up_returns : ∃ state : State Bool, ∃ events,
 Run (ofFunction step) start events state ∧ state.stage false = .outside ∧
  state.entered false = 0 ∧ state.returned true = 1 ∧ ¬ state.Synchronised := by
 obtain ⟨state, same, outside, entered, returned⟩ : ∃ state,
  replay step (start : State Bool)
   [.call true, .lock true, .count true, .test true, .spurious true, .relock true,
    .unlock true] = some state ∧
   state.stage false = .outside ∧ state.entered false = 0 ∧ state.returned true = 1 :=
  ⟨_, rfl, rfl, rfl, rfl⟩
 refine ⟨state, _, Run.of_replay_all same, outside, entered, returned, ?_⟩
 intro synchronised
 have order := synchronised.order true false
 omega

end State

end MyNotes.Xv6.Barrier
