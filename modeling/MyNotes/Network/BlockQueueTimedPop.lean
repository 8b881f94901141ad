/-
The timed `pop` of the blocking queue, among other calls on the queue.

A call holds the mutex of the queue from its first look at the queue to its return, and a timed
`pop` releases it only in `timewait`.  So what runs under the mutex is one step.  `timewait`
returns true after a broadcast or for no reason, and false after its deadline.
-/

import MyNotes.Library.Transition
import MyNotes.Network.BlockQueue

namespace MyNotes.Network.BlockQueueTimedPop

open Library.Transition Option Nat

/-! ### Deadlines -/

structure Timeval where
 tvSec : ℕ
 tvUsec : ℕ

structure Timespec where
 tvSec : ℕ
 tvNsec : ℕ

def Timeval.nanoseconds (self : Timeval) : ℕ := self.tvSec * 1000000000 + self.tvUsec * 1000

def Timespec.nanoseconds (self : Timespec) : ℕ := self.tvSec * 1000000000 + self.tvNsec

def Timespec.Normalised (self : Timespec) : Prop := self.tvNsec < 1000000000

/-- The time of day at a clock that counts nanoseconds. -/
def gettimeofday (clock : ℕ) : Timeval := ⟨clock / 1000000000, clock % 1000000000 / 1000⟩

/-- The deadline that `pop` gives to `timewait`. -/
def deadline (now : Timeval) (msTimeout : ℕ) : Timespec where
 tvSec := now.tvSec + msTimeout / 1000
 tvNsec := msTimeout % 1000 * 1000

/-- The deadline is in the normal form and the timeout behind the clock value. -/
def Exact (now : Timeval) (msTimeout : ℕ) : Prop :=
 (deadline now msTimeout).Normalised ∧
  (deadline now msTimeout).nanoseconds = now.nanoseconds + msTimeout * 1000000

theorem deadline_normalised (now : Timeval) (msTimeout : ℕ) :
 (deadline now msTimeout).Normalised := by
 unfold Timespec.Normalised deadline
 dsimp only
 omega

theorem exact_iff (now : Timeval) (msTimeout : ℕ) :
 Exact now msTimeout ↔ now.tvUsec = 0 ∧ msTimeout % 1000 = 0 := by
 unfold Exact
 rw [and_iff_right (deadline_normalised now msTimeout)]
 unfold Timespec.nanoseconds Timeval.nanoseconds deadline
 dsimp only
 omega

/-! ### Steps -/

variable {Tid T : Type}

/-- Where a thread is in a timed `pop`. -/
inductive Pc (T : Type) where
 | outside
 | called (now : Timeval) (msTimeout : ℕ)
 | waiting (now : Timeval) (msTimeout : ℕ)
 | woken (now : Timeval) (msTimeout : ℕ)
 | timedOut (now : Timeval) (msTimeout : ℕ)
 | returned (result : Bool) (item : Option T)

namespace Pc

/-- `timewait` is over after a broadcast. -/
def wake : Pc T → Pc T
 | waiting now msTimeout => woken now msTimeout
 | other => other

/-- The deadline that has been given to `timewait`. -/
def handed : Pc T → Option Timespec
 | waiting now msTimeout => some (deadline now msTimeout)
 | woken now msTimeout => some (deadline now msTimeout)
 | timedOut now msTimeout => some (deadline now msTimeout)
 | _ => none

end Pc

inductive Event (Tid T : Type) where
 | tick (duration : ℕ)
 /-- Another call on the queue. -/
 | call (call : QueueCall T)
 | enter (tid : Tid) (msTimeout : ℕ)
 | check (tid : Tid)
 | spurious (tid : Tid)
 | expire (tid : Tid)
 | resume (tid : Tid)

structure State (Tid T : Type) where
 queue : BlockQueue T
 clock : ℕ
 pc : Tid → Pc T

/-- Only `push` wakes the waiting threads, also if the queue is full. -/
def broadcasts : QueueCall T → Bool
 | .push _ => true
 | _ => false

namespace State

def start (array : List T) (clock : ℕ) : State Tid T := ⟨.new array, clock, fun _ => .outside⟩

def call (self : State Tid T) (call : QueueCall T) : Option (State Tid T) :=
 (self.queue.call call).map fun result =>
  { self with
   queue := result.2
   pc := fun tid => if broadcasts call then (self.pc tid).wake else self.pc tid }

variable [DecidableEq Tid]

section

variable (self : State Tid T)

def goto (tid : Tid) (pc : Pc T) : State Tid T :=
 { self with pc := Function.update self.pc tid pc }

/-- The end of `pop`, which takes the first element if there is one. -/
def take (tid : Tid) : Option (State Tid T) :=
 self.queue.pop.map fun result =>
  { self with queue := result.2 }.goto tid (.returned result.1.isSome result.1)

def step : Event Tid T → Option (State Tid T)
 | .tick duration => some { self with clock := self.clock + duration }
 | .call call => self.call call
 | .enter tid msTimeout =>
  match self.pc tid with
  | .outside | .returned _ _ =>
   some (self.goto tid (.called (gettimeofday self.clock) msTimeout))
  | _ => none
 | .check tid =>
  match self.pc tid with
  | .called now msTimeout =>
   if self.queue.mSize = 0 then some (self.goto tid (.waiting now msTimeout))
   else self.take tid
  | _ => none
 | .spurious tid =>
  match self.pc tid with
  | .waiting now msTimeout => some (self.goto tid (.woken now msTimeout))
  | _ => none
 | .expire tid =>
  match self.pc tid with
  | .waiting now msTimeout =>
   if (deadline now msTimeout).nanoseconds ≤ self.clock then
    some (self.goto tid (.timedOut now msTimeout))
   else none
  | _ => none
 | .resume tid =>
  match self.pc tid with
  | .woken _ _ => self.take tid
  | .timedOut _ _ => some (self.goto tid (.returned false none))
  | _ => none

/-- A step hands an exact deadline over, and a woken thread finds an element or is late. -/
def OnTime : Event Tid T → Prop
 | .check tid =>
  match self.pc tid with
  | .called now msTimeout =>
   self.queue.mSize = 0 → now.tvUsec = 0 ∧ msTimeout % 1000 = 0
  | _ => True
 | .resume tid =>
  match self.pc tid with
  | .woken now msTimeout =>
   self.queue.mSize = 0 → (deadline now msTimeout).nanoseconds ≤ self.clock
  | _ => True
 | _ => True

end

/-- After some of the events the queue was empty, and it was not earlier than the deadline. -/
def EmptyAfter (start : State Tid T) (events : List (Event Tid T)) (state : State Tid T)
 (deadline : Timespec) : Prop :=
 ∃ first rest middle, events = first ++ rest ∧ Run (ofFunction step) start first middle ∧
  Run (ofFunction step) middle rest state ∧ middle.queue.mSize = 0 ∧
   deadline.nanoseconds ≤ middle.clock

/-- What the timed `pop` promises of a step that is made after some events. -/
structure Promised (start : State Tid T) (before : List (Event Tid T)) (state : State Tid T)
 (event : Event Tid T) (next : State Tid T) : Prop where
 handed : ∀ tid now msTimeout, state.pc tid = .called now msTimeout →
  next.pc tid = .waiting now msTimeout → Exact now msTimeout
 late : ∀ tid item, next.pc tid = .returned false item → state.pc tid ≠ .returned false item →
  ∃ deadline, (state.pc tid).handed = some deadline ∧ EmptyAfter start before state deadline
 removed : ∀ tid, event = .check tid ∨ event = .resume tid → next.queue ≠ state.queue →
  ∃ item, next.pc tid = .returned true (some item) ∧
   state.queue.contents = item :: next.queue.contents

/-! ### What a step does -/

/-- The steps, one case for each way through the code. -/
inductive Effect (state : State Tid T) : Event Tid T → State Tid T → Prop
 | tick (duration : ℕ) :
  Effect state (.tick duration) { state with clock := state.clock + duration }
 | call {call : QueueCall T} {answer : QueueAnswer T} {queue : BlockQueue T}
  (called : state.queue.call call = some (answer, queue)) :
  Effect state (.call call) { state with
   queue := queue
   pc := fun tid => if broadcasts call then (state.pc tid).wake else state.pc tid }
 | enter (tid : Tid) (msTimeout : ℕ) :
  Effect state (.enter tid msTimeout)
   (state.goto tid (.called (gettimeofday state.clock) msTimeout))
 | wait {tid : Tid} {now : Timeval} {msTimeout : ℕ}
  (called : state.pc tid = .called now msTimeout) (empty : state.queue.mSize = 0) :
  Effect state (.check tid) (state.goto tid (.waiting now msTimeout))
 | first {next : State Tid T} {tid : Tid} {now : Timeval} {msTimeout : ℕ}
  (called : state.pc tid = .called now msTimeout) (filled : state.queue.mSize ≠ 0)
  (taken : state.take tid = some next) : Effect state (.check tid) next
 | spurious {tid : Tid} {now : Timeval} {msTimeout : ℕ}
  (waiting : state.pc tid = .waiting now msTimeout) :
  Effect state (.spurious tid) (state.goto tid (.woken now msTimeout))
 | expire {tid : Tid} {now : Timeval} {msTimeout : ℕ}
  (waiting : state.pc tid = .waiting now msTimeout)
  (past : (deadline now msTimeout).nanoseconds ≤ state.clock) :
  Effect state (.expire tid) (state.goto tid (.timedOut now msTimeout))
 | woken {next : State Tid T} {tid : Tid} {now : Timeval} {msTimeout : ℕ}
  (woken : state.pc tid = .woken now msTimeout) (taken : state.take tid = some next) :
  Effect state (.resume tid) next
 | timedOut {tid : Tid} {now : Timeval} {msTimeout : ℕ}
  (timedOut : state.pc tid = .timedOut now msTimeout) :
  Effect state (.resume tid) (state.goto tid (.returned false none))

variable {state next : State Tid T} {event : Event Tid T} {array : List T} {clock : ℕ}

theorem effect_of_step (taken : state.step event = some next) : Effect state event next := by
 cases event with
 | tick duration =>
  cases taken
  exact .tick duration
 | call call =>
  obtain ⟨⟨answer, queue⟩, called, rfl⟩ := map_eq_some_iff.mp taken
  exact .call called
 | enter tid msTimeout =>
  simp only [step] at taken
  split at taken <;> cases taken <;> exact .enter tid msTimeout
 | check tid =>
  simp only [step] at taken
  split at taken
  · rename_i now msTimeout called
    split at taken
    · rename_i empty
      cases taken
      exact .wait called empty
    · rename_i filled
      exact .first called filled taken
  · cases taken
 | spurious tid =>
  simp only [step] at taken
  split at taken
  · rename_i now msTimeout waiting
    cases taken
    exact .spurious waiting
  · cases taken
 | expire tid =>
  simp only [step] at taken
  split at taken
  · rename_i now msTimeout waiting
    obtain ⟨past, result⟩ := ite_none_right_eq_some.mp taken
    cases result
    exact .expire waiting past
  · cases taken
 | resume tid =>
  simp only [step] at taken
  split at taken
  · rename_i now msTimeout woken
    exact .woken woken taken
  · rename_i now msTimeout timedOut
    cases taken
    exact .timedOut timedOut
  · cases taken

@[simp]
theorem goto_self (state : State Tid T) (tid : Tid) (pc : Pc T) :
 (state.goto tid pc).pc tid = pc := Function.update_self ..

variable {tid other : Tid}

theorem goto_other (different : other ≠ tid) (pc : Pc T) :
 (state.goto tid pc).pc other = state.pc other := Function.update_of_ne different ..

/-- The end of `pop` on a sound queue. -/
inductive Took (state : State Tid T) (tid : Tid) (next : State Tid T) : Prop
 | nothing (empty : state.queue.mSize = 0)
  (same : next = state.goto tid (.returned false none))
 | item (item : T) (filled : state.queue.mSize ≠ 0)
  (contents : state.queue.contents = item :: next.queue.contents)
  (sound : next.queue.Sound)
  (same : next = { state with queue := next.queue }.goto tid (.returned true (some item)))

theorem took_of_take (sound : state.queue.Sound) (taken : state.take tid = some next) :
 Took state tid next := by
 unfold take at taken
 by_cases empty : state.queue.mSize = 0
 · rw [BlockQueue.pop_empty empty, map_some] at taken
   cases taken
   exact .nothing empty rfl
 · obtain ⟨item, rest, queue, split, popped, later, _, contents⟩ :=
    sound.pop (Nat.pos_of_ne_zero empty)
   rw [popped, map_some] at taken
   cases taken
   exact .item item empty (split.trans (congrArg (item :: ·) contents.symm)) later rfl

/-! ### Runs -/

variable {events : List (Event Tid T)}

theorem EmptyAfter.here {start : State Tid T} {deadline : Timespec}
 (run : Run (ofFunction step) start events state) (empty : state.queue.mSize = 0)
 (past : deadline.nanoseconds ≤ state.clock) : EmptyAfter start events state deadline :=
 ⟨events, [], state, (List.append_nil _).symm, run, .nil, empty, past⟩

theorem EmptyAfter.snoc {start : State Tid T} {events : List (Event Tid T)} {deadline : Timespec}
 (after : EmptyAfter start events state deadline) (taken : state.step event = some next) :
 EmptyAfter start (events ++ [event]) next deadline := by
 obtain ⟨first, rest, middle, split, before, later, empty, past⟩ := after
 refine ⟨first, rest ++ [event], middle, ?_, before, .snoc later taken, empty, past⟩
 rw [split, List.append_assoc]

theorem clock_le {middle : State Tid T} (run : Run (ofFunction step) middle events state) :
 middle.clock ≤ state.clock := by
 let holds : State Tid T → Prop := fun now => middle.clock ≤ now.clock
 have initial : holds middle := le_refl _
 refine run.invariant initial fun state event next before taken => le_trans before ?_
 cases effect_of_step taken with
 | tick duration => exact le_add_right _ _
 | first _ _ taken | woken _ taken =>
  obtain ⟨result, _, rfl⟩ := map_eq_some_iff.mp taken
  exact le_refl _
 | _ => exact le_refl _

/-- What holds of a state and of the events before it. -/
structure Kept (start : State Tid T) (events : List (Event Tid T)) (state : State Tid T) :
 Prop where
 sound : state.queue.Sound
 waiting : ∀ tid now msTimeout, state.pc tid = .waiting now msTimeout → state.queue.mSize = 0
 timedOut : ∀ tid now msTimeout, state.pc tid = .timedOut now msTimeout →
  EmptyAfter start events state (deadline now msTimeout)

theorem start_kept (filled : 0 < array.length) :
 Kept (start array clock : State Tid T) [] (start array clock) where
 sound := BlockQueue.new_sound filled
 waiting _ _ _ waiting := by cases waiting
 timedOut _ _ _ timedOut := by cases timedOut

theorem call_kept {queue later : BlockQueue T} {call : QueueCall T} {answer : QueueAnswer T}
 (sound : queue.Sound) (called : queue.call call = some (answer, later)) :
 later.Sound ∧ (broadcasts call = false → queue.mSize = 0 → later.mSize = 0) := by
 cases call with
 | push item =>
  refine ⟨?_, fun quiet => by cases quiet⟩
  by_cases room : queue.mSize < queue.mMaxSize
  · obtain ⟨pushed, result, pushedSound, _⟩ := sound.push item room
    simp only [BlockQueue.call, result, map_some] at called
    cases called
    exact pushedSound
  · simp only [BlockQueue.call, BlockQueue.push_full (Nat.not_lt.mp room),
     map_some] at called
    cases called
    exact sound
 | pop =>
  by_cases empty : queue.mSize = 0
  · simp only [BlockQueue.call, BlockQueue.pop_empty empty, map_some] at called
    simp_all
  · obtain ⟨_, _, popped, _, result, poppedSound, _⟩ := sound.pop (Nat.pos_of_ne_zero empty)
    simp only [BlockQueue.call, result, map_some] at called
    simp_all
 | front | back =>
  obtain ⟨_, _, same⟩ := map_eq_some_iff.mp called
  simp_all
 | clear =>
  cases called
  exact ⟨sound.clear, fun _ _ => rfl⟩
 | full | empty | size =>
  cases called
  exact ⟨sound, fun _ empty => empty⟩

@[simp]
theorem wake_ne_waiting (pc : Pc T) (now : Timeval) (msTimeout : ℕ) :
 pc.wake ≠ .waiting now msTimeout := by
 cases pc <;> exact fun same => by cases same

variable {pc : Pc T} {now : Timeval} {msTimeout : ℕ}

theorem wake_eq_timedOut (same : pc.wake = .timedOut now msTimeout) :
 pc = .timedOut now msTimeout := by
 cases pc with
 | timedOut => exact same
 | _ => cases same

section

variable {start : State Tid T} (kept : Kept start events state)
include kept

theorem Kept.goto {queue : BlockQueue T}
 (taken : state.step event = some ({ state with queue := queue }.goto tid pc)) (sound : queue.Sound)
 (empty : state.queue.mSize = 0 → queue.mSize = 0)
 (waiting : ∀ now msTimeout, pc = .waiting now msTimeout → queue.mSize = 0)
 (timedOut : ∀ now msTimeout, pc = .timedOut now msTimeout →
  EmptyAfter start events state (deadline now msTimeout)) :
 Kept start (events ++ [event]) ({ state with queue := queue }.goto tid pc) where
 sound := sound
 waiting other now msTimeout found := by
  by_cases own : other = tid
  · rw [own, goto_self] at found
    exact waiting now msTimeout found
  · rw [goto_other own] at found
    exact empty (kept.waiting other now msTimeout found)
 timedOut other now msTimeout found := by
  by_cases own : other = tid
  · rw [own, goto_self] at found
    exact (timedOut now msTimeout found).snoc taken
  · rw [goto_other own] at found
    exact (kept.timedOut other now msTimeout found).snoc taken

theorem Kept.after_take (stepped : state.step event = some next)
 (taken : state.take tid = some next) : Kept start (events ++ [event]) next := by
 cases took_of_take kept.sound taken with
 | nothing empty same =>
  subst same
  exact kept.goto stepped kept.sound id (fun _ _ same => by cases same)
   fun _ _ same => by cases same
 | item item filled contents sound same =>
  rw [same] at stepped ⊢
  exact kept.goto stepped sound (fun empty => absurd empty filled)
   (fun _ _ same => by cases same) fun _ _ same => by cases same

theorem Kept.after_step (run : Run (ofFunction step) start events state)
 (stepped : state.step event = some next) : Kept start (events ++ [event]) next := by
 cases effect_of_step stepped with
 | tick duration =>
  exact ⟨kept.sound, kept.waiting,
   fun tid now msTimeout found => (kept.timedOut tid now msTimeout found).snoc stepped⟩
 | @call call answer queue called =>
  obtain ⟨sound, quiet⟩ := call_kept kept.sound called
  refine ⟨sound, fun tid now msTimeout found => ?_, fun tid now msTimeout found => ?_⟩
  · split at found
    · simp_all
    · rename_i silent
      exact quiet (Bool.eq_false_iff.mpr silent) (kept.waiting tid now msTimeout found)
  · refine EmptyAfter.snoc (kept.timedOut tid now msTimeout ?_) stepped
    split at found
    · exact wake_eq_timedOut found
    · exact found
 | enter tid msTimeout =>
  exact kept.goto stepped kept.sound id (fun _ _ same => by cases same)
   fun _ _ same => by cases same
 | wait called empty =>
  exact kept.goto stepped kept.sound id (fun _ _ _ => empty) fun _ _ same => by cases same
 | first called filled taken => exact kept.after_take stepped taken
 | spurious waiting =>
  exact kept.goto stepped kept.sound id (fun _ _ same => by cases same)
   fun _ _ same => by cases same
 | @expire tid now msTimeout waiting past =>
  refine kept.goto stepped kept.sound id (fun _ _ same => by cases same) ?_
  intro _ _ same
  cases same
  exact .here run (kept.waiting tid now msTimeout waiting) past
 | woken woken taken => exact kept.after_take stepped taken
 | timedOut timedOut =>
  exact kept.goto stepped kept.sound id (fun _ _ same => by cases same)
   fun _ _ same => by cases same

end

theorem kept_of_run (filled : 0 < array.length)
 (run : Run (ofFunction step) (start array clock) events state) :
 Kept (start array clock) events state :=
 run.history (start_kept filled) fun _ _ _ _ before kept taken => kept.after_step before taken

/-! ### The promise of one step -/

theorem goto_cases {found : Pc T} (here : (state.goto tid pc).pc other = found)
 (before : state.pc other ≠ found) : other = tid ∧ pc = found := by
 by_cases own : other = tid
 · simp_all
 · rw [goto_other own] at here
   exact absurd here before

section

variable (sound : state.queue.Sound)
include sound

theorem take_late {item : Option T} (taken : state.take tid = some next)
 (returned : next.pc other = .returned false item)
 (before : state.pc other ≠ .returned false item) :
 other = tid ∧ state.queue.mSize = 0 := by
 cases took_of_take sound taken with
 | nothing empty same =>
  subst same
  exact ⟨(goto_cases returned before).1, empty⟩
 | item found _ _ _ same =>
  rw [same] at returned
  have pc := (goto_cases returned before).2
  cases pc

theorem take_not_waiting (taken : state.take tid = some next)
 (before : state.pc other ≠ .waiting now msTimeout) : next.pc other ≠ .waiting now msTimeout := by
 intro waiting
 cases took_of_take sound taken with
 | nothing _ same | item _ _ _ _ same =>
  rw [same] at waiting
  have pc := (goto_cases waiting before).2
  cases pc

variable (stepped : state.step event = some next)
include stepped

theorem handed_wait (called : state.pc tid = .called now msTimeout)
 (waiting : next.pc tid = .waiting now msTimeout) : event = .check tid ∧ state.queue.mSize = 0 := by
 have before : state.pc tid ≠ .waiting now msTimeout := by
  rw [called]
  exact fun same => by cases same
 cases effect_of_step stepped with
 | tick => exact absurd waiting before
 | call _ =>
  dsimp only at waiting
  rw [called] at waiting
  split at waiting <;> cases waiting
 | @wait other now' ms' found empty =>
  exact ⟨congrArg Event.check (goto_cases waiting before).1.symm, empty⟩
 | first _ _ taken | woken _ taken =>
  exact absurd waiting (take_not_waiting sound taken before)
 | enter | spurious | expire | timedOut =>
  have pc := (goto_cases waiting before).2
  cases pc

theorem late_cases {item : Option T} (returned : next.pc tid = .returned false item)
 (before : state.pc tid ≠ .returned false item) :
 ∃ now msTimeout, state.pc tid = .timedOut now msTimeout ∨
  event = .resume tid ∧ state.pc tid = .woken now msTimeout ∧ state.queue.mSize = 0 := by
 cases effect_of_step stepped with
 | tick => exact absurd returned before
 | call _ =>
  dsimp only at returned
  split at returned
  · refine absurd ?_ before
    cases found : state.pc tid with
    | returned =>
     rw [found] at returned
     exact returned
    | _ =>
     rw [found] at returned
     cases returned
  · exact absurd returned before
 | first _ filled taken => exact absurd (take_late sound taken returned before).2 filled
 | @woken _ other now msTimeout woken taken =>
  obtain ⟨rfl, empty⟩ := take_late sound taken returned before
  simp_all
 | @timedOut other now msTimeout timedOut =>
  obtain ⟨rfl, _⟩ := goto_cases returned before
  exact ⟨now, msTimeout, .inl timedOut⟩
 | enter | wait | spurious | expire =>
  have pc := (goto_cases returned before).2
  cases pc

theorem removed_returns (own : event = .check tid ∨ event = .resume tid)
 (changed : next.queue ≠ state.queue) :
 ∃ item, next.pc tid = .returned true (some item) ∧
  state.queue.contents = item :: next.queue.contents := by
 have taken : state.take tid = some next := by
  cases effect_of_step stepped with
  | tick | call | enter | spurious | expire => rcases own with same | same <;> cases same
  | wait | timedOut => exact absurd rfl changed
  | first _ _ taken | woken _ taken =>
   simp_all
 cases took_of_take sound taken with
 | nothing _ same => exact absurd (congrArg State.queue same) changed
 | item item _ contents _ same =>
  refine ⟨item, ?_, contents⟩
  rw [same, goto_self]

end

theorem promised_iff {start : State Tid T} (kept : Kept start events state)
 (run : Run (ofFunction step) start events state) (stepped : state.step event = some next) :
 Promised start events state event next ↔ state.OnTime event := by
 constructor
 · intro promised
   cases event with
   | check tid =>
    unfold OnTime
    dsimp only
    split
    · rename_i now msTimeout called
      intro empty
      simp only [step, called, if_pos empty] at stepped
      cases stepped
      exact (exact_iff now msTimeout).mp
       (promised.handed tid now msTimeout called (goto_self ..))
    · trivial
   | resume tid =>
    unfold OnTime
    dsimp only
    split
    · rename_i now msTimeout woken
      intro empty
      simp only [step, woken] at stepped
      cases took_of_take kept.sound stepped with
      | item _ filled => exact absurd empty filled
      | nothing _ same =>
       subst same
       obtain ⟨deadline, handed, _, _, middle, _, _, later, _, past⟩ :=
        promised.late tid none (goto_self ..) fun same => by
         rw [woken] at same
         cases same
       rw [woken] at handed
       cases handed
       exact le_trans past (clock_le later)
    · trivial
   | _ => trivial
 · intro onTime
   refine ⟨fun tid now msTimeout called waiting => ?_, fun tid item returned before => ?_,
    fun tid own changed => removed_returns kept.sound stepped own changed⟩
   · obtain ⟨rfl, empty⟩ := handed_wait kept.sound stepped called waiting
     unfold OnTime at onTime
     simp only [called] at onTime
     exact (exact_iff now msTimeout).mpr (onTime empty)
   · obtain ⟨now, msTimeout, timedOut | ⟨rfl, woken, empty⟩⟩ :=
      late_cases kept.sound stepped returned before
     · rw [timedOut]
       exact ⟨_, rfl, kept.timedOut tid now msTimeout timedOut⟩
     · rw [woken]
       unfold OnTime at onTime
       simp only [woken] at onTime
       exact ⟨_, rfl, .here run empty (onTime empty)⟩

/-! ### Runs that keep the promise -/

def AllPromised (start : State Tid T) (events : List (Event Tid T)) : Prop :=
 ∀ before event state next, before ++ [event] <+: events →
  Run (ofFunction step) start before state → state.step event = some next →
   Promised start before state event next

/--
The timed `pop` waits as promised in exactly the runs in which every deadline is handed over at
a full second for a number of seconds and no woken thread finds the queue empty too early.
-/
theorem timed_pop_promised_iff (array : List T) (clock : ℕ) (filled : 0 < array.length)
 {events : List (Event Tid T)} {final : State Tid T}
 (run : Run (ofFunction step) (start array clock) events final) :
 AllPromised (start array clock) events ↔
  Run (Guarded OnTime (ofFunction step)) (start array clock) events final := by
 rw [run.guarded_iff]
 constructor
 · intro all before event state next early reached stepped
   have kept := kept_of_run filled reached
   exact (promised_iff kept reached stepped).mp (all before event state next early reached stepped)
 · intro every before event state next early reached stepped
   have kept := kept_of_run filled reached
   exact (promised_iff kept reached stepped).mpr
    (every before event state next early reached stepped)

def exampleEvents : List (Event ℕ ℕ) :=
 [.enter 0 2000, .check 0, .tick 1500, .call (.push 7), .resume 0]

theorem timed_pop_promised_iff_example : ∃ final,
 Run (ofFunction step) (start [0, 0] 0) exampleEvents final ∧
 (AllPromised (start [0, 0] 0) exampleEvents ↔
  Run (Guarded OnTime (ofFunction step)) (start [0, 0] 0) exampleEvents final) := by
 have some_final : (replay step (start [0, 0] 0) exampleEvents).isSome = true := by
  decide +kernel
 obtain ⟨final, reached⟩ := isSome_iff_exists.mp some_final
 have run := Run.of_replay_all reached
 exact ⟨final, run, timed_pop_promised_iff [0, 0] 0 (by decide) run⟩

/-- A timeout of one millisecond, of which a thousandth is waited. -/
def shortWait : List (Event ℕ ℕ) := [.enter 0 1, .check 0, .tick 1000, .expire 0, .resume 0]

/-- Another thread takes the element that the waiting thread was woken for. -/
def stolenItem : List (Event ℕ ℕ) :=
 [.enter 0 1000, .check 0, .call (.push 7), .call .pop, .resume 0]

/-- Another clock value is handed over, and a woken thread finds the queue empty again. -/
theorem timed_pop_returns_early :
 (∃ final, Run (ofFunction step) (start [0, 0] 0) shortWait final ∧
  ¬ AllPromised (start [0, 0] 0) shortWait) ∧
 ∃ final, Run (ofFunction step) (start [0, 0] 0) stolenItem final ∧
  ¬ AllPromised (start [0, 0] 0) stolenItem := by
 have notExact : ¬ Exact ⟨0, 0⟩ 1 := fun exact => by
  have whole := ((exact_iff ⟨0, 0⟩ 1).mp exact).2
  revert whole
  decide
 have entered : (start [0, 0] 0).step (.enter 0 1) =
  some ((start [0, 0] 0).goto 0 (.called ⟨0, 0⟩ 1) : State ℕ ℕ) := rfl
 constructor
 · have replayed : (replay step (start [0, 0] 0) shortWait).isSome = true := by decide +kernel
   obtain ⟨final, reached⟩ := isSome_iff_exists.mp replayed
   refine ⟨final, Run.of_replay_all reached, fun all => notExact ?_⟩
   have promised := all [.enter 0 1] (.check 0) _ _ ⟨[.tick 1000, .expire 0, .resume 0], rfl⟩
    (Run.single entered) rfl
   exact promised.handed 0 ⟨0, 0⟩ 1 (goto_self ..) (goto_self ..)
 · have replayed : (replay step (start [0, 0] 0) stolenItem).isSome = true := by decide +kernel
   obtain ⟨final, reached⟩ := isSome_iff_exists.mp replayed
   refine ⟨final, Run.of_replay_all reached, fun all => ?_⟩
   have promised := all [.enter 0 1000, .check 0, .call (.push 7), .call .pop] (.resume 0) _ _
    (List.prefix_refl _) (Run.of_replay_all rfl) rfl
   obtain ⟨deadline, handed, _, _, middle, _, _, later, _, past⟩ :=
    promised.late 0 none (goto_self ..) (fun same => by cases same)
   cases handed
   have early := Nat.le_trans past (clock_le later)
   revert early
   decide +kernel

end State

end MyNotes.Network.BlockQueueTimedPop
