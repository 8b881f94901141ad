/-
The thread pool with a condition variable and a manager thread.

A worker tests the predicate of `m_not_empty.wait` with `m_mutex_pool` in its hand and blocks in
a step of its own.  Who adds a task or destroys the pool does not take that mutex.  The task
queue has a mutex of its own, so that each of its functions is one step.
-/

import MyNotes.Library.Mutex
import MyNotes.Library.Transition
import Mathlib.Data.Int.Notation
import Mathlib.Data.Nat.Notation

namespace MyNotes.Algorithms.ThreadPool

open Library.Transition Library.Mutex Function Option Bool

variable {Callback Arg Adder : Type}

structure Task (Callback Arg : Type) where
 callback : Option Callback
 arg : Option Arg
 deriving DecidableEq

inductive Tid where
 /-- By its place in `m_threads`. -/
 | worker (index : ℕ)
 | manager
 deriving DecidableEq

inductive Stage (Callback Arg : Type) where
 -- `worker`
 | absent
 | locking
 | testing
 | tested
 | blocked
 | passed
 | checked
 | fetching
 | fetched (task : Task Callback Arg)
 | running (task : Task Callback Arg)
 | returned
 -- `manager`
 | looping
 | sleeping
 | sized (queueSize : ℤ)
 | lived (queueSize liveSize : ℤ)
 | counted (queueSize liveSize busySize : ℤ)
 | creating (liveSize busySize : ℤ)
 | making (liveSize busySize : ℤ) (i count : ℕ)
 | trimming (liveSize busySize : ℤ)
 | destroying
 | marking
 | calling
 | called
 | stopped
 deriving DecidableEq

namespace Stage

def holdsLock : Stage Callback Arg → Bool
 | .testing => true
 | .tested => true
 | .passed => true
 | .checked => true
 | .fetching => true
 | .fetched _ => true
 | .making .. => true
 | .marking => true
 | .calling => true
 | .called => true
 | _ => false

/-- A thread that was created and has not returned. -/
def live : Stage Callback Arg → Bool
 | .absent => false
 | .returned => false
 | _ => true

def isBlocked : Stage Callback Arg → Bool
 | .blocked => true
 | _ => false

/-- The predicate was false, and the worker has not been woken since. -/
def resting : Stage Callback Arg → Bool
 | .tested => true
 | .blocked => true
 | _ => false

def wake : Stage Callback Arg → Stage Callback Arg
 | .blocked => .locking
 | stage => stage

variable {stage : Stage Callback Arg}

theorem eq_blocked (blocked : stage.isBlocked = true) : stage = .blocked := by
 cases stage with
 | blocked => rfl
 | _ => cases blocked

theorem eq_of_resting (rests : stage.resting = true) : stage = .tested ∨ stage = .blocked := by
 cases stage with
 | tested => exact .inl rfl
 | blocked => exact .inr rfl
 | _ => cases rests

theorem live_of_resting (rests : stage.resting = true) : stage.live = true := by
 rcases eq_of_resting rests with rfl | rfl
 all_goals rfl

theorem live_of_holdsLock (held : stage.holdsLock = true) : stage.live = true := by
 cases stage with
 | absent | returned => cases held
 | _ => rfl

theorem live_wake (stage : Stage Callback Arg) : stage.wake.live = stage.live := by
 cases stage <;> rfl

theorem holdsLock_wake (stage : Stage Callback Arg) : stage.wake.holdsLock = stage.holdsLock := by
 cases stage <;> rfl

theorem awake_of_wake (untested : stage ≠ .tested) : stage.wake.resting = false := by
 cases stage with
 | tested => exact absurd rfl untested
 | _ => rfl

end Stage

/-- A caller of `add_task`. -/
inductive Caller (Callback Arg : Type) where
 | idle
 | called (task : Task Callback Arg)
 | adding (task : Task Callback Arg)
 | notifying

inductive Destructor where
 | waiting
 | notifying
 | joiningManager
 | joiningWorkers
 | done
 deriving DecidableEq

structure State (Callback Arg Adder : Type) where
 mMutexPool : Option Tid
 mThreads : ℕ
 mTaskQueue : List (Task Callback Arg)
 mMinNum : ℤ
 mMaxNum : ℤ
 mBusyNum : ℤ
 mLiveNum : ℤ
 mDestoryNum : ℤ
 mShutdown : Bool
 stage : Tid → Stage Callback Arg
 adder : Adder → Caller Callback Arg
 destructor : Destructor

inductive Event (Callback Arg Adder : Type) where
 /-- The next step of a worker or of the manager. -/
 | go (tid : Tid)
 | spurious (worker : ℕ)
 | addTask (adder : Adder) (task : Task Callback Arg)
 | add (adder : Adder)
 /-- A call of `notify_one`, and whom it wakes. -/
 | notifyOne (adder : Adder) (woken : Option ℕ)
 /-- The next step of the destructor. -/
 | destroy

def start (min max : ℤ) : State Callback Arg Adder where
 mMutexPool := none
 mThreads := min.toNat
 mTaskQueue := []
 mMinNum := min
 mMaxNum := max
 mBusyNum := 0
 mLiveNum := min
 mDestoryNum := 0
 mShutdown := false
 stage
  | .worker index => if index < min.toNat then .locking else .absent
  | .manager => .looping
 adder _ := .idle
 destructor := .waiting

namespace State

def move (self : State Callback Arg Adder) (tid : Tid) (stage : Stage Callback Arg) :
 State Callback Arg Adder :=
 { self with stage := update self.stage tid stage }

theorem move_self (state : State Callback Arg Adder) (tid : Tid) (stage : Stage Callback Arg) :
 (state.move tid stage).stage tid = stage := by
 simp only [move, update_self]

theorem move_other (state : State Callback Arg Adder) {tid other : Tid}
 (stage : Stage Callback Arg) (apart : other ≠ tid) :
 (state.move tid stage).stage other = state.stage other := by
 simp only [move, update_of_ne apart]

section

variable (self : State Callback Arg Adder)

def taskSize : ℤ := self.mTaskQueue.length

def getTask : Task Callback Arg × State Callback Arg Adder :=
 match self.mTaskQueue with
 | [] => (⟨none, none⟩, self)
 | task :: rest => (task, { self with mTaskQueue := rest })

/-- The predicate of `m_not_empty.wait`. -/
def pred : Bool :=
 decide (0 < self.taskSize) || self.mShutdown || decide (0 < self.mDestoryNum)

def notifyAll : State Callback Arg Adder :=
 { self with stage := fun tid => (self.stage tid).wake }

def work (index : ℕ) : Option (State Callback Arg Adder) :=
 match self.stage (.worker index) with
 | .locking =>
  if self.mMutexPool.isNone then
   some { self.move (.worker index) .testing with mMutexPool := some (.worker index) }
  else none
 | .testing => some (self.move (.worker index) (if self.pred then .passed else .tested))
 | .tested => some { self.move (.worker index) .blocked with mMutexPool := none }
 | .passed =>
  if 0 < self.mDestoryNum then
   if self.mMinNum < self.mLiveNum then
    some { self.move (.worker index) .returned with
     mMutexPool := none
     mDestoryNum := self.mDestoryNum - 1
     mLiveNum := self.mLiveNum - 1 }
   else
    some { self.move (.worker index) .checked with mDestoryNum := self.mDestoryNum - 1 }
  else some (self.move (.worker index) .checked)
 | .checked =>
  if self.mShutdown then
   some { self.move (.worker index) .returned with mMutexPool := none }
  else some (self.move (.worker index) .fetching)
 | .fetching =>
  let (task, rest) := self.getTask
  some { rest.move (.worker index) (.fetched task) with
   mBusyNum := if task.callback.isSome then self.mBusyNum + 1 else self.mBusyNum }
 | .fetched task =>
  some { self.move (.worker index)
   (if task.callback.isSome then .running task else .locking) with
   mMutexPool := none }
 | .running _ => some { self.move (.worker index) .locking with mBusyNum := self.mBusyNum - 1 }
 | _ => none

def manage : Option (State Callback Arg Adder) :=
 match self.stage .manager with
 | .looping => some (self.move .manager (if self.mShutdown then .stopped else .sleeping))
 | .sleeping => some (self.move .manager (.sized self.taskSize))
 | .sized queueSize => some (self.move .manager (.lived queueSize self.mLiveNum))
 | .lived queueSize liveSize =>
  some (self.move .manager (.counted queueSize liveSize self.mBusyNum))
 | .counted queueSize liveSize busySize =>
  some (self.move .manager
   (if liveSize < queueSize ∧ liveSize < self.mMaxNum then .creating liveSize busySize
    else .trimming liveSize busySize))
 | .creating liveSize busySize =>
  if self.mMutexPool.isNone then
   some { self.move .manager (.making liveSize busySize 0 0) with mMutexPool := some .manager }
  else none
 | .making liveSize busySize i count =>
  if (i : ℤ) < self.mMaxNum ∧ count < 2 ∧ self.mLiveNum < self.mMaxNum then
   -- a thread of `m_threads` is joinable until the destructor joins it
   if self.mThreads ≤ i then
    some { (self.move (.worker self.mThreads) .locking).move .manager
     (.making liveSize busySize (i + 1) (count + 1)) with
     mThreads := self.mThreads + 1
     mLiveNum := self.mLiveNum + 1 }
   else some (self.move .manager (.making liveSize busySize (i + 1) count))
  else some { self.move .manager (.trimming liveSize busySize) with mMutexPool := none }
 | .trimming liveSize busySize =>
  some (self.move .manager
   (if 2 * busySize < liveSize ∧ self.mMinNum < liveSize then .destroying else .looping))
 | .destroying =>
  if self.mMutexPool.isNone then
   some { self.move .manager .marking with mMutexPool := some .manager }
  else none
 | .marking => some { self.move .manager .calling with mDestoryNum := 2 }
 | .calling => some (self.notifyAll.move .manager .called)
 | .called => some { self.move .manager .looping with mMutexPool := none }
 | _ => none

end

variable [DecidableEq Adder]

section

variable (self : State Callback Arg Adder)

def moveAdder (adder : Adder) (caller : Caller Callback Arg) : State Callback Arg Adder :=
 { self with adder := update self.adder adder caller }

def add (adder : Adder) : Option (State Callback Arg Adder) :=
 match self.adder adder with
 | .called task => some (self.moveAdder adder (if self.mShutdown then .idle else .adding task))
 | .adding task =>
  some { self.moveAdder adder .notifying with mTaskQueue := self.mTaskQueue ++ [task] }
 | _ => none

def notifyOne (adder : Adder) (woken : Option ℕ) : Option (State Callback Arg Adder) :=
 match self.adder adder, woken with
 | .notifying, some index =>
  if (self.stage (.worker index)).isBlocked then
   some ((self.move (.worker index) .locking).moveAdder adder .idle)
  else none
 | .notifying, none =>
  if ∀ index < self.mThreads, (self.stage (.worker index)).isBlocked = false then
   some (self.moveAdder adder .idle)
  else none
 | _, _ => none

def destroy : Option (State Callback Arg Adder) :=
 match self.destructor with
 | .waiting => some { self with mShutdown := true, destructor := .notifying }
 | .notifying => some { self.notifyAll with destructor := .joiningManager }
 | .joiningManager =>
  if (self.stage .manager).live then none
  else some { self with destructor := .joiningWorkers }
 | .joiningWorkers =>
  if ∃ index < self.mThreads, (self.stage (.worker index)).live then none
  else some { self with destructor := .done }
 | .done => none

def step : Event Callback Arg Adder → Option (State Callback Arg Adder)
 | .go (.worker index) => self.work index
 | .go .manager => self.manage
 | .spurious index =>
  if (self.stage (.worker index)).isBlocked then some (self.move (.worker index) .locking)
  else none
 | .addTask adder task =>
  match self.adder adder with
  | .idle => some (self.moveAdder adder (.called task))
  | _ => none
 | .add adder => self.add adder
 | .notifyOne adder woken => self.notifyOne adder woken
 | .destroy => self.destroy

end

/-- A lost wake-up: there is work, or the pool is being destroyed, and nobody is told. -/
structure Stuck (state : State Callback Arg Adder) : Prop where
 due : state.mTaskQueue ≠ [] ∨ state.mShutdown = true
 live : ∃ index, (state.stage (.worker index)).live = true
 blocked : ∀ index, (state.stage (.worker index)).live = true →
  state.stage (.worker index) = .blocked
 adders : ∀ adder, state.adder adder ≠ .notifying
 manager : state.stage .manager ≠ .marking ∧ state.stage .manager ≠ .calling
 destructor : state.destructor ≠ .notifying

/-- The one live worker is not between its test and its block when it is the only one to hear
of a task, and no worker is there when all are told of the destruction. -/
def avoids (state : State Callback Arg Adder) : Event Callback Arg Adder → Prop
 | .notifyOne _ _ => state.mTaskQueue = [] ∨ ∀ index < state.mThreads,
  state.stage (.worker index) = .tested → ∃ other < state.mThreads, other ≠ index ∧
   (state.stage (.worker other)).live = true
 | .destroy => state.destructor = .notifying → ∀ index < state.mThreads,
  state.stage (.worker index) ≠ .tested
 | _ => True

instance [DecidableEq Callback] [DecidableEq Arg] (state : State Callback Arg Adder) :
 ∀ event, Decidable (state.avoids event)
 | .notifyOne _ _ => inferInstanceAs (Decidable (_ ∨ _))
 | .destroy => inferInstanceAs (Decidable (_ → _))
 | .go _ => .isTrue trivial
 | .spurious _ => .isTrue trivial
 | .addTask _ _ => .isTrue trivial
 | .add _ => .isTrue trivial

/-! ### Who can rest -/

structure Attended (state : State Callback Arg Adder) : Prop where
 mutex : Guards Stage.holdsLock state.stage state.mMutexPool
 born : ∀ index, (state.stage (.worker index)).live = true → index < state.mThreads
 quiet : state.mShutdown = false → (∀ adder, state.adder adder ≠ .notifying) →
  ∀ index, (state.stage (.worker index)).resting = true →
   (∀ other, other ≠ index → (state.stage (.worker other)).live = true →
    state.stage (.worker other) = .blocked) → state.mTaskQueue = []
 marked : 0 < state.mDestoryNum → ∀ index, state.stage (.worker index) ≠ .tested ∧
  (state.stage (.worker index) = .blocked → state.stage .manager = .calling)
 flag : state.mShutdown = true → state.destructor ≠ .waiting
 notified : state.destructor ≠ .waiting → state.mShutdown = true ∧
  (state.destructor ≠ .notifying → ∀ index, (state.stage (.worker index)).resting = false)

variable {state next : State Callback Arg Adder} {index : ℕ} {adder : Adder}
 {stage : Stage Callback Arg} {event : Event Callback Arg Adder}

omit [DecidableEq Adder] in
theorem Attended.notStuck (attended : state.Attended) : ¬ state.Stuck := by
 intro stuck
 obtain ⟨index, live⟩ := stuck.live
 have blocked := stuck.blocked index live
 have rests : (state.stage (.worker index)).resting = true := by rw [blocked]; rfl
 cases down : state.mShutdown with
 | false =>
  rcases stuck.due with waiting | shutdown
  · exact waiting (attended.quiet down stuck.adders index rests
     fun other _ live => stuck.blocked other live)
  · cases down.symm.trans shutdown
 | true =>
  have awake := (attended.notified (attended.flag down)).2 stuck.destructor index
  rw [rests] at awake
  cases awake

omit [DecidableEq Adder] in
theorem start_attended (min max : ℤ) : (start min max : State Callback Arg Adder).Attended := by
 have places : ∀ index, (start min max : State Callback Arg Adder).stage (.worker index) =
  .locking ∧ index < min.toNat ∨
  (start min max : State Callback Arg Adder).stage (.worker index) = .absent := by
  intro index
  by_cases early : index < min.toNat
  · exact .inl ⟨if_pos early, early⟩
  · exact .inr (if_neg early)
 constructor
 · refine Guards.start fun tid => ?_
   cases tid with
   | manager => rfl
   | worker index =>
    rcases places index with ⟨here, -⟩ | here
    all_goals rw [here]; rfl
 · intro index live
   rcases places index with ⟨-, early⟩ | here
   · exact early
   · rw [here] at live
     cases live
 · intro _ _ _ _ _
   rfl
 · grind
 · nofun
 · exact fun past => absurd rfl past

section

variable (attended : state.Attended)
include attended

section

omit [DecidableEq Adder]

theorem lock_inj {one two : Tid} (first : (state.stage one).holdsLock = true)
 (second : (state.stage two).holdsLock = true) :
 one = two := attended.mutex.exclusive first second

theorem Attended.still_born (nextStage : next.stage = update state.stage (.worker index) stage)
 (grows : state.mThreads ≤ next.mThreads) (room : stage.live = true → index < next.mThreads) :
 ∀ other, (next.stage (.worker other)).live = true → other < next.mThreads := by
 intro other alive
 rw [nextStage] at alive
 by_cases me : other = index
 · simp_all
 · rw [update_of_ne fun same => me (Tid.worker.inj same)] at alive
   exact Nat.lt_of_lt_of_le (attended.born other alive) grows

theorem Attended.busy (nextStage : next.stage = update state.stage (.worker index) stage)
 (mutex : Guards Stage.holdsLock next.stage next.mMutexPool)
 (grows : state.mThreads ≤ next.mThreads) (room : index < next.mThreads)
 (same : (next.mShutdown, next.destructor) = (state.mShutdown, state.destructor))
 (fewer : next.mDestoryNum ≤ state.mDestoryNum) (live : stage.live = true)
 (awake : stage.resting = false) : next.Attended := by
 simp only [Prod.mk.injEq] at same
 obtain ⟨sameShutdown, sameDestructor⟩ := same
 have mine : next.stage (.worker index) = stage := by
  rw [nextStage]
  exact update_self _ _ _
 have others : ∀ tid, tid ≠ .worker index → next.stage tid = state.stage tid := by
  intro tid apart
  rw [nextStage]
  exact update_of_ne apart _ _
 have rests : ∀ other, (next.stage (.worker other)).resting = true →
  other ≠ index ∧ next.stage (.worker other) = state.stage (.worker other) := by
  intro other inside
  have apart : other ≠ index := by
   rintro rfl
   rw [mine, awake] at inside
   cases inside
  exact ⟨apart, others _ fun same => apart (Tid.worker.inj same)⟩
 refine ⟨mutex, attended.still_born nextStage grows fun _ => room, ?_, ?_, ?_, ?_⟩
 · intro _ _ other inside alone
   have blocked := alone index (rests other inside).1.symm (by rw [mine]; exact live)
   rw [mine] at blocked
   rw [blocked] at awake
   cases awake
 · intro positive other
   obtain ⟨untested, unblocked⟩ := attended.marked (Int.lt_of_lt_of_le positive fewer) other
   constructor
   · intro tested
     rw [(rests other (by rw [tested]; rfl)).2] at tested
     exact untested tested
   · intro blocked
     rw [others .manager nofun]
     rw [(rests other (by rw [blocked]; rfl)).2] at blocked
     exact unblocked blocked
 · rw [sameShutdown, sameDestructor]
   exact attended.flag
 · rw [sameShutdown, sameDestructor]
   intro past
   refine ⟨(attended.notified past).1, fun told other => ?_⟩
   refine eq_false_iff.mpr fun inside => ?_
   have before := (attended.notified past).2 told other
   grind

theorem Attended.managed (nextStage : next.stage = update state.stage .manager stage)
 (mutex : Guards Stage.holdsLock next.stage next.mMutexPool)
 (same : (next.mThreads, next.mTaskQueue, next.mDestoryNum, next.mShutdown, next.adder,
  next.destructor) = (state.mThreads, state.mTaskQueue, state.mDestoryNum, state.mShutdown,
   state.adder, state.destructor)) (before : state.stage .manager ≠ .calling) : next.Attended := by
 simp only [Prod.mk.injEq] at same
 obtain ⟨sameThreads, sameQueue, sameDestory, sameShutdown, sameAdder, sameDestructor⟩ := same
 have workers : ∀ index, next.stage (.worker index) = state.stage (.worker index) := by
  intro index
  rw [nextStage]
  exact update_of_ne (nofun : Tid.worker index ≠ .manager) _ _
 refine ⟨mutex, ?_, ?_, ?_, ?_, ?_⟩
 · simp only [workers, sameThreads]
   exact attended.born
 · simp only [workers, sameQueue, sameShutdown, sameAdder]
   exact attended.quiet
 · intro positive index
   rw [sameDestory] at positive
   obtain ⟨untested, unblocked⟩ := attended.marked positive index
   simp_all
 · rw [sameShutdown, sameDestructor]
   exact attended.flag
 · simp only [workers, sameShutdown, sameDestructor]
   exact attended.notified

theorem Attended.test (here : state.stage (.worker index) = .testing)
 (refuted : state.pred = false) :
 (state.move (.worker index) .tested).Attended := by
 simp only [pred, or_eq_false_iff, decide_eq_false_iff_not] at refuted
 obtain ⟨⟨empty, up⟩, unmarked⟩ := refuted
 have nothing : state.mTaskQueue = [] := by
  cases list : state.mTaskQueue with
  | nil => rfl
  | cons task rest =>
   rw [taskSize, list, List.length_cons] at empty
   omega
 refine ⟨attended.mutex.stay (by rw [here]; rfl),
  attended.still_born rfl (Nat.le_refl _) fun _ => attended.born index (by rw [here]; rfl),
  fun _ _ _ _ _ => nothing, fun positive => absurd positive unmarked, attended.flag, ?_⟩
 intro past
 cases up.symm.trans (attended.notified past).1

theorem Attended.block (here : state.stage (.worker index) = .tested) :
 { state.move (.worker index) .blocked with mMutexPool := none }.Attended := by
 have held : (state.stage (.worker index)).holdsLock = true := by rw [here]; rfl
 have mine : (state.move (.worker index) .blocked).stage (.worker index) = .blocked :=
  move_self _ _ _
 have others : ∀ tid, tid ≠ .worker index →
  (state.move (.worker index) .blocked).stage tid = state.stage tid :=
  fun tid apart => move_other _ _ apart
 have apart {other : ℕ} (me : other ≠ index) : Tid.worker other ≠ .worker index :=
  fun same => me (Tid.worker.inj same)
 have rests : ∀ other, ((state.move (.worker index) .blocked).stage (.worker other)).resting =
  (state.stage (.worker other)).resting := by
  intro other
  by_cases me : other = index
  · rw [me, mine, here]
    rfl
  · rw [others _ (apart me)]
 constructor
 · exact attended.mutex.unlock held rfl
 · exact attended.still_born rfl (Nat.le_refl _)
    fun _ => attended.born index (by rw [here]; rfl)
 · intro up nobody other inside alone
   -- the others were blocked already when this worker tested the predicate
   refine attended.quiet up nobody index (by rw [here]; rfl) fun third away alive => ?_
   by_cases me : third = other
   · rw [me] at away alive ⊢
     have inside : (state.stage (.worker other)).resting = true := rests other ▸ inside
     rcases Stage.eq_of_resting inside with there | there
     · have same := lock_inj attended held (by rw [there]; rfl)
       exact absurd (Tid.worker.inj same).symm away
     · exact there
   · have blocked := alone third me
     simp_all
 · intro positive other
   exact absurd here (attended.marked positive index).1
 · exact attended.flag
 · intro past
   refine ⟨(attended.notified past).1, fun told other => ?_⟩
   exact (rests other).trans ((attended.notified past).2 told other)

theorem Attended.leave (held : (state.stage (.worker index)).holdsLock = true)
 (awake : (state.stage (.worker index)).resting = false)
 (nextStage : next.stage = update state.stage (.worker index) .returned)
 (free : next.mMutexPool = none)
 (same : (next.mThreads, next.mTaskQueue, next.mShutdown, next.adder, next.destructor) =
  (state.mThreads, state.mTaskQueue, state.mShutdown, state.adder, state.destructor))
 (fewer : next.mDestoryNum ≤ state.mDestoryNum)
 (reason : state.mShutdown = true ∨ 0 < state.mDestoryNum) : next.Attended := by
 simp only [Prod.mk.injEq] at same
 obtain ⟨sameThreads, sameQueue, sameShutdown, sameAdder, sameDestructor⟩ := same
 have mine : next.stage (.worker index) = .returned := by
  rw [nextStage]
  exact update_self _ _ _
 have rests : ∀ other, (next.stage (.worker other)).resting =
  (state.stage (.worker other)).resting := by
  intro other
  by_cases me : other = index
  · rw [me, mine, awake]
    rfl
  · simp_all
 refine ⟨?_, attended.still_born nextStage (Nat.le_of_eq sameThreads.symm) nofun, ?_, ?_, ?_, ?_⟩
 · rw [free, nextStage]
   exact attended.mutex.unlock held rfl
 · intro up nobody other inside
   rw [rests] at inside
   rcases reason with shutdown | positive
   · simp_all
   · obtain ⟨untested, unblocked⟩ := attended.marked positive other
     rcases Stage.eq_of_resting inside with there | there
     · exact absurd there untested
     · -- the manager would have the lock too
       have calling := unblocked there
       cases lock_inj attended held (by rw [calling]; rfl : (state.stage .manager).holdsLock = _)
 · intro positive other
   obtain ⟨untested, unblocked⟩ :=
    attended.marked (Int.lt_of_lt_of_le positive fewer) other
   by_cases me : other = index
   · rw [me, mine]
     exact ⟨nofun, nofun⟩
   · simp_all
 · rw [sameShutdown, sameDestructor]
   exact attended.flag
 · rw [sameShutdown, sameDestructor]
   simp only [rests]
   exact attended.notified

theorem Attended.work (taken : state.work index = some next) : next.Attended := by
 have born (live : (state.stage (.worker index)).live = true) : index < state.mThreads :=
  attended.born index live
 cases here : state.stage (.worker index) with
 | locking =>
  simp only [State.work, here] at taken
  obtain ⟨nobody, same⟩ := ite_none_right_eq_some.mp taken
  cases same
  exact attended.busy rfl
   (attended.mutex.lock (isNone_iff_eq_none.mp nobody) rfl) (Nat.le_refl _)
   (born (by rw [here]; rfl)) rfl (Int.le_refl _) rfl rfl
 | testing =>
  simp only [State.work, here] at taken
  cases taken
  cases found : state.pred with
  | false =>
   rw [if_neg Bool.false_ne_true]
   exact attended.test here found
  | true =>
   rw [if_pos rfl]
   exact attended.busy rfl (attended.mutex.stay (by rw [here]; rfl)) (Nat.le_refl _)
    (born (by rw [here]; rfl)) rfl (Int.le_refl _) rfl rfl
 | tested =>
  simp only [State.work, here] at taken
  cases taken
  exact attended.block here
 | passed =>
  simp only [State.work, here] at taken
  have held : (state.stage (.worker index)).holdsLock = true := by rw [here]; rfl
  split at taken
  · rename_i marked
    split at taken
    · cases taken
      exact attended.leave held (by rw [here]; rfl) rfl rfl rfl
       (Int.sub_le_self _ (by decide)) (.inr marked)
    · cases taken
      exact attended.busy rfl (attended.mutex.stay (by rw [here]; rfl)) (Nat.le_refl _)
       (born (by rw [here]; rfl)) rfl (Int.sub_le_self _ (by decide)) rfl rfl
  · cases taken
    exact attended.busy rfl (attended.mutex.stay (by rw [here]; rfl)) (Nat.le_refl _)
     (born (by rw [here]; rfl)) rfl (Int.le_refl _) rfl rfl
 | checked =>
  simp only [State.work, here] at taken
  split at taken
  · rename_i shutdown
    cases taken
    exact attended.leave (by rw [here]; rfl) (by rw [here]; rfl) rfl rfl rfl (Int.le_refl _)
     (.inl shutdown)
  · cases taken
    exact attended.busy rfl (attended.mutex.stay (by rw [here]; rfl)) (Nat.le_refl _)
     (born (by rw [here]; rfl)) rfl (Int.le_refl _) rfl rfl
 | fetching =>
  simp only [State.work, here, getTask] at taken
  have room := born (by rw [here]; rfl)
  cases list : state.mTaskQueue with
  | nil =>
   simp only [list] at taken
   cases taken
   exact attended.busy rfl (attended.mutex.stay (by rw [here]; rfl)) (Nat.le_refl _)
    room rfl (Int.le_refl _) rfl rfl
  | cons task rest =>
   simp only [list] at taken
   cases taken
   exact attended.busy rfl (attended.mutex.stay (by rw [here]; rfl)) (Nat.le_refl _)
    room rfl (Int.le_refl _) rfl rfl
 | fetched task =>
  simp only [State.work, here] at taken
  cases taken
  have room := born (by rw [here]; rfl)
  split
  · exact attended.busy rfl (attended.mutex.unlock (by rw [here]; rfl) rfl) (Nat.le_refl _)
     room rfl (Int.le_refl _) rfl rfl
  · exact attended.busy rfl (attended.mutex.unlock (by rw [here]; rfl) rfl) (Nat.le_refl _)
     room rfl (Int.le_refl _) rfl rfl
 | running task =>
  simp only [State.work, here] at taken
  cases taken
  exact attended.busy rfl (attended.mutex.stay (by rw [here]; rfl)) (Nat.le_refl _)
   (born (by rw [here]; rfl)) rfl (Int.le_refl _) rfl rfl
 | _ =>
  simp only [State.work, here] at taken
  cases taken

theorem Attended.call (here : state.stage .manager = .calling) :
 (state.notifyAll.move .manager .called).Attended := by
 have held : (state.stage .manager).holdsLock = true := by rw [here]; rfl
 have untested : ∀ index, state.stage (.worker index) ≠ .tested := by
  intro index there
  cases lock_inj attended held (by rw [there]; rfl : (state.stage (.worker index)).holdsLock = _)
 have workers : ∀ index, (state.notifyAll.move .manager .called).stage (.worker index) =
  (state.stage (.worker index)).wake :=
  fun index => move_other state.notifyAll _ nofun
 have awake : ∀ index, ((state.notifyAll.move .manager .called).stage (.worker index)).resting =
  false := fun index => (congrArg Stage.resting (workers index)).trans
  (Stage.awake_of_wake (untested index))
 constructor
 · have woken : Guards Stage.holdsLock state.notifyAll.stage state.mMutexPool :=
    attended.mutex.same fun tid => Stage.holdsLock_wake _
   exact woken.stay ((Stage.holdsLock_wake _).trans (by rw [here]; rfl)).symm
 · intro index alive
   rw [workers, Stage.live_wake] at alive
   exact attended.born index alive
 · simp_all
 · intro _ index
   constructor
   · intro tested
     have inside := awake index
     rw [tested] at inside
     cases inside
   · intro blocked
     have inside := awake index
     rw [blocked] at inside
     cases inside
 · exact attended.flag
 · exact fun past => ⟨(attended.notified past).1, fun _ => awake⟩

theorem Attended.mark (here : state.stage .manager = .marking) :
 { state.move .manager .calling with mDestoryNum := 2 }.Attended := by
 have held : (state.stage .manager).holdsLock = true := by rw [here]; rfl
 have workers : ∀ index, (state.move .manager .calling).stage (.worker index) =
  state.stage (.worker index) :=
  fun index => move_other state _ nofun
 have manager : (state.move .manager .calling).stage .manager = .calling := move_self _ _ _
 constructor
 · exact attended.mutex.stay (by rw [here]; rfl)
 · exact attended.born
 · exact attended.quiet
 · intro _ index
   refine ⟨fun tested => ?_, fun _ => manager⟩
   have there : state.stage (.worker index) = .tested := (workers index).symm.trans tested
   cases lock_inj attended held (by rw [there]; rfl : (state.stage (.worker index)).holdsLock = _)
 · exact attended.flag
 · exact attended.notified

theorem Attended.manage (taken : state.manage = some next) : next.Attended := by
 cases here : state.stage .manager with
 | looping =>
  simp only [State.manage, here] at taken
  cases taken
  refine attended.managed rfl (attended.mutex.stay ?_) rfl (by rw [here]; nofun)
  rw [here]
  split <;> rfl
 | sleeping | sized | lived =>
  simp only [State.manage, here] at taken
  cases taken
  exact attended.managed rfl (attended.mutex.stay (by rw [here]; rfl)) rfl (by rw [here]; nofun)
 | counted | trimming =>
  simp only [State.manage, here] at taken
  cases taken
  refine attended.managed rfl (attended.mutex.stay ?_) rfl (by rw [here]; nofun)
  rw [here]
  split <;> rfl
 | creating | destroying =>
  simp only [State.manage, here] at taken
  obtain ⟨nobody, same⟩ := ite_none_right_eq_some.mp taken
  cases same
  exact attended.managed rfl (attended.mutex.lock (isNone_iff_eq_none.mp nobody) rfl)
   rfl (by rw [here]; nofun)
 | making liveSize busySize i count =>
  simp only [State.manage, here] at taken
  split at taken
  · split at taken
    · cases taken
      have fresh : (state.stage (.worker state.mThreads)).live = false :=
       eq_false_iff.mpr fun live => Nat.lt_irrefl _ (attended.born _ live)
      have unheld : (state.stage (.worker state.mThreads)).holdsLock = false :=
       eq_false_iff.mpr fun held =>
        eq_false_iff.mp fresh (Stage.live_of_holdsLock held)
      have manager : (state.move (.worker state.mThreads) .locking).stage .manager =
       .making liveSize busySize i count :=
       (move_other _ _ (nofun : Tid.manager ≠ .worker state.mThreads)).trans here
      have made : { state.move (.worker state.mThreads) .locking with
       mThreads := state.mThreads + 1
       mLiveNum := state.mLiveNum + 1 }.Attended :=
       attended.busy rfl (attended.mutex.stay unheld.symm) (Nat.le_succ _)
        (Nat.lt_succ_self _) rfl (Int.le_refl _) rfl rfl
      exact made.managed rfl (made.mutex.stay (congrArg Stage.holdsLock manager).symm) rfl
       (manager ▸ nofun)
    · cases taken
      exact attended.managed rfl (attended.mutex.stay (by rw [here]; rfl)) rfl
       (by rw [here]; nofun)
  · cases taken
    exact attended.managed rfl (attended.mutex.unlock (by rw [here]; rfl) rfl) rfl
     (by rw [here]; nofun)
 | marking =>
  simp only [State.manage, here] at taken
  cases taken
  exact attended.mark here
 | calling =>
  simp only [State.manage, here] at taken
  cases taken
  exact attended.call here
 | called =>
  simp only [State.manage, here] at taken
  cases taken
  exact attended.managed rfl (attended.mutex.unlock (by rw [here]; rfl) rfl) rfl
   (by rw [here]; nofun)
 | _ =>
  simp only [State.manage, here] at taken
  cases taken

end

theorem Attended.moveAdder {caller : Caller Callback Arg}
 (before : state.adder adder ≠ .notifying) : (state.moveAdder adder caller).Attended := by
 refine ⟨attended.mutex, attended.born, ?_, attended.marked, attended.flag, attended.notified⟩
 intro up nobody
 refine attended.quiet up fun other => ?_
 by_cases me : other = adder
 · exact me ▸ before
 · have still := nobody other
   simp only [State.moveAdder] at still
   rw [update_of_ne me] at still
   exact still

theorem Attended.add (taken : state.add adder = some next) : next.Attended := by
 unfold State.add at taken
 split at taken
 · rename_i here
   cases taken
   exact attended.moveAdder (by rw [here]; nofun)
 · cases taken
   refine ⟨attended.mutex, attended.born, ?_, attended.marked, attended.flag,
    attended.notified⟩
   intro _ nobody
   exact absurd (update_self _ _ _) (nobody adder)
 · cases taken

theorem Attended.notifyOne {woken : Option ℕ} (allowed : state.avoids (.notifyOne adder woken))
 (taken : state.notifyOne adder woken = some next) : next.Attended := by
 unfold State.notifyOne at taken
 split at taken
 · rename_i index _
   obtain ⟨blocked, same⟩ := ite_none_right_eq_some.mp taken
   cases same
   have there := Stage.eq_blocked blocked
   exact attended.busy rfl (attended.mutex.stay (by rw [there]; rfl)) (Nat.le_refl _)
    (attended.born index (by rw [there]; rfl)) rfl (Int.le_refl _) rfl rfl
 · obtain ⟨nobody, same⟩ := ite_none_right_eq_some.mp taken
   cases same
   refine ⟨attended.mutex, attended.born, ?_, attended.marked, attended.flag,
    attended.notified⟩
   intro _ _ index inside alone
   have unblocked : ∀ other, (state.stage (.worker other)).live = true →
    state.stage (.worker other) ≠ .blocked := by
    intro other live blocked
    have free := nobody other (attended.born other live)
    rw [blocked] at free
    cases free
   have live := Stage.live_of_resting inside
   have tested := (Stage.eq_of_resting inside).resolve_right (unblocked index live)
   rcases allowed with empty | accompanied
   · exact empty
   · obtain ⟨other, -, apart, alive⟩ :=
      accompanied index (attended.born index live) tested
     exact absurd (alone other apart alive) (unblocked other alive)
 · cases taken

omit [DecidableEq Adder] in
theorem Attended.ended {destructor : Destructor} (started : state.destructor ≠ .waiting)
 (told : state.destructor ≠ .notifying) (past : destructor ≠ .waiting) :
 { state with destructor := destructor }.Attended where
 mutex := attended.mutex
 born := attended.born
 quiet := attended.quiet
 marked := attended.marked
 flag _ := past
 notified _ := ⟨(attended.notified started).1, fun _ => (attended.notified started).2 told⟩

omit [DecidableEq Adder] in
theorem Attended.destroy (allowed : state.destructor = .notifying → ∀ index < state.mThreads,
  state.stage (.worker index) ≠ .tested) (taken : state.destroy = some next) : next.Attended := by
 unfold State.destroy at taken
 split at taken
 · cases taken
   exact ⟨attended.mutex, attended.born, nofun, attended.marked, fun _ => nofun,
    fun _ => ⟨rfl, fun past => absurd rfl past⟩⟩
 · rename_i here
   cases taken
   have untested : ∀ index, state.stage (.worker index) ≠ .tested := by
    intro index tested
    exact allowed here index (attended.born index (by rw [tested]; rfl)) tested
   have awake : ∀ index, (state.stage (.worker index)).wake.resting = false :=
    fun index => Stage.awake_of_wake (untested index)
   have shutdown := (attended.notified (here ▸ nofun)).1
   refine ⟨attended.mutex.same fun tid => Stage.holdsLock_wake _, ?_, ?_, ?_, fun _ => nofun,
    fun _ => ⟨shutdown, fun _ => awake⟩⟩
   · intro index alive
     exact attended.born index (Stage.live_wake (state.stage (.worker index)) ▸ alive)
   · intro up
     cases up.symm.trans shutdown
   · intro _ index
     constructor
     · intro tested
       have inside := awake index
       change (state.stage (.worker index)).wake = .tested at tested
       rw [tested] at inside
       cases inside
     · intro blocked
       have inside := awake index
       change (state.stage (.worker index)).wake = .blocked at blocked
       rw [blocked] at inside
       cases inside
 · rename_i here
   split at taken
   · cases taken
   · cases taken
     exact attended.ended (here ▸ nofun) (here ▸ nofun) nofun
 · rename_i here
   split at taken
   · cases taken
   · cases taken
     exact attended.ended (here ▸ nofun) (here ▸ nofun) nofun
 · cases taken

theorem Attended.step (allowed : state.avoids event) (taken : state.step event = some next) :
 next.Attended := by
 cases event with
 | go tid =>
  cases tid with
  | worker index => exact attended.work taken
  | manager => exact attended.manage taken
 | spurious index =>
  obtain ⟨blocked, same⟩ := ite_none_right_eq_some.mp taken
  cases same
  have there := Stage.eq_blocked blocked
  exact attended.busy rfl (attended.mutex.stay (by rw [there]; rfl)) (Nat.le_refl _)
   (attended.born index (by rw [there]; rfl)) rfl (Int.le_refl _) rfl rfl
 | addTask adder task =>
  simp only [State.step] at taken
  split at taken
  · rename_i here
    cases taken
    exact attended.moveAdder (by rw [here]; nofun)
  · cases taken
 | add adder => exact attended.add taken
 | notifyOne adder woken => exact attended.notifyOne allowed taken
 | destroy => exact attended.destroy allowed taken

end

/-- No wake-up is lost in a run in which nobody notifies past a worker between its test and its
block: the only live worker when a task was added, any worker when the pool is destroyed. -/
theorem no_lost_wakeup (min max : ℤ) (events : List (Event Callback Arg Adder))
 (final : State Callback Arg Adder)
 (run : Run (Guarded avoids (ofFunction step)) (start min max) events final) : ¬ final.Stuck :=
 (run.invariant (start_attended min max) fun _ _ _ before taken =>
  before.step taken.1 taken.2).notStuck

def goes (index number : ℕ) : List (Event Unit ℕ Unit) :=
 List.replicate number (.go (.worker index))

def adds (woken : Option ℕ) : List (Event Unit ℕ Unit) :=
 [.addTask () ⟨some (), some 7⟩, .add (), .add (), .notifyOne () woken]

theorem no_lost_wakeup_two : ∃ final : State Unit ℕ Unit,
 final.mTaskQueue = [⟨some (), some 7⟩] ∧ final.stage (.worker 0) = .passed ∧
  final.stage (.worker 1) = .blocked ∧ ¬ final.Stuck := by
 obtain ⟨final, same, queue, first, second⟩ : ∃ final : State Unit ℕ Unit,
  replay (restrict avoids step) (start 2 2)
   (goes 0 3 ++ goes 1 2 ++ adds (some 0) ++ goes 1 1 ++ goes 0 2) = some final ∧
  final.mTaskQueue = [⟨some (), some 7⟩] ∧ final.stage (.worker 0) = .passed ∧
  final.stage (.worker 1) = .blocked := ⟨_, rfl, rfl, rfl, rfl⟩
 exact ⟨final, queue, first, second, no_lost_wakeup 2 2 _ final (Run.of_replay same)⟩

theorem stuck_alone {state : State Unit ℕ Unit}
 (due : state.mTaskQueue ≠ [] ∨ state.mShutdown = true)
 (blocked : state.stage (.worker 0) = .blocked)
 (absent : ∀ index, state.stage (.worker (index + 1)) = .absent)
 (rest : (state.adder (), state.stage .manager) = (.idle, .looping))
 (destructor : state.destructor ≠ .notifying) : state.Stuck := by
 obtain ⟨adder, manager⟩ := Prod.mk.injEq .. ▸ rest
 refine ⟨due, ⟨0, by rw [blocked]; rfl⟩, ?_, fun _ => adder ▸ nofun, manager ▸ ⟨nofun, nofun⟩,
  destructor⟩
 intro index live
 cases index with
 | zero => exact blocked
 | succ index =>
  rw [absent] at live
  cases live

/-- The only worker has found the predicate false and blocks after the notification. -/
theorem wakeups_lost :
 (∃ events, ∃ final : State Unit ℕ Unit, Run (ofFunction step) (start 1 1) events final ∧
  final.mTaskQueue ≠ [] ∧ final.Stuck) ∧
 ∃ events, ∃ final : State Unit ℕ Unit, Run (ofFunction step) (start 1 1) events final ∧
  final.mShutdown = true ∧ final.Stuck := by
 constructor
 · obtain ⟨final, same, queue, blocked, absent, rest, destructor⟩ :
    ∃ final : State Unit ℕ Unit,
     replay step (start 1 1) (goes 0 2 ++ adds none ++ goes 0 1) = some final ∧
     final.mTaskQueue = [⟨some (), some 7⟩] ∧ final.stage (.worker 0) = .blocked ∧
     (∀ index, final.stage (.worker (index + 1)) = .absent) ∧
     (final.adder (), final.stage .manager) = (.idle, .looping) ∧
     final.destructor = .waiting := ⟨_, rfl, rfl, rfl, fun _ => rfl, rfl, rfl⟩
   have full : final.mTaskQueue ≠ [] := queue ▸ List.cons_ne_nil _ _
   exact ⟨_, final, Run.of_replay_all same, full,
    stuck_alone (.inl full) blocked absent rest (destructor ▸ nofun)⟩
 · obtain ⟨final, same, shutdown, blocked, absent, rest, destructor⟩ :
    ∃ final : State Unit ℕ Unit,
     replay step (start 1 1) (goes 0 2 ++ [.destroy, .destroy] ++ goes 0 1) = some final ∧
     final.mShutdown = true ∧ final.stage (.worker 0) = .blocked ∧
     (∀ index, final.stage (.worker (index + 1)) = .absent) ∧
     (final.adder (), final.stage .manager) = (.idle, .looping) ∧
     final.destructor = .joiningManager := ⟨_, rfl, rfl, rfl, fun _ => rfl, rfl, rfl⟩
   exact ⟨_, final, Run.of_replay_all same, shutdown,
    stuck_alone (.inr shutdown) blocked absent rest (destructor ▸ nofun)⟩

end State

end MyNotes.Algorithms.ThreadPool
