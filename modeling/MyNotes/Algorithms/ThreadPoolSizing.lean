/-
How many workers the thread pool has, and how many the manager adds.

A thread that the manager creates first waits for the lock, which the manager has, so that its
creation and its count are one step.
-/

import MyNotes.Algorithms.ThreadPool
import MyNotes.Library.ThreadCount

namespace MyNotes.Algorithms.ThreadPool

open Library.Transition Library.Mutex Library.ThreadCount Function Option Bool Finset State

variable {Callback Arg Adder : Type}

namespace Stage

/-- A worker that has a task and has not finished it. -/
def isBusy : Stage Callback Arg → Bool
 | .fetched task => task.callback.isSome
 | .running _ => true
 | _ => false

/-- The manager is in the loop that creates threads. -/
def inLoop : Stage Callback Arg → Bool
 | .making .. => true
 | _ => false

theorem isBusy_wake (stage : Stage Callback Arg) : stage.wake.isBusy = stage.isBusy := by
 cases stage <;> rfl

theorem live_of_isBusy (stage : Stage Callback Arg) (busy : stage.isBusy = true) :
 stage.live = true := by
 cases stage with
 | fetched | running => rfl
 | _ => cases busy

end Stage

/-- A counter is the number of workers at certain places. -/
def Numbered (there : Stage Callback Arg → Bool) (stage : Tid → Stage Callback Arg)
 (number : ℤ) : Prop :=
 ∃ exact : ℕ, number = exact ∧ Counted there (fun index => stage (.worker index)) exact

namespace Numbered

variable {there wider : Stage Callback Arg → Bool} {stage other : Tid → Stage Callback Arg}
 {number more : ℤ} {index : ℕ} {next : Stage Callback Arg}

theorem update_worker (stage : Tid → Stage Callback Arg) (index : ℕ) (next : Stage Callback Arg) :
 (fun worker => update stage (.worker index) next (.worker worker)) =
  update (fun worker => stage (.worker worker)) index next := by
 funext worker
 by_cases me : worker = index
 · rw [me, update_self, update_self]
 · simp_all

variable (numbered : Numbered there stage number)
include numbered

theorem same (same : ∀ index, there (other (.worker index)) = there (stage (.worker index))) :
 Numbered there other number := by
 obtain ⟨exact, equal, counted⟩ := numbered
 exact ⟨exact, equal, counted.same same⟩

theorem stay (same : there next = there (stage (.worker index))) :
 Numbered there (update stage (.worker index) next) number := by
 obtain ⟨exact, equal, counted⟩ := numbered
 refine ⟨exact, equal, ?_⟩
 rw [update_worker]
 exact counted.stay same

theorem arrive (before : there (stage (.worker index)) = false) (after : there next = true) :
 Numbered there (update stage (.worker index) next) (number + 1) := by
 obtain ⟨exact, equal, counted⟩ := numbered
 refine ⟨exact + 1, by omega, ?_⟩
 rw [update_worker]
 exact counted.arrive before after

theorem depart (before : there (stage (.worker index)) = true) (after : there next = false) :
 Numbered there (update stage (.worker index) next) (number - 1) := by
 obtain ⟨exact, equal, counted⟩ := numbered
 obtain ⟨left, split, fewer⟩ := counted.depart before after
 refine ⟨left, by omega, ?_⟩
 rw [update_worker]
 exact fewer

theorem le (all : Numbered wider stage more)
 (within : ∀ place, there place = true → wider place = true) : number ≤ more := by
 obtain ⟨exact, equal, counted⟩ := numbered
 obtain ⟨exactMore, equalMore, countedMore⟩ := all
 have le := counted.le countedMore within
 omega

theorem nonneg : 0 ≤ number := by
 obtain ⟨exact, equal, _⟩ := numbered
 omega

end Numbered

namespace State

/-- The counters of a pool that is not being destroyed. -/
structure Sized (least most : ℤ) (state : State Callback Arg Adder) : Prop where
 busy : 0 ≤ state.mBusyNum ∧ state.mBusyNum ≤ state.mLiveNum
 bounds : least ≤ state.mLiveNum ∧ state.mLiveNum ≤ most
 live : Numbered Stage.live state.stage state.mLiveNum

/-! ### The counters -/

/-- What holds in every run, whether or not the pool is being destroyed. -/
structure Tallied (least most : ℤ) (state : State Callback Arg Adder) : Prop where
 mutex : Guards Stage.holdsLock state.stage state.mMutexPool
 born : ∀ index, (state.stage (.worker index)).live = true → index < state.mThreads
 limits : state.mMinNum = least ∧ state.mMaxNum = most
 threads : state.mThreads ≤ most
 bounds : least ≤ state.mLiveNum ∧ state.mLiveNum ≤ most
 busy : Numbered Stage.isBusy state.stage state.mBusyNum
 live : state.mShutdown = false → Numbered Stage.live state.stage state.mLiveNum

variable {least most : ℤ} {state next : State Callback Arg Adder} {index : ℕ}
 {stage : Stage Callback Arg}

theorem Tallied.sized (tallied : Tallied least most state) (up : state.mShutdown = false) :
 Sized least most state where
 busy := ⟨tallied.busy.nonneg, tallied.busy.le (tallied.live up) Stage.live_of_isBusy⟩
 bounds := tallied.bounds
 live := tallied.live up

theorem start_tallied (positive : 1 ≤ least) (ordered : least ≤ most) :
 Tallied least most (start least most : State Callback Arg Adder) := by
 have places : ∀ index, (start least most : State Callback Arg Adder).stage (.worker index) =
  if index < least.toNat then .locking else .absent := fun _ => rfl
 refine
  { mutex := Guards.start fun tid => ?_
    born := fun index live => ?_
    limits := ⟨rfl, rfl⟩
    threads := ?_
    bounds := ⟨Int.le_refl _, ordered⟩
    busy := ⟨0, rfl, Counted.start fun index => ?_⟩
    live := fun _ => ⟨least.toNat, ?_, ?_⟩ }
 · cases tid with
   | manager => rfl
   | worker index =>
    rw [places]
    split <;> rfl
 · rw [places] at live
   split at live
   · assumption
   · cases live
 · change ((least.toNat : ℕ) : ℤ) ≤ most
   omega
 · rw [places]
   split <;> rfl
 · change least = _
   omega
 · have standing_eq : standing Stage.live (fun index =>
    (start least most : State Callback Arg Adder).stage (.worker index)) =
     (range least.toNat : Set ℕ) := by
    refine Set.ext fun index => ?_
    change ((start least most : State Callback Arg Adder).stage (.worker index)).live = true ↔ _
    rw [places, coe_range, Set.mem_Iio]
    split
    · exact iff_of_true rfl ‹_›
    · exact iff_of_false false_ne_true ‹_›
   unfold Counted
   rw [standing_eq, Set.ncard_coe_finset, card_range]
   exact ⟨finite_toSet _, rfl⟩

section

variable (tallied : Tallied least most state)
include tallied

theorem Tallied.goes (nextStage : next.stage = update state.stage (.worker index) stage)
 (mutex : Guards Stage.holdsLock next.stage next.mMutexPool)
 (same : (next.mThreads, next.mMinNum, next.mMaxNum) =
  (state.mThreads, state.mMinNum, state.mMaxNum)) (inside : index < state.mThreads)
 (bounds : least ≤ next.mLiveNum ∧ next.mLiveNum ≤ most)
 (busy : Numbered Stage.isBusy next.stage next.mBusyNum)
 (live : next.mShutdown = false → Numbered Stage.live next.stage next.mLiveNum) :
 Tallied least most next := by
 simp only [Prod.mk.injEq] at same
 obtain ⟨sameThreads, sameMin, sameMax⟩ := same
 refine ⟨mutex, fun other alive => ?_, ⟨sameMin.trans tallied.limits.1,
  sameMax.trans tallied.limits.2⟩, sameThreads ▸ tallied.threads, bounds, busy, live⟩
 rw [sameThreads]
 by_cases me : other = index
 · exact me ▸ inside
 · rw [nextStage, update_of_ne fun same => me (Tid.worker.inj same)] at alive
   exact tallied.born other alive

theorem Tallied.kept (workers : ∀ index, next.stage (.worker index) = state.stage (.worker index) ∨
  next.stage (.worker index) = (state.stage (.worker index)).wake)
 (mutex : Guards Stage.holdsLock next.stage next.mMutexPool)
 (same : (next.mThreads, next.mMinNum, next.mMaxNum, next.mLiveNum, next.mBusyNum) =
  (state.mThreads, state.mMinNum, state.mMaxNum, state.mLiveNum, state.mBusyNum))
 (up : next.mShutdown = false → state.mShutdown = false) : Tallied least most next := by
 simp only [Prod.mk.injEq] at same
 obtain ⟨sameThreads, sameMin, sameMax, sameLive, sameBusy⟩ := same
 have live : ∀ index, (next.stage (.worker index)).live = (state.stage (.worker index)).live := by
  intro index
  rcases workers index with still | woken
  · rw [still]
  · rw [woken, Stage.live_wake]
 have busy : ∀ index,
  (next.stage (.worker index)).isBusy = (state.stage (.worker index)).isBusy := by
  intro index
  rcases workers index with still | woken
  · rw [still]
  · rw [woken, Stage.isBusy_wake]
 refine ⟨mutex, fun index alive => ?_, ⟨sameMin.trans tallied.limits.1,
  sameMax.trans tallied.limits.2⟩, sameThreads ▸ tallied.threads, sameLive ▸ tallied.bounds,
  ?_, fun running => ?_⟩
 · rw [live] at alive
   exact sameThreads ▸ tallied.born index alive
 · rw [sameBusy]
   exact tallied.busy.same busy
 · rw [sameLive]
   exact (tallied.live (up running)).same live

theorem Tallied.onwards {place : Stage Callback Arg} (here : state.stage (.worker index) = place)
 (alive : place.live = true) (nextStage : next.stage = update state.stage (.worker index) stage)
 (mutex : Guards Stage.holdsLock next.stage next.mMutexPool)
 (same : (next.mThreads, next.mMinNum, next.mMaxNum, next.mLiveNum, next.mBusyNum) =
  (state.mThreads, state.mMinNum, state.mMaxNum, state.mLiveNum, state.mBusyNum))
 (up : next.mShutdown = state.mShutdown) (live : stage.live = true)
 (busy : stage.isBusy = place.isBusy) : Tallied least most next := by
 simp only [Prod.mk.injEq] at same
 obtain ⟨sameThreads, sameMin, sameMax, sameLive, sameBusy⟩ := same
 subst here
 refine tallied.goes nextStage mutex ?_ (tallied.born index alive) ?_ ?_ fun running => ?_
 · rw [sameThreads, sameMin, sameMax]
 · rw [sameLive]
   exact tallied.bounds
 · rw [nextStage, sameBusy]
   exact tallied.busy.stay busy
 · rw [nextStage, sameLive]
   exact (tallied.live (up.symm.trans running)).stay (live.trans alive.symm)

theorem Tallied.fetch (here : state.stage (.worker index) = .fetching)
 (taken : state.work index = some next) : Tallied least most next := by
 have inside := tallied.born index (by rw [here]; rfl)
 obtain ⟨task, queue, same⟩ : ∃ task queue, next =
  { { state with mTaskQueue := queue }.move (.worker index) (.fetched task) with
   mBusyNum := if task.callback.isSome then state.mBusyNum + 1 else state.mBusyNum } := by
  simp only [work, here, getTask] at taken
  cases list : state.mTaskQueue with
  | nil =>
   simp only [list] at taken
   exact ⟨⟨none, none⟩, [], list ▸ (Option.some.inj taken).symm⟩
  | cons task rest =>
   grind
 subst same
 refine tallied.goes rfl (tallied.mutex.stay (by rw [here]; rfl)) rfl inside tallied.bounds ?_
  fun up => (tallied.live up).stay (by rw [here]; rfl)
 cases called : task.callback.isSome with
 | true => exact tallied.busy.arrive (by rw [here]; rfl) called
 | false => exact tallied.busy.stay (by rw [here]; exact called)

theorem Tallied.work (taken : state.work index = some next) : Tallied least most next := by
 cases here : state.stage (.worker index) with
 | locking =>
  simp only [State.work, here] at taken
  obtain ⟨nobody, same⟩ := ite_none_right_eq_some.mp taken
  cases same
  have free := isNone_iff_eq_none.mp nobody
  exact tallied.onwards here rfl rfl (tallied.mutex.lock free rfl) rfl rfl rfl rfl
 | testing =>
  simp only [State.work, here] at taken
  cases taken
  cases state.pred with
  | true =>
   exact tallied.onwards here rfl rfl (tallied.mutex.stay (by rw [here]; rfl)) rfl rfl rfl
    rfl
  | false =>
   exact tallied.onwards here rfl rfl (tallied.mutex.stay (by rw [here]; rfl)) rfl rfl rfl
    rfl
 | tested =>
  simp only [State.work, here] at taken
  cases taken
  exact tallied.onwards here rfl rfl (tallied.mutex.unlock (by rw [here]; rfl) rfl) rfl rfl
   rfl rfl
 | passed =>
  simp only [State.work, here] at taken
  split at taken
  · split at taken
    · -- the worker leaves a pool that is larger than it has to be
      rename_i more
      cases taken
      have bounds := tallied.bounds
      rw [tallied.limits.1] at more
      exact tallied.goes rfl (tallied.mutex.unlock (by rw [here]; rfl) rfl) rfl
       (tallied.born index (by rw [here]; rfl)) (by dsimp only; omega)
       (tallied.busy.stay (by rw [here]; rfl))
       fun up => (tallied.live up).depart (by rw [here]; rfl) rfl
    · cases taken
      exact tallied.onwards here rfl rfl (tallied.mutex.stay (by rw [here]; rfl)) rfl rfl rfl
       rfl
  · cases taken
    exact tallied.onwards here rfl rfl (tallied.mutex.stay (by rw [here]; rfl)) rfl rfl rfl rfl
 | checked =>
  simp only [State.work, here] at taken
  split at taken
  · -- only a pool that is being destroyed loses this worker
    rename_i shutdown
    cases taken
    exact tallied.goes rfl (tallied.mutex.unlock (by rw [here]; rfl) rfl) rfl
     (tallied.born index (by rw [here]; rfl)) tallied.bounds
     (tallied.busy.stay (by rw [here]; rfl))
     fun up => absurd (shutdown.symm.trans up) Bool.noConfusion
  · cases taken
    exact tallied.onwards here rfl rfl (tallied.mutex.stay (by rw [here]; rfl)) rfl rfl rfl rfl
 | fetching => exact tallied.fetch here taken
 | fetched task =>
  simp only [State.work, here] at taken
  cases taken
  have mutex {next : Stage Callback Arg} (free : next.holdsLock = false) :
   Guards Stage.holdsLock (update state.stage (.worker index) next) none :=
   tallied.mutex.unlock (by rw [here]; rfl) free
  cases called : task.callback.isSome with
  | true => exact tallied.onwards here rfl rfl (mutex rfl) rfl rfl rfl called.symm
  | false => exact tallied.onwards here rfl rfl (mutex rfl) rfl rfl rfl called.symm
 | running task =>
  simp only [State.work, here] at taken
  cases taken
  exact tallied.goes rfl (tallied.mutex.stay (by rw [here]; rfl)) rfl
   (tallied.born index (by rw [here]; rfl)) tallied.bounds
   (tallied.busy.depart (by rw [here]; rfl) rfl)
   fun up => (tallied.live up).stay (by rw [here]; rfl)
 | _ =>
  simp only [State.work, here] at taken
  cases taken

theorem Tallied.manager (nextStage : next.stage = update state.stage .manager stage)
 (mutex : Guards Stage.holdsLock next.stage next.mMutexPool)
 (same : (next.mThreads, next.mMinNum, next.mMaxNum, next.mLiveNum, next.mBusyNum) =
  (state.mThreads, state.mMinNum, state.mMaxNum, state.mLiveNum, state.mBusyNum))
 (up : next.mShutdown = false → state.mShutdown = false) : Tallied least most next := by
 refine tallied.kept (fun index => .inl ?_) mutex same up
 have apart : Tid.worker index ≠ .manager := fun same => by cases same
 rw [nextStage, update_of_ne apart]

theorem Tallied.create (few : state.mLiveNum < most) (room : state.mThreads < most) :
 Tallied least most { state.move (.worker state.mThreads) .locking with
  mThreads := state.mThreads + 1
  mLiveNum := state.mLiveNum + 1 } := by
 have fresh : (state.stage (.worker state.mThreads)).live = false :=
  eq_false_iff.mpr fun live => Nat.lt_irrefl _ (tallied.born _ live)
 have unheld : (state.stage (.worker state.mThreads)).holdsLock = false :=
  eq_false_iff.mpr fun held => eq_false_iff.mp fresh (Stage.live_of_holdsLock held)
 have idle : (state.stage (.worker state.mThreads)).isBusy = false :=
  eq_false_iff.mpr fun busy =>
   eq_false_iff.mp fresh (Stage.live_of_isBusy _ busy)
 have bounds := tallied.bounds
 refine
  { mutex := tallied.mutex.stay unheld.symm
    born := fun index alive => ?_
    limits := tallied.limits
    threads := room
    bounds := ⟨by dsimp only; omega, few⟩
    busy := tallied.busy.stay idle.symm
    live := fun up => (tallied.live up).arrive fresh rfl }
 by_cases me : index = state.mThreads
 · exact me ▸ Nat.lt_succ_self _
 · rw [move_other _ _ fun same => me (Tid.worker.inj same)] at alive
   exact Nat.lt_succ_of_lt (tallied.born index alive)

theorem Tallied.manage (taken : state.manage = some next) : Tallied least most next := by
 cases here : state.stage .manager with
 | looping | counted | trimming =>
  simp only [State.manage, here] at taken
  cases taken
  refine tallied.manager rfl (tallied.mutex.stay ?_) rfl id
  rw [here]
  split <;> rfl
 | sleeping | sized | lived | marking =>
  simp only [State.manage, here] at taken
  cases taken
  exact tallied.manager rfl (tallied.mutex.stay (by rw [here]; rfl)) rfl id
 | creating | destroying =>
  simp only [State.manage, here] at taken
  obtain ⟨nobody, same⟩ := ite_none_right_eq_some.mp taken
  cases same
  exact tallied.manager rfl (tallied.mutex.lock (isNone_iff_eq_none.mp nobody) rfl)
   rfl id
 | making liveSize busySize i count =>
  simp only [State.manage, here] at taken
  split at taken
  · rename_i again
    split at taken
    · rename_i slot
      cases taken
      rw [tallied.limits.2] at again
      have made := tallied.create again.2.2 (by omega)
      have manager : (state.move (.worker state.mThreads) .locking).stage .manager =
       .making liveSize busySize i count :=
       (move_other _ _ fun same => by cases same).trans here
      exact made.manager rfl (made.mutex.stay (congrArg Stage.holdsLock manager).symm) rfl id
    · cases taken
      exact tallied.manager rfl (tallied.mutex.stay (by rw [here]; rfl)) rfl id
  · cases taken
    exact tallied.manager rfl (tallied.mutex.unlock (by rw [here]; rfl) rfl) rfl id
 | calling =>
  simp only [State.manage, here] at taken
  cases taken
  have woken : Guards Stage.holdsLock state.notifyAll.stage state.mMutexPool :=
   tallied.mutex.same fun tid => Stage.holdsLock_wake _
  refine tallied.kept (fun index => .inr ?_) (woken.stay ?_) rfl id
  · exact move_other state.notifyAll _ fun same => by cases same
  · exact ((Stage.holdsLock_wake _).trans (by rw [here]; rfl)).symm
 | called =>
  simp only [State.manage, here] at taken
  cases taken
  exact tallied.manager rfl (tallied.mutex.unlock (by rw [here]; rfl) rfl) rfl id
 | _ =>
  simp only [State.manage, here] at taken
  cases taken

theorem Tallied.unblock (blocked : (state.stage (.worker index)).isBlocked = true) :
 Tallied least most (state.move (.worker index) .locking) := by
 have there := Stage.eq_blocked blocked
 exact tallied.onwards there rfl rfl (tallied.mutex.stay (by rw [there]; rfl)) rfl rfl rfl rfl

theorem Tallied.destroy (taken : state.destroy = some next) : Tallied least most next := by
 have still : ∀ index, state.stage (.worker index) = state.stage (.worker index) ∨
  state.stage (.worker index) = (state.stage (.worker index)).wake := fun _ => .inl rfl
 unfold State.destroy at taken
 split at taken
 · cases taken
   exact tallied.kept still tallied.mutex rfl fun up => by cases up
 · cases taken
   exact tallied.kept (fun _ => .inr rfl)
    (tallied.mutex.same fun tid => Stage.holdsLock_wake _) rfl id
 · obtain ⟨_, same⟩ := ite_none_left_eq_some.mp taken
   cases same
   exact tallied.kept still tallied.mutex rfl id
 · obtain ⟨_, same⟩ := ite_none_left_eq_some.mp taken
   cases same
   exact tallied.kept still tallied.mutex rfl id
 · cases taken

end

variable [DecidableEq Adder] {event : Event Callback Arg Adder}

theorem Tallied.step (tallied : Tallied least most state) (taken : state.step event = some next) :
 Tallied least most next := by
 have still : ∀ index, state.stage (.worker index) = state.stage (.worker index) ∨
  state.stage (.worker index) = (state.stage (.worker index)).wake := fun _ => .inl rfl
 cases event with
 | go tid =>
  cases tid with
  | worker index => exact tallied.work taken
  | manager => exact tallied.manage taken
 | spurious index =>
  obtain ⟨blocked, same⟩ := ite_none_right_eq_some.mp taken
  cases same
  exact tallied.unblock blocked
 | addTask adder task =>
  simp only [step] at taken
  split at taken <;> cases taken
  exact tallied.kept still tallied.mutex rfl id
 | add adder =>
  simp only [step, add] at taken
  split at taken <;> cases taken <;> exact tallied.kept still tallied.mutex rfl id
 | notifyOne adder woken =>
  simp only [step, notifyOne] at taken
  split at taken
  · obtain ⟨blocked, same⟩ := ite_none_right_eq_some.mp taken
    cases same
    have unblocked := tallied.unblock blocked
    exact unblocked.kept (fun _ => .inl rfl) unblocked.mutex rfl id
  · obtain ⟨_, same⟩ := ite_none_right_eq_some.mp taken
    cases same
    exact tallied.kept still tallied.mutex rfl id
  · cases taken
 | destroy => exact tallied.destroy taken

theorem tallied_of_run (positive : 1 ≤ least) (ordered : least ≤ most)
 {events : List (Event Callback Arg Adder)}
 (run : Run (ofFunction step) (start least most) events state) :
 Tallied least most state :=
 run.invariant (start_tallied positive ordered) fun _ _ _ before taken => before.step taken

/-! ### A pass that creates threads -/

/-- The manager takes the lock to create threads, and gives it back after its loop. -/
def GrowthPass (start : State Callback Arg Adder) (events : List (Event Callback Arg Adder))
 (locked given : State Callback Arg Adder) : Prop :=
 ∃ first rest begun held liveSize busySize,
  first ++ .go .manager :: (rest ++ [.go .manager]) <+: events ∧
  Run (ofFunction step) start first locked ∧
  locked.stage .manager = .creating liveSize busySize ∧
  locked.step (.go .manager) = some begun ∧
  Run (Guarded (fun state _ => (state.stage .manager).inLoop = true) (ofFunction step))
   begun rest held ∧
  (held.stage .manager).inLoop = true ∧ held.step (.go .manager) = some given ∧
  (given.stage .manager).inLoop = false

/-- The pass has started as many workers as there may be, but at most two. -/
def Grown (locked given : State Callback Arg Adder) : Prop :=
 (given.mThreads : ℤ) = locked.mThreads + min 2 (locked.mMaxNum - locked.mLiveNum)

/-- Behind the threads of `m_threads`, finished ones included, there is room for the new ones. -/
def HasRoom (locked : State Callback Arg Adder) : Prop :=
 locked.mThreads + min 2 (locked.mMaxNum - locked.mLiveNum) ≤ locked.mMaxNum

/-- The loop has passed the old threads and created `count` new ones behind them. -/
structure Growing (locked state : State Callback Arg Adder) (i count : ℕ) : Prop where
 threads : state.mThreads = locked.mThreads + count
 live : state.mLiveNum = locked.mLiveNum + count
 few : count ≤ 2
 place : i = locked.mThreads + count ∨ count = 0 ∧ i ≤ locked.mThreads

variable {locked given begun held : State Callback Arg Adder} {liveSize busySize : ℤ} {i count : ℕ}

omit [DecidableEq Adder] in
theorem work_manager (taken : state.work index = some next) :
 next.stage .manager = state.stage .manager ∧ next.mThreads = state.mThreads ∧
  (next.mLiveNum = state.mLiveNum ∨ state.stage (.worker index) = .passed) := by
 have manager : ∀ (pool : State Callback Arg Adder) (place : Stage Callback Arg),
  pool.stage = update state.stage (.worker index) place →
   pool.stage .manager = state.stage .manager := by
  intro pool place nextStage
  rw [nextStage]
  exact update_of_ne (fun same => by cases same) _ _
 cases here : state.stage (.worker index) with
 | fetching =>
  simp only [work, here, getTask] at taken
  cases list : state.mTaskQueue with
  | nil | cons =>
   simp only [list] at taken
   cases taken
   exact ⟨manager _ _ rfl, rfl, .inl rfl⟩
 | locking =>
  simp only [work, here] at taken
  obtain ⟨_, same⟩ := ite_none_right_eq_some.mp taken
  cases same
  exact ⟨manager _ _ rfl, rfl, .inl rfl⟩
 | passed =>
  simp only [work, here] at taken
  split at taken
  · split at taken <;> cases taken <;> exact ⟨manager _ _ rfl, rfl, .inr rfl⟩
  · cases taken
    exact ⟨manager _ _ rfl, rfl, .inr rfl⟩
 | checked =>
  simp only [work, here] at taken
  split at taken <;> cases taken <;> exact ⟨manager _ _ rfl, rfl, .inl rfl⟩
 | testing | tested | fetched | running =>
  simp only [work, here] at taken
  cases taken
  exact ⟨manager _ _ rfl, rfl, .inl rfl⟩
 | _ =>
  simp only [work, here] at taken
  cases taken

theorem kept_inLoop (tallied : Tallied least most state)
 (here : state.stage .manager = .making liveSize busySize i count)
 (taken : state.step event = some next) (other : event ≠ .go .manager) :
 next.stage .manager = .making liveSize busySize i count ∧
  next.mThreads = state.mThreads ∧ next.mLiveNum = state.mLiveNum := by
 have held : (state.stage .manager).holdsLock = true := by rw [here]; rfl
 have still : ∀ index, (state.move (.worker index) .locking).stage .manager =
  .making liveSize busySize i count :=
  fun index => (move_other state _ fun same => by cases same).trans here
 cases event with
 | go tid =>
  cases tid with
  | manager => exact absurd rfl other
  | worker index =>
   obtain ⟨manager, threads, live | passed⟩ := work_manager taken
   · exact ⟨manager.trans here, threads, live⟩
   · cases tallied.mutex.exclusive held
      (by rw [passed]; rfl : (state.stage (.worker index)).holdsLock = true)
 | spurious index =>
  obtain ⟨_, same⟩ := ite_none_right_eq_some.mp taken
  cases same
  exact ⟨still index, rfl, rfl⟩
 | addTask adder task =>
  simp only [step] at taken
  split at taken <;> cases taken
  exact ⟨here, rfl, rfl⟩
 | add adder =>
  simp only [step, add] at taken
  split at taken <;> cases taken <;> exact ⟨here, rfl, rfl⟩
 | notifyOne adder woken =>
  simp only [step, notifyOne] at taken
  split at taken
  · rename_i woken _
    obtain ⟨_, same⟩ := ite_none_right_eq_some.mp taken
    cases same
    exact ⟨still woken, rfl, rfl⟩
  · obtain ⟨_, same⟩ := ite_none_right_eq_some.mp taken
    cases same
    exact ⟨here, rfl, rfl⟩
  · cases taken
 | destroy =>
  simp only [step, destroy] at taken
  split at taken
  · cases taken
    exact ⟨here, rfl, rfl⟩
  · cases taken
    exact ⟨congrArg Stage.wake here, rfl, rfl⟩
  · grind
  · obtain ⟨_, same⟩ := ite_none_left_eq_some.mp taken
    cases same
    exact ⟨here, rfl, rfl⟩
  · cases taken

omit [DecidableEq Adder] in
theorem Growing.manage (growing : Growing locked state i count)
 (here : state.stage .manager = .making liveSize busySize i count)
 (taken : state.manage = some next) :
 (∃ later more, next.stage .manager = .making liveSize busySize later more ∧
  Growing locked next later more) ∨
 ((next.stage .manager).inLoop = false ∧ next.mThreads = state.mThreads ∧
  ¬ ((i : ℤ) < state.mMaxNum ∧ count < 2 ∧ state.mLiveNum < state.mMaxNum)) := by
 obtain ⟨threads, live, few, place⟩ := growing
 simp only [State.manage, here] at taken
 split at taken
 · rename_i again
   split at taken
   · cases taken
     have manager := move_self (state.move (.worker state.mThreads) .locking) .manager
      (.making liveSize busySize (i + 1) (count + 1))
     refine .inl ⟨i + 1, count + 1, manager, ?_, ?_, again.2.1, ?_⟩
     · dsimp only
       omega
     · dsimp only
       omega
     · omega
   · cases taken
     refine .inl ⟨i + 1, count, move_self state _ _, threads, live, few, ?_⟩
     omega
 · rename_i ended
   cases taken
   have manager := move_self state .manager (.trimming liveSize busySize)
   exact .inr ⟨congrArg Stage.inLoop manager, rfl, ended⟩

theorem Growing.step (tallied : Tallied least most state) (growing : Growing locked state i count)
 (here : state.stage .manager = .making liveSize busySize i count)
 (taken : state.step event = some next) (inside : (next.stage .manager).inLoop = true) :
 ∃ later more, next.stage .manager = .making liveSize busySize later more ∧
  Growing locked next later more := by
 by_cases own : event = .go .manager
 · subst own
   rcases growing.manage here taken with onwards | ⟨outside, _⟩
   · exact onwards
   · cases outside.symm.trans inside
 · obtain ⟨manager, threads, live⟩ := kept_inLoop tallied here taken own
   exact ⟨i, count, manager, threads.trans growing.threads, live.trans growing.live, growing.few,
    growing.place⟩

theorem grown_iff (positive : 1 ≤ least) (ordered : least ≤ most)
 {events : List (Event Callback Arg Adder)}
 (pass : GrowthPass (start least most) events locked given) :
 Grown locked given ↔ HasRoom locked := by
 obtain ⟨first, rest, begun, held, liveSize, busySize, _, before, creating, locking, loop,
  inside, leaving, outside⟩ := pass
 have lockedTallied := tallied_of_run positive ordered before
 have begunTallied := lockedTallied.step locking
 -- the loop begins at the first thread, with none created
 have start : begun.stage .manager = .making liveSize busySize 0 0 ∧
  Growing locked begun 0 0 := by
  simp only [step, manage, creating] at locking
  obtain ⟨_, same⟩ := ite_none_right_eq_some.mp locking
  cases same
  have manager := move_self locked .manager (.making liveSize busySize 0 0)
  exact ⟨manager, rfl, (Int.add_zero _).symm, Nat.zero_le _, .inr ⟨rfl, Nat.zero_le _⟩⟩
 let holds : State Callback Arg Adder → Prop := fun now => Tallied least most now ∧
  ((now.stage .manager).inLoop = true → ∃ i count,
   now.stage .manager = .making liveSize busySize i count ∧ Growing locked now i count)
 have initial : holds begun := ⟨begunTallied, fun _ => ⟨0, 0, start⟩⟩
 have kept : holds held := by
  refine loop.invariant initial fun state event next now taken => ?_
  refine ⟨now.1.step taken.2, fun inside => ?_⟩
  obtain ⟨i, count, here, growing⟩ := now.2 taken.1
  exact growing.step now.1 here taken.2 inside
 obtain ⟨i, count, here, growing⟩ := kept.2 inside
 rcases growing.manage here leaving with ⟨_, _, again, _⟩ | ⟨_, threads, ended⟩
 · rw [again] at outside
   cases outside
 · obtain ⟨heldThreads, live, few, place⟩ := growing
   have limit := kept.1.limits.2
   have lockedLimit := lockedTallied.limits.2
   have bounds := kept.1.bounds
   have most_threads := kept.1.threads
   unfold Grown HasRoom
   omega

/--
The counters are right in every state before the shutdown, and every pass that creates threads
starts as many as there may be, if and only if no such pass finds `m_threads` too long.
-/
theorem sizing_iff (least most : ℤ) (positive : 1 ≤ least) (ordered : least ≤ most)
 {events : List (Event Callback Arg Adder)} {final : State Callback Arg Adder}
 (run : Run (ofFunction step) (start least most) events final) :
 ((final.mShutdown = false → Sized least most final) ∧
  ∀ locked given, GrowthPass (start least most) events locked given → Grown locked given) ↔
 ∀ locked given, GrowthPass (start least most) events locked given → HasRoom locked := by
 constructor
 · rintro ⟨_, grown⟩ locked given pass
   exact (grown_iff positive ordered pass).mp (grown locked given pass)
 · intro room
   refine ⟨(tallied_of_run positive ordered run).sized, fun locked given pass => ?_⟩
   exact (grown_iff positive ordered pass).mpr (room locked given pass)

def manages (number : ℕ) : List (Event Unit ℕ Unit) := List.replicate number (.go .manager)

/-- Two tasks for one worker: a pass of the manager that creates two more. -/
def exampleGrowth : List (Event Unit ℕ Unit) := adds none ++ adds none ++ manages 9

theorem sizing_iff_growth : ∃ final : State Unit ℕ Unit,
 Run (ofFunction step) (start 1 3) exampleGrowth final ∧ final.mLiveNum = 3 ∧
 (((final.mShutdown = false → Sized 1 3 final) ∧
  ∀ locked given, GrowthPass (start 1 3) exampleGrowth locked given → Grown locked given) ↔
  ∀ locked given, GrowthPass (start 1 3) exampleGrowth locked given → HasRoom locked) := by
 obtain ⟨final, same, live⟩ : ∃ final : State Unit ℕ Unit,
  replay step (start 1 3) exampleGrowth = some final ∧ final.mLiveNum = 3 := ⟨_, rfl, rfl⟩
 have run := Run.of_replay_all same
 exact ⟨final, run, live, sizing_iff 1 3 (by decide) (by decide) run⟩

/-- The pool has grown to two workers and has shrunk, when two tasks wait for one worker. -/
def shrunk : List (Event Unit ℕ Unit) :=
 adds none ++ adds none ++ manages 20 ++ goes 0 3 ++ manages 5

/-- Both threads of `m_threads` are still joinable, so that the pass starts no worker. -/
theorem growth_stops : ∃ locked given : State Unit ℕ Unit,
 Run (ofFunction step) (start 1 2) (shrunk ++ manages 4) given ∧
 GrowthPass (start 1 2) (shrunk ++ manages 4) locked given ∧
 locked.mThreads = 2 ∧ locked.mLiveNum = 1 ∧ given.mThreads = 2 ∧ ¬ Grown locked given := by
 obtain ⟨locked, begun, held, given, before, creating, locking, loop, inside, leaving, outside,
  threads, live, limit, same⟩ : ∃ locked begun held given : State Unit ℕ Unit,
  replay step (start 1 2) shrunk = some locked ∧ locked.stage .manager = .creating 1 0 ∧
  locked.step (.go .manager) = some begun ∧
  replay (restrict (fun state _ => (state.stage .manager).inLoop = true) step) begun
   (manages 2) = some held ∧
  (held.stage .manager).inLoop = true ∧ held.step (.go .manager) = some given ∧
  (given.stage .manager).inLoop = false ∧ locked.mThreads = 2 ∧ locked.mLiveNum = 1 ∧
  locked.mMaxNum = 2 ∧ given.mThreads = 2 :=
  ⟨_, _, _, _, rfl, rfl, rfl, rfl, rfl, rfl, rfl, rfl, rfl, rfl, rfl⟩
 have first := Run.of_replay_all before
 have middle := Run.of_replay loop
 have whole := (((first.snoc locking).trans middle.of_guarded).snoc leaving)
 refine ⟨locked, given, ?_, ⟨shrunk, manages 2, begun, held, 1, 0, List.prefix_refl _, first,
  creating, locking, middle, inside, leaving, outside⟩, threads, live, same, ?_⟩
 · exact whole
 · unfold Grown
   omega

end State

end MyNotes.Algorithms.ThreadPool
