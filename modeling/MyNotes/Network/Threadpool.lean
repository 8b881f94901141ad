/-
The request queue of the web server's thread pool.

A thread is a worker, which runs `run` for ever, or a producer, which calls `append` or
`append_p`.  A request in the queue carries the call that put it there, so that two calls with
the same request stay apart; what a worker does with a request is one step.  A state also keeps
the requests that were accepted, those that were taken and the results of the calls.
-/

import MyNotes.Library.Mutex
import MyNotes.Library.ThreadCount
import MyNotes.Library.Transition

namespace MyNotes.Network.Threadpool

open Library.Transition Library.Mutex Library.ThreadCount Function List Option

variable {Worker Producer Request : Type}

/-- A request as the call number `call` of a producer passes it. -/
structure Item (Producer Request : Type) where
 request : Request
 producer : Producer
 call : ℕ

inductive Stage (Producer Request : Type) where
 -- `run`
 | waiting
 | waited
 | locked
 | missed
 | took (item : Item Producer Request)
 | working (item : Item Producer Request)
 -- `append`, with the state that the request gets, or `append_p`
 | idle
 | appending (item : Item Producer Request) (state : Option ℤ)
 | checking (item : Item Producer Request) (state : Option ℤ)
 | rejected (item : Item Producer Request)
 | pushed (item : Item Producer Request)
 | posting (item : Item Producer Request)

namespace Stage

def holdsLock : Stage Producer Request → Bool
 | .locked => true
 | .missed => true
 | .took _ => true
 | .checking .. => true
 | .rejected _ => true
 | .pushed _ => true
 | _ => false

/-- The semaphore and the queue differ by this thread. -/
def due : Stage Producer Request → Bool
 | .waited => true
 | .locked => true
 | .pushed _ => true
 | .posting _ => true
 | _ => false

def passing : Stage Producer Request → Option (Item Producer Request)
 | .appending item _ => some item
 | .checking item _ => some item
 | .rejected item => some item
 | .pushed item => some item
 | .posting item => some item
 | _ => none

/-- What a producer has put into the queue in its call. -/
def enqueued : Stage Producer Request → Option (Item Producer Request)
 | .pushed item => some item
 | .posting item => some item
 | _ => none

end Stage

structure State (Worker Producer Request : Type) where
 mMaxRequests : ℕ
 mWorkqueue : List (Item Producer Request)
 mQueuelocker : Option (Worker ⊕ Producer)
 mQueuestat : ℕ
 mState : Request → Option ℤ
 stage : Worker ⊕ Producer → Stage Producer Request
 calls : Producer → ℕ
 accepted : List (Item Producer Request)
 taken : List (Worker × Item Producer Request)
 returned : List (Item Producer Request × Bool)

inductive Event (Worker Producer Request : Type) where
 | append (producer : Producer) (request : Request) (state : ℤ)
 | appendP (producer : Producer) (request : Request)
 /-- The next step of a thread. -/
 | go (tid : Worker ⊕ Producer)

def start (maxRequests : ℕ) : State Worker Producer Request where
 mMaxRequests := maxRequests
 mWorkqueue := []
 mQueuelocker := none
 mQueuestat := 0
 mState _ := none
 stage
  | .inl _ => .waiting
  | .inr _ => .idle
 calls _ := 0
 accepted := []
 taken := []
 returned := []

namespace State

variable [DecidableEq Worker] [DecidableEq Producer] [DecidableEq Request]

section

variable (self : State Worker Producer Request)

def move (tid : Worker ⊕ Producer)
 (stage : Stage Producer Request) : State Worker Producer Request :=
 { self with stage := update self.stage tid stage }

def finish (item : Item Producer Request) (result : Bool) : State Worker Producer Request :=
 { self with
  calls := update self.calls item.producer (self.calls item.producer + 1)
  returned := self.returned ++ [(item, result)] }

def run (worker : Worker) : Option (State Worker Producer Request) :=
 match self.stage (.inl worker) with
 | .waiting =>
  if 0 < self.mQueuestat then
   some { self.move (.inl worker) .waited with mQueuestat := self.mQueuestat - 1 }
  else none
 | .waited =>
  if self.mQueuelocker.isNone then
   some { self.move (.inl worker) .locked with mQueuelocker := some (.inl worker) }
  else none
 | .locked =>
  match self.mWorkqueue with
  | [] => some (self.move (.inl worker) .missed)
  | item :: rest =>
   some { self.move (.inl worker) (.took item) with
    mWorkqueue := rest
    taken := self.taken ++ [(worker, item)] }
 | .missed => some { self.move (.inl worker) .waiting with mQueuelocker := none }
 | .took item => some { self.move (.inl worker) (.working item) with mQueuelocker := none }
 | .working _ => some (self.move (.inl worker) .waiting)
 | _ => none

def add (producer : Producer) : Option (State Worker Producer Request) :=
 match self.stage (.inr producer) with
 | .appending item state =>
  if self.mQueuelocker.isNone then
   some { self.move (.inr producer) (.checking item state) with
    mQueuelocker := some (.inr producer) }
  else none
 | .checking item state =>
  if self.mMaxRequests ≤ self.mWorkqueue.length then
   some (self.move (.inr producer) (.rejected item))
  else
   some { self.move (.inr producer) (.pushed item) with
    -- `append_p` leaves `m_state` as it is
    mState :=
     if state.isSome then update self.mState item.request state else self.mState
    mWorkqueue := self.mWorkqueue ++ [item]
    accepted := self.accepted ++ [item] }
 | .rejected item =>
  some { (self.move (.inr producer) .idle).finish item false with mQueuelocker := none }
 | .pushed item =>
  some { self.move (.inr producer) (.posting item) with mQueuelocker := none }
 | .posting item =>
  some { (self.move (.inr producer) .idle).finish item true with
   mQueuestat := self.mQueuestat + 1 }
 | _ => none

def call (producer : Producer) (request : Request)
 (state : Option ℤ) : Option (State Worker Producer Request) :=
 match self.stage (.inr producer) with
 | .idle =>
  some (self.move (.inr producer)
   (.appending ⟨request, producer, self.calls producer⟩ state))
 | _ => none

def go : Worker ⊕ Producer → Option (State Worker Producer Request)
 | .inl worker => self.run worker
 | .inr producer => self.add producer

def step : Event Worker Producer Request → Option (State Worker Producer Request)
 | .append producer request state => self.call producer request (some state)
 | .appendP producer request => self.call producer request none
 | .go tid => self.go tid

end

structure Sound (state : State Worker Producer Request) : Prop where
 fits : state.mWorkqueue.length ≤ state.mMaxRequests
 /-- Accepted requests are taken in their order; the others are still in the queue. -/
 order : state.accepted = state.taken.map Prod.snd ++ state.mWorkqueue
 /-- No call is accepted twice, so none is taken twice. -/
 distinct : state.accepted.Nodup
 result : ∀ item result, (item, result) ∈ state.returned →
  (item ∈ state.accepted ↔ result = true)
 rejected : ∀ item, (item, false) ∈ state.returned → ∀ worker, (worker, item) ∉ state.taken
 found : ∀ worker, state.stage (.inl worker) = .locked → state.mWorkqueue ≠ []

/-! ### Accounting -/

structure Accounted (state : State Worker Producer Request) : Prop where
 mutex : Guards Stage.holdsLock state.stage state.mQueuelocker
 fits : state.mWorkqueue.length ≤ state.mMaxRequests
 order : state.accepted = state.taken.map Prod.snd ++ state.mWorkqueue
 /-- A unit of the semaphore stands for a request in the queue. -/
 due : ∃ number, Counted Stage.due state.stage number ∧
  state.mWorkqueue.length = state.mQueuestat + number
 present : ∀ tid, state.stage tid ≠ .missed

structure Numbered (state : State Worker Producer Request) : Prop where
 passing : ∀ {producer item}, (state.stage (.inr producer)).passing = some item →
  item.producer = producer ∧ item.call = state.calls producer
 accepted : ∀ {item}, item ∈ state.accepted → item.call < state.calls item.producer ∨
  (state.stage (.inr item.producer)).enqueued = some item
 enqueued : ∀ {producer item}, (state.stage (.inr producer)).enqueued = some item →
  item ∈ state.accepted
 distinct : state.accepted.Nodup
 returned : ∀ {item result}, (item, result) ∈ state.returned →
  item.call < state.calls item.producer ∧ (item ∈ state.accepted ↔ result = true)

variable {state next : State Worker Producer Request} {tid : Worker ⊕ Producer}
 {worker : Worker} {producer : Producer} {stage : Stage Producer Request}
 {item : Item Producer Request} {event : Event Worker Producer Request}

section

omit [DecidableEq Worker] [DecidableEq Producer] [DecidableEq Request]

theorem Accounted.found (accounted : state.Accounted) (locked : state.stage tid = .locked) :
 state.mWorkqueue ≠ [] := by
 obtain ⟨number, counted, sum⟩ := accounted.due
 have mine : (state.stage tid).due = true := by rw [locked]; rfl
 have positive := counted.pos mine
 grind

theorem Accounted.sound (accounted : state.Accounted) (numbered : state.Numbered) :
 state.Sound where
 fits := accounted.fits
 order := accounted.order
 distinct := numbered.distinct
 result _ _ member := (numbered.returned member).2
 rejected item member worker taken := by
  have inside : item ∈ state.accepted := by
   rw [accounted.order]
   exact mem_append_left _ (mem_map_of_mem taken)
  cases (numbered.returned member).2.mp inside
 found _ locked := accounted.found locked

theorem start_accounted (maxRequests : ℕ) :
 (start maxRequests : State Worker Producer Request).Accounted where
 mutex := Guards.start fun
  | .inl _ => rfl
  | .inr _ => rfl
 fits := Nat.zero_le _
 order := rfl
 due := ⟨0, Counted.start fun
  | .inl _ => rfl
  | .inr _ => rfl, rfl⟩
 present
  | .inl _ => nofun
  | .inr _ => nofun

theorem start_numbered (maxRequests : ℕ) :
 (start maxRequests : State Worker Producer Request).Numbered where
 passing same := by cases same
 accepted member := absurd member not_mem_nil
 enqueued same := by cases same
 distinct := nodup_nil
 returned member := absurd member not_mem_nil

end

section

variable (accounted : state.Accounted)
include accounted

section

omit [DecidableEq Request]

theorem present_update (found : stage ≠ .missed) (other : Worker ⊕ Producer) :
 update state.stage tid stage other ≠ .missed := by
 by_cases me : other = tid
 · rw [me, update_self]
   exact found
 · rw [update_of_ne me]
   exact accounted.present other

theorem Accounted.moved (nextStage : next.stage =
 update state.stage tid stage) (mutex : Guards Stage.holdsLock next.stage next.mQueuelocker)
 (same : (next.mMaxRequests, next.mWorkqueue, next.mQueuestat, next.accepted, next.taken) =
  (state.mMaxRequests, state.mWorkqueue, state.mQueuestat, state.accepted, state.taken))
 (due : stage.due = (state.stage tid).due) (found : stage ≠ .missed) : next.Accounted := by
 simp only [Prod.mk.injEq] at same
 obtain ⟨sameMax, sameQueue, sameStat, sameAccepted, sameTaken⟩ := same
 refine ⟨mutex, ?_, ?_, ?_, ?_⟩
 · rw [sameMax, sameQueue]
   exact accounted.fits
 · rw [sameAccepted, sameTaken, sameQueue]
   exact accounted.order
 · obtain ⟨number, counted, sum⟩ := accounted.due
   rw [sameQueue, sameStat, nextStage]
   exact ⟨number, counted.stay due, sum⟩
 · rw [nextStage]
   exact present_update accounted found

theorem Accounted.run (taken : state.run worker = some next) : next.Accounted := by
 cases here : state.stage (.inl worker) with
 | waiting =>
  simp only [State.run, here] at taken
  obtain ⟨positive, same⟩ := ite_none_right_eq_some.mp taken
  cases same
  obtain ⟨number, counted, sum⟩ := accounted.due
  refine ⟨accounted.mutex.stay (by rw [here]; rfl), accounted.fits, accounted.order,
   ⟨number + 1, counted.arrive (by rw [here]; rfl) rfl, ?_⟩, present_update accounted nofun⟩
  change state.mWorkqueue.length = state.mQueuestat - 1 + (number + 1)
  omega
 | waited =>
  simp only [State.run, here] at taken
  obtain ⟨nobody, same⟩ := ite_none_right_eq_some.mp taken
  cases same
  exact accounted.moved rfl
   (accounted.mutex.lock (isNone_iff_eq_none.mp nobody) rfl) rfl (by rw [here]; rfl)
   nofun
 | locked =>
  simp only [State.run, here] at taken
  cases list : state.mWorkqueue with
  | nil => exact absurd list (accounted.found here)
  | cons item rest =>
   simp only [list] at taken
   cases taken
   obtain ⟨number, counted, sum⟩ := accounted.due
   obtain ⟨left, more, fewer⟩ : ∃ left, number = left + 1 ∧ Counted Stage.due
    (update state.stage (.inl worker) (.took item)) left :=
    counted.depart (by rw [here]; rfl) rfl
   have fits := accounted.fits
   have order := accounted.order
   rw [list, length_cons] at sum fits
   refine ⟨accounted.mutex.stay (by rw [here]; rfl), Nat.le_of_succ_le fits, ?_,
    ⟨left, fewer, ?_⟩, present_update accounted nofun⟩
   · rw [list] at order
     simp only [map_append, map_cons, map_nil, append_assoc]
     exact order
   · change rest.length = state.mQueuestat + left
     omega
 | missed => exact absurd here (accounted.present _)
 | took item =>
  simp only [State.run, here] at taken
  cases taken
  exact accounted.moved rfl (accounted.mutex.unlock (by rw [here]; rfl) rfl) rfl
   (by rw [here]; rfl) nofun
 | working item =>
  simp only [State.run, here] at taken
  cases taken
  exact accounted.moved rfl (accounted.mutex.stay (by rw [here]; rfl)) rfl (by rw [here]; rfl)
   nofun
 | idle | appending | checking | rejected | pushed | posting =>
  simp only [State.run, here] at taken
  cases taken

end

theorem Accounted.add (taken : state.add producer = some next) : next.Accounted := by
 cases here : state.stage (.inr producer) with
 | appending item status =>
  simp only [State.add, here] at taken
  obtain ⟨nobody, same⟩ := ite_none_right_eq_some.mp taken
  cases same
  exact accounted.moved rfl
   (accounted.mutex.lock (isNone_iff_eq_none.mp nobody) rfl) rfl (by rw [here]; rfl)
   nofun
 | checking item status =>
  simp only [State.add, here] at taken
  split at taken
  · cases taken
    exact accounted.moved rfl (accounted.mutex.stay (by rw [here]; rfl)) rfl
     (by rw [here]; rfl) nofun
  · rename_i room
    cases taken
    obtain ⟨number, counted, sum⟩ := accounted.due
    refine ⟨accounted.mutex.stay (by rw [here]; rfl), ?_, ?_,
     ⟨number + 1, counted.arrive (by rw [here]; rfl) rfl, ?_⟩, present_update accounted nofun⟩
    · change (state.mWorkqueue ++ [item]).length ≤ state.mMaxRequests
      simp_all
    · rw [accounted.order, append_assoc]
      rfl
    · rw [length_append, sum]
      rfl
 | rejected item =>
  simp only [State.add, here] at taken
  cases taken
  exact accounted.moved rfl (accounted.mutex.unlock (by rw [here]; rfl) rfl) rfl
   (by rw [here]; rfl) nofun
 | pushed item =>
  simp only [State.add, here] at taken
  cases taken
  exact accounted.moved rfl (accounted.mutex.unlock (by rw [here]; rfl) rfl) rfl
   (by rw [here]; rfl) nofun
 | posting item =>
  simp only [State.add, here] at taken
  cases taken
  obtain ⟨number, counted, sum⟩ := accounted.due
  obtain ⟨left, more, fewer⟩ : ∃ left, number = left + 1 ∧ Counted Stage.due
   (update state.stage (.inr producer) .idle) left :=
   counted.depart (by rw [here]; rfl) rfl
  refine ⟨accounted.mutex.stay (by rw [here]; rfl), accounted.fits, accounted.order,
   ⟨left, fewer, ?_⟩, present_update accounted nofun⟩
  change state.mWorkqueue.length = state.mQueuestat + 1 + left
  omega
 | idle | waiting | waited | locked | missed | took | working =>
  simp only [State.add, here] at taken
  cases taken

omit [DecidableEq Request] in
theorem Accounted.call {request : Request} {status : Option ℤ}
 (taken : state.call producer request status = some next) : next.Accounted := by
 unfold State.call at taken
 split at taken
 · rename_i here
   cases taken
   exact accounted.moved rfl (accounted.mutex.stay (by rw [here]; rfl)) rfl (by rw [here]; rfl)
    nofun
 · cases taken

theorem Accounted.step (taken : state.step event = some next) : next.Accounted := by
 cases event with
 | append producer request status => exact accounted.call taken
 | appendP producer request => exact accounted.call taken
 | go tid =>
  cases tid with
  | inl worker => exact accounted.run taken
  | inr producer => exact accounted.add taken

end

/-! ### Calls by their numbers -/

omit [DecidableEq Worker] [DecidableEq Producer] [DecidableEq Request] in
theorem passing_of_enqueued (same : stage.enqueued = some item) : stage.passing = some item := by
 cases stage with
 | pushed | posting => exact same
 | waiting | waited | locked | missed | took | working | idle | appending | checking
 | rejected => cases same

variable (numbered : state.Numbered)
include numbered

omit [DecidableEq Worker] [DecidableEq Producer] [DecidableEq Request] in
theorem Numbered.same (passing : ∀ producer, (next.stage (.inr producer)).passing =
  (state.stage (.inr producer)).passing)
 (enqueued : ∀ producer, (next.stage (.inr producer)).enqueued =
  (state.stage (.inr producer)).enqueued) (same : (next.calls, next.accepted, next.returned) =
  (state.calls, state.accepted, state.returned)) : next.Numbered := by
 simp only [Prod.mk.injEq] at same
 obtain ⟨sameCalls, sameAccepted, sameReturned⟩ := same
 constructor
 · intro producer item inside
   rw [passing] at inside
   rw [sameCalls]
   exact numbered.passing inside
 · intro item member
   rw [sameAccepted] at member
   rw [sameCalls, enqueued]
   exact numbered.accepted member
 · intro producer item inside
   rw [enqueued] at inside
   rw [sameAccepted]
   exact numbered.enqueued inside
 · rw [sameAccepted]
   exact numbered.distinct
 · intro item result member
   rw [sameReturned] at member
   rw [sameCalls, sameAccepted]
   exact numbered.returned member

omit [DecidableEq Request] in
theorem Numbered.moved (nextStage : next.stage =
 update state.stage (.inr producer) stage) (same : (next.calls, next.accepted, next.returned) =
  (state.calls, state.accepted, state.returned))
 (passing : stage.passing = (state.stage (.inr producer)).passing)
 (enqueued : stage.enqueued = (state.stage (.inr producer)).enqueued) : next.Numbered := by
 refine numbered.same (fun other => ?_) (fun other => ?_) same
 all_goals
  rw [nextStage]
  by_cases me : other = producer
  · rw [me, update_self]
    assumption
  · simp_all

section

variable (passing : (state.stage (.inr producer)).passing = some item)
include passing

omit [DecidableEq Request] in
theorem Numbered.finished {result : Bool} (outcome : item ∈ state.accepted ↔ result = true)
 (nextStage : next.stage =
  update state.stage (.inr producer) .idle) (same : (next.calls, next.accepted, next.returned) =
  (update state.calls item.producer (state.calls item.producer + 1), state.accepted,
   state.returned ++ [(item, result)])) : next.Numbered := by
 simp only [Prod.mk.injEq] at same
 obtain ⟨nextCalls, sameAccepted, nextReturned⟩ := same
 obtain ⟨mine, now⟩ := numbered.passing passing
 have grows : ∀ other, state.calls other ≤ next.calls other := by
  intro other
  rw [nextCalls]
  by_cases me : other = item.producer
  · rw [me, update_self]
    exact Nat.le_succ _
  · rw [update_of_ne me]
 have passed : item.call < next.calls item.producer := by
  rw [nextCalls, update_self, mine, now]
  exact Nat.lt_succ_self _
 have others : ∀ other, other ≠ producer →
  next.stage (.inr other) = state.stage (.inr other) ∧
   next.calls other = state.calls other := by
  intro other apart
  rw [nextStage, nextCalls, mine]
  exact ⟨update_of_ne (fun same => apart (Sum.inr.inj same)) _ _,
   update_of_ne apart _ _⟩
 have gone : next.stage (.inr producer) = .idle := by
  rw [nextStage]
  exact update_self _ _ _
 constructor
 · intro other item' inside
   by_cases me : other = producer
   · rw [me, gone] at inside
     cases inside
   · obtain ⟨sameStage, sameCalls⟩ := others other me
     rw [sameStage] at inside
     rw [sameCalls]
     exact numbered.passing inside
 · intro item' member
   rw [sameAccepted] at member
   rcases numbered.accepted member with earlier | pending
   · grind
   · by_cases me : item'.producer = producer
     · rw [me] at pending
       cases passing.symm.trans (passing_of_enqueued pending)
       exact .inl passed
     · rw [(others _ me).1]
       exact .inr pending
 · intro other item' inside
   rw [sameAccepted]
   by_cases me : other = producer
   · rw [me, gone] at inside
     cases inside
   · rw [(others other me).1] at inside
     exact numbered.enqueued inside
 · rw [sameAccepted]
   exact numbered.distinct
 · intro item' result' member
   rw [nextReturned] at member
   rw [sameAccepted]
   rcases mem_append.mp member with before | last
   · obtain ⟨earlier, known⟩ := numbered.returned before
     grind
   · simp_all

omit [DecidableEq Worker] [DecidableEq Producer] [DecidableEq Request] in
theorem Numbered.notMem (outside : (state.stage (.inr producer)).enqueued = none) :
 item ∉ state.accepted := by
 intro member
 obtain ⟨mine, now⟩ := numbered.passing passing
 rcases numbered.accepted member with earlier | pending
 · simp_all
 · rw [mine, outside] at pending
   cases pending

omit [DecidableEq Request] in
theorem Numbered.push (outside : (state.stage (.inr producer)).enqueued = none)
 (nextStage : next.stage =
  update state.stage (.inr producer) (.pushed item))
 (same : (next.calls, next.accepted, next.returned) =
  (state.calls, state.accepted ++ [item], state.returned)) : next.Numbered := by
 simp only [Prod.mk.injEq] at same
 obtain ⟨sameCalls, nextAccepted, sameReturned⟩ := same
 obtain ⟨mine, now⟩ := numbered.passing passing
 have fresh := numbered.notMem passing outside
 have others : ∀ other, other ≠ producer →
  next.stage (.inr other) = state.stage (.inr other) := by
  intro other apart
  rw [nextStage]
  exact update_of_ne (fun same => apart (Sum.inr.inj same)) _ _
 have there : next.stage (.inr producer) = .pushed item := by
  rw [nextStage]
  exact update_self _ _ _
 constructor
 · intro other item' inside
   rw [sameCalls]
   by_cases me : other = producer
   · rw [me, there] at inside
     cases inside
     exact ⟨mine.trans me.symm, me ▸ now⟩
   · rw [others other me] at inside
     exact numbered.passing inside
 · intro item' member
   rw [nextAccepted] at member
   rw [sameCalls]
   rcases mem_append.mp member with before | last
   · refine (numbered.accepted before).imp_right fun pending => ?_
     rw [others _ fun me => by
      simp_all]
     exact pending
   · cases mem_singleton.mp last
     rw [mine, there]
     exact .inr rfl
 · intro other item' inside
   rw [nextAccepted]
   by_cases me : other = producer
   · rw [me, there] at inside
     cases inside
     simp
   · rw [others other me] at inside
     exact mem_append_left _ (numbered.enqueued inside)
 · rw [nextAccepted]
   exact nodup_append.mpr ⟨numbered.distinct, nodup_singleton item,
    fun item' before other last => by
     grind⟩
 · intro item' result member
   rw [sameReturned] at member
   rw [sameCalls, nextAccepted]
   obtain ⟨earlier, known⟩ := numbered.returned member
   grind

end

omit [DecidableEq Request] in
theorem Numbered.run (taken : state.run worker = some next) : next.Numbered := by
 have worked : ∀ stage, next.stage = update state.stage (.inl worker) stage →
  (next.calls, next.accepted, next.returned) =
    (state.calls, state.accepted, state.returned) → next.Numbered := by
  intro stage nextStage same
  refine numbered.same (fun other => ?_) (fun other => ?_) same
  all_goals rw [nextStage, update_of_ne Sum.inr_ne_inl]
 unfold State.run at taken
 split at taken
 all_goals first | split at taken | skip
 all_goals first
  | cases taken
    exact worked _ rfl rfl
  | cases taken

theorem Numbered.add (taken : state.add producer = some next) : next.Numbered := by
 cases here : state.stage (.inr producer) with
 | appending item status =>
  simp only [State.add, here] at taken
  obtain ⟨-, same⟩ := ite_none_right_eq_some.mp taken
  cases same
  exact numbered.moved rfl rfl (by rw [here]; rfl) (by rw [here]; rfl)
 | checking item status =>
  simp only [State.add, here] at taken
  split at taken
  · cases taken
    exact numbered.moved rfl rfl (by rw [here]; rfl) (by rw [here]; rfl)
  · cases taken
    exact numbered.push (by rw [here]; rfl) (by rw [here]; rfl) rfl rfl
 | rejected item =>
  simp only [State.add, here] at taken
  cases taken
  have passing : (state.stage (.inr producer)).passing = some item := by rw [here]; rfl
  have fresh := numbered.notMem passing (by rw [here]; rfl)
  exact numbered.finished passing (iff_of_false fresh Bool.false_ne_true) rfl rfl
 | pushed item =>
  simp only [State.add, here] at taken
  cases taken
  exact numbered.moved rfl rfl (by rw [here]; rfl) (by rw [here]; rfl)
 | posting item =>
  simp only [State.add, here] at taken
  cases taken
  have pending : (state.stage (.inr producer)).enqueued = some item := by rw [here]; rfl
  have member := numbered.enqueued pending
  exact numbered.finished (by rw [here]; rfl) (iff_of_true member rfl) rfl rfl
 | idle | waiting | waited | locked | missed | took | working =>
  simp only [State.add, here] at taken
  cases taken

omit [DecidableEq Request] in
theorem Numbered.call {request : Request} {status : Option ℤ}
 (taken : state.call producer request status = some next) : next.Numbered := by
 unfold State.call at taken
 split at taken
 · rename_i here
   cases taken
   refine ⟨?_, ?_, ?_, numbered.distinct, numbered.returned⟩
   · intro other item inside
     by_cases me : other = producer
     · rw [me] at inside
       simp only [State.move, update_self, Stage.passing, Option.some.injEq] at inside
       rw [← inside]
       exact ⟨me.symm, congrArg state.calls me.symm⟩
     · simp only [State.move] at inside
       rw [update_of_ne fun same => me (Sum.inr.inj same)] at inside
       exact numbered.passing inside
   · intro item member
     refine (numbered.accepted member).imp_right fun pending => ?_
     have apart : item.producer ≠ producer := by
      intro me
      rw [me, here] at pending
      cases pending
     simp only [State.move]
     simp_all
   · intro other item inside
     by_cases me : other = producer
     · rw [me] at inside
       simp only [State.move, update_self, Stage.enqueued, reduceCtorEq] at inside
     · simp only [State.move] at inside
       rw [update_of_ne fun same => me (Sum.inr.inj same)] at inside
       exact numbered.enqueued inside
 · cases taken

theorem Numbered.step (taken : state.step event = some next) : next.Numbered := by
 cases event with
 | append producer request status => exact numbered.call taken
 | appendP producer request => exact numbered.call taken
 | go tid =>
  cases tid with
  | inl worker => exact numbered.run taken
  | inr producer => exact numbered.add taken

end State

end MyNotes.Network.Threadpool
