/-
The request queue of the thread pool under a scheduler that passes no thread over.

An accepted request does not stay in the queue: otherwise nothing would be taken from some time
on, so no worker would pass the semaphore, and the queue would be empty.
-/

import MyNotes.Library.FairRun
import MyNotes.Network.Threadpool

namespace MyNotes.Network.Threadpool

open Library.Transition Library.FairRun Function List Option Nat State

variable {Worker Producer Request : Type}

namespace Stage

def works : Stage Producer Request → Bool
 | .waiting => true
 | .waited => true
 | .locked => true
 | .missed => true
 | .took _ => true
 | .working _ => true
 | _ => false

def ready : Stage Producer Request → Bool
 | .locked => true
 | .missed => true
 | .took _ => true
 | .working _ => true
 | .checking .. => true
 | .rejected _ => true
 | .pushed _ => true
 | .posting _ => true
 | _ => false

def left : Stage Producer Request → ℕ
 | .locked => 2
 | .checking .. => 2
 | _ => 1

end Stage

namespace State

variable [DecidableEq Worker] [DecidableEq Producer] [DecidableEq Request]

variable {state next : State Worker Producer Request} {tid : Worker ⊕ Producer}
 {worker : Worker} {producer : Producer} {stage : Stage Producer Request}
 {item : Item Producer Request} {event : Event Worker Producer Request}

def Able (tid : Worker ⊕ Producer) (state : State Worker Producer Request) : Prop :=
 (state.go tid).isSome = true

/-- Workers run `run` and producers call `append`. -/
def Placed (state : State Worker Producer Request) : Prop :=
 ∀ tid, (state.stage tid).works = tid.isLeft

theorem go_stage (taken : state.go tid = some next) :
 ∃ stage, next.stage = update state.stage tid stage ∧ stage.works = tid.isLeft := by
 cases tid with
 | inl worker =>
  simp only [go] at taken
  unfold run at taken
  split at taken
  all_goals first | split at taken | skip
  all_goals first
   | cases taken
     exact ⟨_, rfl, rfl⟩
   | cases taken
 | inr producer =>
  simp only [go] at taken
  unfold add at taken
  split at taken
  all_goals first | split at taken | skip
  all_goals first
   | cases taken
     exact ⟨_, rfl, rfl⟩
   | cases taken

omit [DecidableEq Request] in
theorem call_stage {request : Request} {status : Option ℤ}
 (taken : state.call producer request status = some next) :
 state.stage (.inr producer) = .idle ∧ next = state.move (.inr producer)
  (.appending ⟨request, producer, state.calls producer⟩ status) := by
 unfold call at taken
 split at taken
 · simp_all
 · cases taken

omit [DecidableEq Request] in
theorem placed_update (placed : state.Placed) (same : stage.works = tid.isLeft)
 (other : Worker ⊕ Producer) :
 (update state.stage tid stage other).works = other.isLeft := by
 by_cases me : other = tid
 · rw [me, update_self, same]
 · rw [update_of_ne me]
   exact placed other

theorem Placed.step (placed : state.Placed) (taken : state.step event = some next) :
 next.Placed := by
 intro other
 cases event with
 | append producer request status =>
  obtain ⟨-, rfl⟩ := call_stage taken
  exact placed_update placed rfl other
 | appendP producer request =>
  obtain ⟨-, rfl⟩ := call_stage taken
  exact placed_update placed rfl other
 | go tid =>
  obtain ⟨stage, stages, same⟩ := go_stage taken
  rw [stages]
  exact placed_update placed same other

theorem stage_other (taken : state.step event = some next) (busy : state.stage tid ≠ .idle)
 (other : event ≠ .go tid) : next.stage tid = state.stage tid := by
 have called {producer : Producer} {request : Request} {status : Option ℤ}
  (taken : state.call producer request status = some next) :
  next.stage tid = state.stage tid := by
  obtain ⟨idle, rfl⟩ := call_stage taken
  exact update_of_ne (fun me : tid = .inr producer => busy (me ▸ idle)) _ _
 cases event with
 | append producer request status => exact called taken
 | appendP producer request => exact called taken
 | go caller =>
  obtain ⟨stage, stages, -⟩ := go_stage taken
  rw [stages]
  grind

theorem able_of_ready (placed : state.Placed) (ready : (state.stage tid).ready = true) :
 Able tid state := by
 have kind := placed tid
 unfold Able
 cases tid with
 | inl worker =>
  cases here : state.stage (.inl worker) with
  | locked =>
   simp only [go, run, here]
   split <;> rfl
  | missed | took | working => simp only [go, run, here, isSome_some]
  | checking | rejected | pushed | posting =>
   rw [here] at kind
   cases kind
  | waiting | waited | idle | appending =>
   rw [here] at ready
   cases ready
 | inr producer =>
  cases here : state.stage (.inr producer) with
  | checking =>
   simp only [go, add, here]
   split <;> rfl
  | rejected | pushed | posting => simp only [go, add, here, isSome_some]
  | locked | missed | took | working =>
   rw [here] at kind
   cases kind
  | waiting | waited | idle | appending =>
   rw [here] at ready
   cases ready

theorem left_lt (taken : state.go tid = some next) (held : (state.stage tid).holdsLock = true) :
 next.mQueuelocker = none ∨ (next.stage tid).holdsLock = true ∧
  (next.stage tid).left < (state.stage tid).left := by
 cases tid with
 | inl worker =>
  simp only [go] at taken
  cases here : state.stage (.inl worker) with
  | locked =>
   simp only [run, here] at taken
   split at taken
   all_goals
    cases taken
    simp only [move, update_self]
    exact .inr ⟨rfl, lt_succ_self _⟩
  | missed | took =>
   simp only [run, here] at taken
   cases taken
   exact .inl rfl
  | checking | rejected | pushed =>
   simp only [run, here] at taken
   cases taken
  | waiting | waited | working | idle | appending | posting =>
   rw [here] at held
   cases held
 | inr producer =>
  simp only [go] at taken
  cases here : state.stage (.inr producer) with
  | checking =>
   simp only [add, here] at taken
   split at taken
   all_goals
    cases taken
    simp only [move, update_self]
    exact .inr ⟨rfl, lt_succ_self _⟩
  | rejected | pushed =>
   simp only [add, here] at taken
   cases taken
   exact .inl rfl
  | locked | missed | took =>
   simp only [add, here] at taken
   cases taken
  | waiting | waited | working | idle | appending | posting =>
   rw [here] at held
   cases held

/-- What a step does to the semaphore and to the requests accepted and taken. -/
inductive Effect (state next : State Worker Producer Request) : Prop where
 | none : (next.mQueuestat, next.accepted, next.taken) =
  (state.mQueuestat, state.accepted, state.taken) → Effect state next
 | wait (worker : Worker) : next.stage (.inl worker) = .waited →
  (next.accepted, next.taken) = (state.accepted, state.taken) → Effect state next
 | take (worker : Worker) (item : Item Producer Request) : (next.mQueuestat, next.accepted,
  next.taken) = (state.mQueuestat, state.accepted, state.taken ++ [(worker, item)]) →
  Effect state next
 | accept (item : Item Producer Request) : (next.mQueuestat, next.accepted, next.taken) =
  (state.mQueuestat, state.accepted ++ [item], state.taken) → Effect state next
 | post : (next.mQueuestat, next.accepted, next.taken) =
  (state.mQueuestat + 1, state.accepted, state.taken) → Effect state next

theorem effect (taken : state.step event = some next) : Effect state next := by
 have called {producer : Producer} {request : Request} {status : Option ℤ}
  (taken : state.call producer request status = some next) : Effect state next := by
  obtain ⟨-, rfl⟩ := call_stage taken
  exact .none rfl
 cases event with
 | append producer request status => exact called taken
 | appendP producer request => exact called taken
 | go tid =>
  cases tid with
  | inl worker =>
   simp only [step, go] at taken
   unfold run at taken
   split at taken
   case h_1 =>
    obtain ⟨-, same⟩ := ite_none_right_eq_some.mp taken
    cases same
    exact .wait worker (update_self _ _ _) rfl
   case h_3 =>
    split at taken
    · cases taken
      exact .none rfl
    · cases taken
      exact .take worker _ rfl
   all_goals first | split at taken | skip
   all_goals first
    | cases taken
      exact .none rfl
    | cases taken
  | inr producer =>
   simp only [step, go] at taken
   unfold add at taken
   split at taken
   case h_2 =>
    split at taken
    · cases taken
      exact .none rfl
    · cases taken
      exact .accept _ rfl
   case h_5 =>
    cases taken
    exact .post rfl
   all_goals first | split at taken | skip
   all_goals first
    | cases taken
      exact .none rfl
    | cases taken

omit [DecidableEq Worker] [DecidableEq Producer] [DecidableEq Request] in
theorem Effect.prefixes (effect : Effect state next) :
 state.accepted <+: next.accepted ∧ state.taken <+: next.taken := by
 cases effect with
 | none same | post same =>
  simp_all
 | wait worker waited same =>
  simp_all
 | take worker item same =>
  simp_all
 | accept item same =>
  simp_all

omit [DecidableEq Worker] [DecidableEq Producer] [DecidableEq Request] in
theorem Effect.queuestat (effect : Effect state next)
 (nobody : ∀ worker, next.stage (.inl worker) ≠ .waited) :
 state.mQueuestat ≤ next.mQueuestat := by
 cases effect with
 | none same | take _ _ same | accept _ same =>
  simp_all
 | wait worker waited => exact absurd waited (nobody worker)
 | post same =>
  simp_all

/-! ### A fair scheduler -/

section Fair

variable {maxRequests : ℕ}
 {execution : Execution (ofFunction step) (start maxRequests : State Worker Producer Request)}
 {time : ℕ}

theorem accounted_at (execution : Execution (ofFunction step)
 (start maxRequests : State Worker Producer Request)) (time : ℕ) :
 (execution.state time).Accounted :=
 execution.invariant (start_accounted maxRequests) (fun _ _ _ before taken => before.step taken)
  time

theorem placed_at (execution : Execution (ofFunction step)
 (start maxRequests : State Worker Producer Request)) (time : ℕ) :
 (execution.state time).Placed := by
 refine execution.invariant ?_ (fun _ _ _ before taken => Placed.step before taken) time
 intro tid
 cases tid with
 | inl worker => rfl
 | inr producer => rfl

theorem stays (busy : (execution.state time).stage tid ≠ .idle)
 (other : execution.event time ≠ some (.go tid)) :
 (execution.state (time + 1)).stage tid = (execution.state time).stage tid := by
 rcases execution.next time with ⟨-, same⟩ | ⟨event, happens, taken⟩
 · rw [same]
 · exact stage_other taken busy fun same => other (same ▸ happens)

theorem moves_on (fair : execution.Fair (Able tid) (.go tid))
 (here : (execution.state time).stage tid = stage) (ready : stage.ready = true) :
 ∃ later, time ≤ later ∧ (execution.state later).stage tid = stage ∧
  (execution.state later).go tid = some (execution.state (later + 1)) := by
 have busy : stage ≠ .idle := by
  rintro rfl
  cases ready
 obtain ⟨later, since, still, happens⟩ : ∃ later, time ≤ later ∧
  (execution.state later).stage tid = stage ∧ execution.event later = some (.go tid) :=
  fair.happens here
   (fun later _ still => able_of_ready (placed_at execution later) (still.symm ▸ ready))
   fun later _ still other => (stays (still.symm ▸ busy) other).trans still
 exact ⟨later, since, still, Execution.taken_of_event happens⟩

theorem unlocks (fair : ∀ tid, execution.Fair (Able tid) (.go tid)) (time : ℕ) :
 ∃ later, time ≤ later ∧ (execution.state later).mQueuelocker = none := by
 cases owner : (execution.state time).mQueuelocker with
 | none => exact ⟨time, Nat.le_refl time, owner⟩
 | some tid =>
  have held := ((accounted_at execution time).mutex tid).mpr owner
  clear owner
  generalize size : ((execution.state time).stage tid).left = left
  induction left using Nat.strongRecOn generalizing time with
  | ind left ih =>
   have ready : ((execution.state time).stage tid).ready = true := by
    cases here : (execution.state time).stage tid with
    | locked | missed | took | checking | rejected | pushed => rfl
    | waiting | waited | working | idle | appending | posting =>
     rw [here] at held
     cases held
   obtain ⟨later, since, still, taken⟩ := moves_on (fair tid) rfl ready
   rcases left_lt taken (still.symm ▸ held) with free | ⟨inside, less⟩
   · grind
   · rw [still, size] at less
     obtain ⟨last, after, free⟩ := ih _ less (later + 1) inside rfl
     exact ⟨last, by omega, free⟩

theorem takes (strong : ∀ tid, execution.StronglyFair (Able tid) (.go tid))
 (here : (execution.state time).stage (.inl worker) = .waited ∨
  (execution.state time).stage (.inl worker) = .locked) :
 ∃ later, time ≤ later ∧
  (execution.state later).taken.length < (execution.state (later + 1)).taken.length := by
 have locked {time : ℕ} (here : (execution.state time).stage (.inl worker) = .locked) :
  ∃ later, time ≤ later ∧
   (execution.state later).taken.length < (execution.state (later + 1)).taken.length := by
  obtain ⟨later, since, still, taken⟩ := moves_on (strong _).fair here rfl
  refine ⟨later, since, ?_⟩
  cases list : (execution.state later).mWorkqueue with
  | nil => exact absurd list ((accounted_at execution later).found still)
  | cons item rest =>
   simp only [go, run, still, list] at taken
   grind
 rcases here with here | here
 · obtain ⟨later, since, still, happens⟩ : ∃ later, time ≤ later ∧
    (execution.state later).stage (.inl worker) = .waited ∧
    execution.event later = some (.go (.inl worker)) := by
    refine (strong _).happens here ?_ fun later _ still other =>
     (stays (by rw [still]; intro idle; cases idle) other).trans still
    intro still later since
    obtain ⟨last, after, free⟩ :=
     unlocks (fun tid => (strong tid).fair) later
    refine ⟨last, after, ?_⟩
    simp only [Able, go, run, still last (le_trans since after), free,
     isNone_none, if_true, isSome_some]
   have taken := Execution.taken_of_event happens
   simp only [ofFunction, step, go, run, still] at taken
   obtain ⟨-, same⟩ := ite_none_right_eq_some.mp taken
   have there : (execution.state (later + 1)).stage (.inl worker) = .locked := by
    rw [← some.inj same]
    exact update_self _ _ _
   obtain ⟨last, after, more⟩ := locked there
   exact ⟨last, by omega, more⟩
 · exact locked here

theorem posts (fair : ∀ tid, execution.Fair (Able tid) (.go tid))
 (here : (∃ item, (execution.state time).stage (.inr producer) = .pushed item) ∨
  ∃ item, (execution.state time).stage (.inr producer) = .posting item) :
 ∃ later, time ≤ later ∧ 0 < (execution.state later).mQueuestat := by
 have posting {time : ℕ} {item : Item Producer Request}
  (here : (execution.state time).stage (.inr producer) = .posting item) :
  ∃ later, time ≤ later ∧ 0 < (execution.state later).mQueuestat := by
  obtain ⟨later, since, still, taken⟩ := moves_on (fair _) here rfl
  refine ⟨later + 1, le_succ_of_le since, ?_⟩
  simp only [go, add, still] at taken
  rw [← some.inj taken]
  exact succ_pos _
 rcases here with ⟨item, here⟩ | ⟨item, here⟩
 · obtain ⟨later, since, still, taken⟩ := moves_on (fair _) here rfl
   simp only [go, add, still] at taken
   have there : (execution.state (later + 1)).stage (.inr producer) = .posting item := by
    rw [← some.inj taken]
    exact update_self _ _ _
   obtain ⟨last, after, positive⟩ := posting there
   exact ⟨last, by omega, positive⟩
 · exact posting here

theorem comes_back (fair : ∀ tid, execution.Fair (Able tid) (.go tid)) (worker : Worker)
 (nobody : ∀ later, time ≤ later →
  (execution.state later).stage (.inl worker) ≠ .waited ∧
   (execution.state later).stage (.inl worker) ≠ .locked) :
 ∃ later, time ≤ later ∧ (execution.state later).stage (.inl worker) = .waiting := by
 have working {time : ℕ} {item : Item Producer Request}
  (here : (execution.state time).stage (.inl worker) = .working item) :
  ∃ later, time ≤ later ∧ (execution.state later).stage (.inl worker) = .waiting := by
  obtain ⟨later, since, still, taken⟩ := moves_on (fair _) here rfl
  simp only [go, run, still] at taken
  refine ⟨later + 1, le_succ_of_le since, ?_⟩
  rw [← some.inj taken]
  exact update_self _ _ _
 have kind := placed_at execution time (.inl worker)
 cases here : (execution.state time).stage (.inl worker) with
 | waiting => exact ⟨time, le_refl time, here⟩
 | waited => simp_all
 | locked => simp_all
 | missed => exact absurd here ((accounted_at execution time).present _)
 | took item =>
  obtain ⟨later, since, still, taken⟩ := moves_on (fair _) here rfl
  simp only [go, run, still] at taken
  have there : (execution.state (later + 1)).stage (.inl worker) = .working item := by
   rw [← some.inj taken]
   exact update_self _ _ _
  obtain ⟨last, after, back⟩ := working there
  exact ⟨last, by omega, back⟩
 | working item => exact working here
 | idle | appending | checking | rejected | pushed | posting =>
  rw [here] at kind
  cases kind

theorem taken_grows (strong : ∀ tid, execution.StronglyFair (Able tid) (.go tid))
 (worker : Worker) (full : ∀ later, time ≤ later → (execution.state later).mWorkqueue ≠ []) :
 ∃ later, time ≤ later ∧
  (execution.state later).taken.length < (execution.state (later + 1)).taken.length := by
 have fair : ∀ tid, execution.Fair (Able tid) (.go tid) :=
  fun tid => (strong tid).fair
 by_contra rests
 have nobody : ∀ later, time ≤ later → ∀ worker,
  (execution.state later).stage (.inl worker) ≠ .waited ∧
   (execution.state later).stage (.inl worker) ≠ .locked := by
  intro later since worker
  refine ⟨fun here => ?_, fun here => ?_⟩
  · obtain ⟨last, after, more⟩ := takes strong (.inl here)
    grind
  · obtain ⟨last, after, more⟩ := takes strong (.inr here)
    grind
 have down : ∀ later, time ≤ later → (execution.state later).mQueuestat = 0 := by
  intro later since
  refine Nat.eq_zero_of_not_pos fun positive => ?_
  have stays_up : ∀ last, later ≤ last → 0 < (execution.state last).mQueuestat := by
   intro last after
   induction last, after using Nat.le_induction with
   | base => exact positive
   | succ last after ih =>
    rcases execution.next last with ⟨-, same⟩ | ⟨event, -, taken⟩
    · rw [same]
      exact ih
    · exact Nat.lt_of_lt_of_le ih
       ((effect taken).queuestat fun worker => (nobody (last + 1) (by omega) worker).1)
  obtain ⟨back, after, waiting⟩ := comes_back fair worker fun last after =>
   nobody last (Nat.le_trans since after) worker
  obtain ⟨last, past, still, happens⟩ : ∃ last, back ≤ last ∧
   (execution.state last).stage (.inl worker) = .waiting ∧
   execution.event last = some (.go (.inl worker)) := by
   refine (fair _).happens waiting (fun last past still => ?_) fun last _ still other =>
    (stays (by rw [still]; intro idle; cases idle) other).trans still
   simp only [Able, go, run, still, stays_up last (Nat.le_trans after past),
    if_true, isSome_some]
  have taken := Execution.taken_of_event happens
  simp only [ofFunction, step, go, run, still] at taken
  obtain ⟨-, same⟩ := ite_none_right_eq_some.mp taken
  refine (nobody (last + 1) (by omega) worker).1 ?_
  rw [← some.inj same]
  exact update_self _ _ _
 obtain ⟨number, counted, sum⟩ := (accounted_at execution time).due
 have some_left := length_pos_iff.mpr (full time (Nat.le_refl time))
 have low := down time (Nat.le_refl time)
 obtain ⟨tid, due⟩ := counted.exists_of_pos (by omega)
 have kind := placed_at execution time tid
 cases tid with
 | inl worker =>
  obtain ⟨outside, unlocked⟩ := nobody time (Nat.le_refl time) worker
  cases here : (execution.state time).stage (.inl worker) with
  | waited => exact outside here
  | locked => exact unlocked here
  | pushed | posting =>
   rw [here] at kind
   cases kind
  | waiting | missed | took | working | idle | appending | checking | rejected =>
   rw [here] at due
   cases due
 | inr producer =>
  have pending : (∃ item, (execution.state time).stage (.inr producer) = .pushed item) ∨
   ∃ item, (execution.state time).stage (.inr producer) = .posting item := by
   cases here : (execution.state time).stage (.inr producer) with
   | pushed item => exact .inl ⟨item, rfl⟩
   | posting item => exact .inr ⟨item, rfl⟩
   | waited | locked =>
    rw [here] at kind
    cases kind
   | waiting | missed | took | working | idle | appending | checking | rejected =>
    rw [here] at due
    cases due
  obtain ⟨later, since, positive⟩ := posts fair pending
  exact Nat.ne_of_gt positive (down later since)

theorem prefixes (execution : Execution (ofFunction step)
 (start maxRequests : State Worker Producer Request)) {later : ℕ} (since : time ≤ later) :
 (execution.state time).accepted <+: (execution.state later).accepted ∧
  (execution.state time).taken <+: (execution.state later).taken := by
 induction later, since using le_induction with
 | base => exact ⟨prefix_rfl, prefix_rfl⟩
 | succ later since ih =>
  rcases execution.next later with ⟨-, same⟩ | ⟨event, -, taken⟩
  · rw [same]
    exact ih
  · have more := (effect taken).prefixes
    grind

theorem accepted_taken (strong : ∀ tid, execution.StronglyFair (Able tid) (.go tid))
 (worker : Worker) (member : item ∈ (execution.state time).accepted) :
 ∃ later worker, time ≤ later ∧ (worker, item) ∈ (execution.state later).taken := by
 by_contra never
 have left : ∀ later, time ≤ later →
  item ∉ (execution.state later).taken.map Prod.snd := by
  intro later since inside
  obtain ⟨⟨worker, item'⟩, taken, rfl⟩ := mem_map.mp inside
  exact never ⟨later, worker, since, taken⟩
 have waiting : ∀ later, time ≤ later → item ∈ (execution.state later).mWorkqueue := by
  intro later since
  have inside := (prefixes execution since).1.subset member
  rw [(accounted_at execution later).order] at inside
  exact (mem_append.mp inside).resolve_left (left later since)
 have below : ∀ later, time ≤ later → (execution.state later).taken.length <
  (execution.state time).accepted.length := by
  intro later since
  by_contra longer
  have first := (prefixes execution since).1
  have second : (execution.state later).taken.map Prod.snd <+:
   (execution.state later).accepted := by
   rw [(accounted_at execution later).order]
   exact prefix_append _ _
  have covered := prefix_of_prefix_length_le first second
   (by simp_all)
  exact left later since (covered.subset member)
 obtain ⟨rest, since, same⟩ : ∃ rest, time ≤ rest ∧ ∀ later, rest ≤ later →
  (execution.state time).accepted.length - (execution.state later).taken.length =
   (execution.state time).accepted.length - (execution.state rest).taken.length := by
  refine comes_to_rest (fun later => (execution.state time).accepted.length -
   (execution.state later).taken.length) fun later since => ?_
  exact Nat.sub_le_sub_left (prefixes execution (Nat.le_succ later)).2.length_le _
 obtain ⟨later, after, more⟩ := taken_grows strong worker fun later after =>
  ne_nil_of_mem (waiting later (Nat.le_trans since after))
 have now := same later after
 have next := same (later + 1) (Nat.le_succ_of_le after)
 have bound := below (later + 1) (by omega)
 omega

end Fair

/-- The queue is sound in every run.  Where a worker exists and the scheduler passes no thread
over, every accepted request is taken. -/
theorem threadpool_sound (maxRequests : ℕ) :
 (∀ events (final : State Worker Producer Request),
  Run (ofFunction step) (start maxRequests) events final → final.Sound) ∧
 ∀ execution : Execution (ofFunction step) (start maxRequests : State Worker Producer Request),
  (∀ tid, execution.StronglyFair (Able tid) (.go tid)) → Nonempty Worker →
   ∀ time item, item ∈ (execution.state time).accepted →
    ∃ later worker, time ≤ later ∧ (worker, item) ∈ (execution.state later).taken := by
 constructor
 · intro events final run
   have accounted : final.Accounted :=
    run.invariant (start_accounted maxRequests) fun _ _ _ before taken => before.step taken
   have numbered : final.Numbered :=
    run.invariant (start_numbered maxRequests) fun _ _ _ before taken => before.step taken
   exact accounted.sound numbered
 · intro execution strong ⟨worker⟩ time item member
   exact accepted_taken strong worker member

theorem threadpool_sound_two : ∃ final : State Unit Bool ℕ,
 final.accepted = [⟨3, true, 0⟩] ∧ final.taken = [((), ⟨3, true, 0⟩)] ∧
  (⟨4, false, 0⟩, false) ∈ final.returned ∧ final.Sound := by
 obtain ⟨final, same, accepted, taken, rejected⟩ : ∃ final : State Unit Bool ℕ,
  replay step (start 1) [.append true 3 0, .appendP false 4, .go (.inr true),
   .go (.inr true), .go (.inr true), .go (.inr false), .go (.inr false),
   .go (.inr true), .go (.inl ()), .go (.inr false), .go (.inl ()), .go (.inl ())] =
    some final ∧ final.accepted = [⟨3, true, 0⟩] ∧
   final.taken = [((), ⟨3, true, 0⟩)] ∧
   final.returned = [(⟨3, true, 0⟩, true), (⟨4, false, 0⟩, false)] :=
  ⟨_, rfl, rfl, rfl, rfl⟩
 refine ⟨final, accepted, taken, ?_, (threadpool_sound 1).1 _ final (Run.of_replay_all same)⟩
 simp_all

end State

end MyNotes.Network.Threadpool
