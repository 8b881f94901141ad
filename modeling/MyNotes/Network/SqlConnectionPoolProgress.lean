/-
Calls of `GetConnection` under a fair scheduler.

While a connection is free the semaphore does not stay down: whoever put the connection back
raises it, and whoever has passed it takes a connection and gives the lock back.
-/

import MyNotes.Library.FairRun
import MyNotes.Network.SqlConnectionPool

namespace MyNotes.Network.SqlConnectionPool

open Library.Transition Library.FairRun Function Option Nat State

variable {Client Conn : Type}

namespace State

variable [DecidableEq Client] [DecidableEq Conn]

variable {conns : List Conn} {state next : State Client Conn} {client : Client}
 {stage : Stage Conn} {con : Conn} {event : Event Client Conn}

def Able (client : Client) (state : State Client Conn) : Prop :=
 (state.go client).isSome = true

theorem go_stage (taken : state.go client = some next) :
 ∃ stage, next.stage = update state.stage client stage := by
 unfold go at taken
 split at taken
 all_goals first | split at taken | skip
 all_goals first
  | cases taken
    exact ⟨_, rfl⟩
  | cases taken

theorem stage_other (taken : state.step event = some next) (busy : state.stage client ≠ .idle)
 (other : event ≠ .go client) : next.stage client = state.stage client := by
 cases event with
 | getConnection caller =>
  simp only [step] at taken
  split at taken
  · rename_i idle
    cases taken
    exact update_of_ne (fun me : client = caller => busy (me ▸ idle)) _ _
  · cases taken
 | releaseConnection caller con =>
  simp only [step] at taken
  split at taken
  · rename_i idle
    obtain ⟨-, same⟩ := ite_none_right_eq_some.mp taken
    cases same
    exact update_of_ne (fun me : client = caller => busy (me ▸ idle)) _ _
  · cases taken
 | go caller =>
  obtain ⟨stage, stages⟩ := go_stage taken
  rw [stages]
  grind

theorem length_le (taken : state.step event = some next)
 (nobody : ∀ client con, state.stage client ≠ .returning con) :
 next.connList.length ≤ state.connList.length := by
 cases event with
 | getConnection client =>
  simp only [step] at taken
  split at taken
  · cases taken
    exact le_refl _
  · cases taken
 | releaseConnection client con =>
  simp only [step] at taken
  split at taken
  · obtain ⟨-, same⟩ := ite_none_right_eq_some.mp taken
    cases same
    exact le_refl _
  · cases taken
 | go client =>
  simp only [step] at taken
  unfold go at taken
  split at taken
  case h_5 =>
   split at taken
   · grind
   · cases taken
  case h_9 con returning => exact absurd returning (nobody client con)
  all_goals first | split at taken | skip
  all_goals first
   | cases taken
     exact le_refl _
   | cases taken

theorem lock_of_step (taken : state.step event = some next) (owner : next.lock = some client) :
 state.lock = some client ∨ next.stage client = .locked ∨
  ∃ con, next.stage client = .returning con := by
 cases event with
 | getConnection caller =>
  simp only [step] at taken
  split at taken
  · cases taken
    exact .inl owner
  · cases taken
 | releaseConnection caller con =>
  simp only [step] at taken
  split at taken
  · obtain ⟨-, same⟩ := ite_none_right_eq_some.mp taken
    cases same
    exact .inl owner
  · cases taken
 | go caller =>
  simp only [step] at taken
  unfold go at taken
  split at taken
  case h_4 =>
   obtain ⟨-, same⟩ := ite_none_right_eq_some.mp taken
   cases same
   cases owner
   exact .inr (.inl (update_self _ _ _))
  case h_8 con releasing =>
   obtain ⟨-, same⟩ := ite_none_right_eq_some.mp taken
   cases same
   cases owner
   exact .inr (.inr ⟨con, update_self _ _ _⟩)
  all_goals first | split at taken | skip
  all_goals first
   | cases taken
     exact .inl owner
   | cases taken
     cases owner
   | cases taken

theorem go_of_after {later : Stage Conn} (goes : (state.stage client).after = some later) :
 ∃ next, state.go client = some next ∧ next.stage client = later := by
 cases here : state.stage client with
 | took con | counted con | returning con | returned | recounted | posting =>
  rw [here] at goes
  cases goes
  exact ⟨_, by simp only [go, here]; rfl, update_self _ _ _⟩
 | idle | called | waiting | waited | locked | releasing =>
  rw [here] at goes
  cases goes

section Fair

variable {execution : Execution (ofFunction step) (start conns : State Client Conn)}
 {time : ℕ}

theorem stays (busy : (execution.state time).stage client ≠ .idle)
 (other : execution.event time ≠ some (.go client)) :
 (execution.state (time + 1)).stage client = (execution.state time).stage client := by
 rcases execution.next time with ⟨-, same⟩ | ⟨event, happens, taken⟩
 · rw [same]
 · exact stage_other taken busy fun same => other (same ▸ happens)

theorem moves_on (fair : execution.Fair (Able client) (.go client))
 (here : (execution.state time).stage client = stage) (busy : stage ≠ .idle)
 (able : ∀ later, time ≤ later → (execution.state later).stage client = stage →
  Able client (execution.state later)) :
 ∃ later, time ≤ later ∧ (execution.state later).stage client = stage ∧
  (execution.state later).go client = some (execution.state (later + 1)) := by
 obtain ⟨later, since, still, happens⟩ := fair.happens here able fun later _ still other =>
  (stays (still.symm ▸ busy) other).trans still
 exact ⟨later, since, still, Execution.taken_of_event happens⟩

theorem goes_after (fair : execution.Fair (Able client) (.go client)) {last : Stage Conn}
 (here : (execution.state time).stage client = stage) (goes : stage.after = some last) :
 ∃ later, time ≤ later ∧ (execution.state later).stage client = stage ∧
  (execution.state later).go client = some (execution.state (later + 1)) ∧
  (execution.state (later + 1)).stage client = last := by
 have busy : stage ≠ .idle := by
  rintro rfl
  cases goes
 obtain ⟨later, since, still, taken⟩ := moves_on fair here busy fun later _ still => by
  obtain ⟨next, same, -⟩ := go_of_after (still.symm ▸ goes)
  exact isSome_iff_exists.mpr ⟨next, same⟩
 obtain ⟨next, same, there⟩ := go_of_after (still.symm ▸ goes)
 grind

theorem consistent_at (nodup : conns.Nodup) (execution : Execution (ofFunction step) (start conns))
 (time : ℕ) : (execution.state time : State Client Conn).Consistent conns :=
 execution.invariant (start_consistent nodup) (fun _ _ _ before taken => before.step taken) time

theorem takes (nodup : conns.Nodup) (fair : execution.Fair (Able client) (.go client))
 (here : (execution.state time).stage client = .locked) :
 ∃ later, time ≤ later ∧
  (execution.state (later + 1)).connList.length < (execution.state later).connList.length ∧
  ∃ con, (execution.state (later + 1)).stage client = .took con := by
 obtain ⟨later, since, still, taken⟩ := moves_on fair here nofun fun later _ still => by
  cases list : (execution.state later).connList with
  | nil => exact absurd list ((consistent_at nodup execution later).front still)
  | cons con rest => simp only [Able, go, still, list, isSome_some]
 refine ⟨later, since, ?_⟩
 cases list : (execution.state later).connList with
 | nil => exact absurd list ((consistent_at nodup execution later).front still)
 | cons con rest =>
  simp only [go, still, list] at taken
  rw [← some.inj taken]
  exact ⟨lt_succ_self _, con, update_self _ _ _⟩

theorem posts (fair : execution.Fair (Able client) (.go client))
 (here : (∃ con, (execution.state time).stage client = .returning con) ∨
  (execution.state time).stage client = .returned ∨
  (execution.state time).stage client = .recounted ∨
  (execution.state time).stage client = .posting) :
 ∃ later, time ≤ later ∧ 0 < (execution.state later).reserve := by
 have posting {time : ℕ} (here : (execution.state time).stage client = .posting) :
  ∃ later, time ≤ later ∧ 0 < (execution.state later).reserve := by
  obtain ⟨later, since, still, taken, -⟩ := goes_after fair here rfl
  refine ⟨later + 1, le_succ_of_le since, ?_⟩
  simp only [go, still] at taken
  rw [← some.inj taken]
  exact succ_pos _
 have recounted {time : ℕ} (here : (execution.state time).stage client = .recounted) :
  ∃ later, time ≤ later ∧ 0 < (execution.state later).reserve := by
  obtain ⟨later, since, -, -, there⟩ := goes_after fair here rfl
  obtain ⟨last, after, positive⟩ := posting there
  exact ⟨last, by omega, positive⟩
 have returned {time : ℕ} (here : (execution.state time).stage client = .returned) :
  ∃ later, time ≤ later ∧ 0 < (execution.state later).reserve := by
  obtain ⟨later, since, -, -, there⟩ := goes_after fair here rfl
  obtain ⟨last, after, positive⟩ := recounted there
  exact ⟨last, by omega, positive⟩
 rcases here with ⟨con, here⟩ | here | here | here
 · obtain ⟨later, since, -, -, there⟩ := goes_after fair here rfl
   obtain ⟨last, after, positive⟩ := returned there
   exact ⟨last, by omega, positive⟩
 · exact returned here
 · exact recounted here
 · exact posting here

theorem unlocks (nodup : conns.Nodup) (fair : ∀ client, execution.Fair (Able client) (.go client))
 (time : ℕ) : ∃ later, time ≤ later ∧ (execution.state later).lock = none := by
 have counted {time : ℕ} {client : Client} {con : Conn}
  (here : (execution.state time).stage client = .counted con) :
  ∃ later, time ≤ later ∧ (execution.state later).lock = none := by
  obtain ⟨later, since, still, taken, -⟩ := goes_after (fair client) here rfl
  refine ⟨later + 1, le_succ_of_le since, ?_⟩
  simp only [go, still] at taken
  rw [← some.inj taken]
 have took {time : ℕ} {client : Client} {con : Conn}
  (here : (execution.state time).stage client = .took con) :
  ∃ later, time ≤ later ∧ (execution.state later).lock = none := by
  obtain ⟨later, since, -, -, there⟩ := goes_after (fair client) here rfl
  obtain ⟨last, after, free⟩ := counted there
  exact ⟨last, by omega, free⟩
 have recounted {time : ℕ} {client : Client}
  (here : (execution.state time).stage client = .recounted) :
  ∃ later, time ≤ later ∧ (execution.state later).lock = none := by
  obtain ⟨later, since, still, taken, -⟩ := goes_after (fair client) here rfl
  refine ⟨later + 1, le_succ_of_le since, ?_⟩
  simp only [go, still] at taken
  rw [← some.inj taken]
 have returned {time : ℕ} {client : Client}
  (here : (execution.state time).stage client = .returned) :
  ∃ later, time ≤ later ∧ (execution.state later).lock = none := by
  obtain ⟨later, since, -, -, there⟩ := goes_after (fair client) here rfl
  obtain ⟨last, after, free⟩ := recounted there
  exact ⟨last, by omega, free⟩
 cases owner : (execution.state time).lock with
 | none => exact ⟨time, le_refl time, owner⟩
 | some client =>
  have held := ((consistent_at nodup execution time).mutex client).mpr owner
  cases here : (execution.state time).stage client with
  | locked =>
   obtain ⟨later, since, -, con, there⟩ := takes nodup (fair client) here
   obtain ⟨last, after, free⟩ := took there
   exact ⟨last, by omega, free⟩
  | took con => exact took here
  | counted con => exact counted here
  | returning con =>
   obtain ⟨later, since, -, -, there⟩ := goes_after (fair client) here rfl
   obtain ⟨last, after, free⟩ := returned there
   exact ⟨last, by omega, free⟩
  | returned => exact returned here
  | recounted => exact recounted here
  | idle | called | waiting | waited | releasing | posting =>
   rw [here] at held
   cases held

theorem semaphore_rises (nodup : conns.Nodup)
 (fair : ∀ client, execution.Fair (Able client) (.go client)) (time : ℕ)
 (free : ∀ later, time ≤ later → (execution.state later).connList ≠ []) :
 ∃ later, time ≤ later ∧ 0 < (execution.state later).reserve := by
 by_contra down
 have quiet : ∀ later, time ≤ later → ∀ client,
  ¬ ((∃ con, (execution.state later).stage client = .returning con) ∨
   (execution.state later).stage client = .returned ∨
   (execution.state later).stage client = .recounted ∨
   (execution.state later).stage client = .posting) := by
  intro later since client here
  obtain ⟨last, after, positive⟩ := posts (fair client) here
  exact down ⟨last, Nat.le_trans since after, positive⟩
 have falls : ∀ later, time ≤ later → (execution.state (later + 1)).connList.length ≤
  (execution.state later).connList.length := by
  intro later since
  rcases execution.next later with ⟨-, same⟩ | ⟨event, -, taken⟩
  · rw [same]
  · exact length_le taken fun client con here => quiet later since client (.inl ⟨con, here⟩)
 obtain ⟨rest, since, same⟩ :=
  comes_to_rest (fun later => (execution.state later).connList.length) falls
 have nobody : ∀ later, rest ≤ later → ∀ client,
  (execution.state later).stage client ≠ .locked := by
  intro later after client here
  obtain ⟨last, between, fewer, -⟩ := takes nodup (fair client) here
  rw [same last (by omega), same (last + 1) (by omega)] at fewer
  exact Nat.lt_irrefl _ fewer
 obtain ⟨calm, after, open_⟩ := unlocks nodup fair rest
 have unlocked : ∀ later, calm ≤ later → (execution.state later).lock = none := by
  intro later past
  induction later, past using Nat.le_induction with
  | base => exact open_
  | succ later past ih =>
   rcases execution.next later with ⟨-, still⟩ | ⟨event, -, taken⟩
   · exact still.symm ▸ ih
   · cases owner : (execution.state (later + 1)).lock with
     | none => rfl
     | some client =>
      rcases lock_of_step taken owner with before | locked | returning
      · cases ih.symm.trans before
      · exact absurd locked (nobody (later + 1) (by omega) client)
      · exact absurd (.inl returning) (quiet (later + 1) (by omega) client)
 obtain ⟨number, counted, sum⟩ := (consistent_at nodup execution calm).due
 have low : (execution.state calm).reserve = 0 :=
  Nat.eq_zero_of_not_pos fun positive => down ⟨calm, Nat.le_trans since after, positive⟩
 have some_left := List.length_pos_iff.mpr (free calm (Nat.le_trans since after))
 obtain ⟨client, due⟩ := counted.exists_of_pos (by omega)
 have waited : (execution.state calm).stage client = .waited := by
  have noneLocked := nobody calm after client
  have noneReturning := quiet calm (Nat.le_trans since after) client
  cases here : (execution.state calm).stage client with
  | waited => rfl
  | locked => exact absurd here noneLocked
  | returned => exact absurd (.inr (.inl here)) noneReturning
  | recounted => simp_all
  | posting => simp_all
  | idle | called | waiting | took | counted | releasing | returning =>
   rw [here] at due
   cases due
 obtain ⟨later, past, still, taken⟩ := moves_on (fair client) waited nofun
  fun later past still => by
   simp only [Able, go, still, unlocked later past, isNone_none, if_true,
    isSome_some]
 simp only [go, still, unlocked later past, isNone_none, if_true] at taken
 refine nobody (later + 1) (by omega) client ?_
 grind

theorem able_again (nodup : conns.Nodup)
 (fair : ∀ client, execution.Fair (Able client) (.go client)) (client : Client) (time : ℕ) :
 ∃ later, time ≤ later ∧ (((execution.state later).stage client).getting = false ∨
  (execution.state later).connList = [] ∨ Able client (execution.state later)) := by
 by_contra blocked
 have getting : ∀ later, time ≤ later →
  ((execution.state later).stage client).getting = true := fun later since =>
  Bool.not_eq_false _ ▸ fun other => blocked ⟨later, since, .inl other⟩
 have free : ∀ later, time ≤ later → (execution.state later).connList ≠ [] :=
  fun later since empty => blocked ⟨later, since, .inr (.inl empty)⟩
 have unable : ∀ later, time ≤ later → ¬ Able client (execution.state later) :=
  fun later since able => blocked ⟨later, since, .inr (.inr able)⟩
 have still : ∀ later, time ≤ later →
  (execution.state later).stage client = (execution.state time).stage client := by
  intro later since
  induction later, since using le_induction with
  | base => rfl
  | succ later since ih =>
   refine (stays ?_ ?_).trans ih
   · intro idle
     have inside := getting later since
     rw [idle] at inside
     cases inside
   · intro happens
     have taken := Execution.taken_of_event happens
     exact unable later since (isSome_iff_exists.mpr ⟨_, taken⟩)
 cases here : (execution.state time).stage client with
 | waiting =>
  obtain ⟨later, since, positive⟩ := semaphore_rises nodup fair time free
  apply unable later since
  simp only [Able, go, still later since, here, positive, if_true, isSome_some]
 | waited =>
  obtain ⟨later, since, open_⟩ := unlocks nodup fair time
  apply unable later since
  simp only [Able, go, still later since, here, open_, isNone_none, if_true,
   isSome_some]
 | called =>
  apply unable time (le_refl time)
  simp only [Able, go, here]
  split <;> rfl
 | locked =>
  apply unable time (le_refl time)
  cases list : (execution.state time).connList with
  | nil => simp_all
  | cons con rest => simp only [Able, go, here, list, isSome_some]
 | took | counted =>
  apply unable time (le_refl time)
  simp only [Able, go, here, isSome_some]
 | idle | releasing | returning | returned | recounted | posting =>
  have inside := getting time (le_refl time)
  rw [here] at inside
  cases inside

omit execution in
theorem left_lt (taken : state.go client = some next)
 (getting : (state.stage client).getting = true) :
 (next.stage client).left < (state.stage client).left := by
 cases here : state.stage client with
 | called =>
  simp only [go, here] at taken
  split at taken
  all_goals
   cases taken
   simp only [move, update_self, Stage.left]
   decide
 | waiting | waited =>
  simp only [go, here] at taken
  obtain ⟨-, same⟩ := ite_none_right_eq_some.mp taken
  cases same
  simp only [move, update_self, Stage.left]
  decide
 | locked =>
  simp only [go, here] at taken
  split at taken
  · cases taken
    simp only [move, update_self, Stage.left]
    decide
  · cases taken
 | took | counted =>
  simp only [go, here] at taken
  cases taken
  simp only [move, update_self, Stage.left]
  decide
 | idle | releasing | returning | returned | recounted | posting =>
  rw [here] at getting
  cases getting

theorem returns (nodup : conns.Nodup)
 (fair : ∀ client, execution.Fair (Able client) (.go client))
 (strong : execution.StronglyFair (Able client) (.go client)) (time : ℕ) :
 ∃ later, time ≤ later ∧ (((execution.state later).stage client).getting = false ∨
  (execution.state later).connList = []) := by
 by_contra stuck
 have getting : ∀ later, time ≤ later →
  ((execution.state later).stage client).getting = true := fun later since =>
  Bool.not_eq_false _ ▸ fun other => stuck ⟨later, since, .inl other⟩
 have falls : ∀ later, time ≤ later → ((execution.state (later + 1)).stage client).left ≤
  ((execution.state later).stage client).left := by
  intro later since
  by_cases happens : execution.event later = some (.go client)
  · exact le_of_lt (left_lt (Execution.taken_of_event happens) (getting later since))
  · rw [stays ?_ happens]
    intro idle
    have inside := getting later since
    rw [idle] at inside
    cases inside
 obtain ⟨rest, since, same⟩ :=
  comes_to_rest (fun later => ((execution.state later).stage client).left) falls
 obtain ⟨later, after, happens⟩ := strong rest fun later after => by
  obtain ⟨last, past, other | empty | able⟩ := able_again nodup fair client later
  · exact absurd ⟨last, by omega, .inl other⟩ stuck
  · exact absurd ⟨last, by omega, .inr empty⟩ stuck
  · exact ⟨last, past, able⟩
 have fewer := left_lt (Execution.taken_of_event happens)
  (getting later (le_trans since after))
 have one := same later after
 have two := same (later + 1) (le_succ_of_le after)
 omega

end Fair

/-- The accounts are right in every run.  Where the scheduler is fair, no call of
`GetConnection` is kept waiting for ever while a connection is free, and it returns if the
scheduler does not pass its client over either. -/
theorem connection_pool_accounts (conns : List Conn) (nodup : conns.Nodup) :
 (∀ events (final : State Client Conn),
  Run (ofFunction step) (start conns) events final → final.Sound conns) ∧
 ∀ execution : Execution (ofFunction step) (start conns : State Client Conn),
  (∀ client, execution.Fair (Able client) (.go client)) → ∀ client time,
   (∃ later, time ≤ later ∧ (((execution.state later).stage client).getting = false ∨
    (execution.state later).connList = [] ∨ Able client (execution.state later))) ∧
   (execution.StronglyFair (Able client) (.go client) →
    ∃ later, time ≤ later ∧ (((execution.state later).stage client).getting = false ∨
     (execution.state later).connList = [])) := by
 constructor
 · intro events final run
   have consistent : final.Consistent conns :=
    run.invariant (start_consistent nodup) fun _ _ _ before taken => before.step taken
   exact consistent.sound
 · intro execution fair client time
   exact ⟨able_again nodup fair client time, fun strong => returns nodup fair strong time⟩

theorem connection_pool_accounts_two : ∃ final : State Bool ℕ,
 final.held true = [] ∧ final.held false = [7] ∧ final.connList = [] ∧ final.Sound [7] := by
 obtain ⟨final, same, first, second, list⟩ : ∃ final : State Bool ℕ,
  replay step (start [7]) [.getConnection true, .go true, .getConnection false, .go false,
   .go true, .go true, .go true, .go true, .go true, .releaseConnection true 7, .go true,
   .go true, .go true, .go true, .go true, .go false, .go false, .go false, .go false,
   .go false] = some final ∧
   final.held true = [] ∧ final.held false = [7] ∧ final.connList = [] :=
  ⟨_, rfl, rfl, rfl, rfl⟩
 refine ⟨final, first, second, list, ?_⟩
 exact (connection_pool_accounts [7] (List.nodup_singleton 7)).1 _ final (Run.of_replay_all same)

end State

end MyNotes.Network.SqlConnectionPool
