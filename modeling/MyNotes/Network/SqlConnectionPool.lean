/-
The web server's pool of database connections, under clients that take and return them.

A client is a thread, and the lock is held from `lock.lock()` to `lock.unlock()`.  The test of
the list's size in front of the semaphore takes no lock.  The pool starts as `init` leaves it,
with connections that the database has given out; they are never null.
-/

import MyNotes.Library.Mutex
import MyNotes.Library.Placement
import MyNotes.Library.ThreadCount
import MyNotes.Library.Transition

namespace MyNotes.Network.SqlConnectionPool

open Library.Transition Library.Mutex Library.Placement Function List Option
 Library.ThreadCount

variable {Client Conn : Type}

inductive Stage (Conn : Type) where
 | idle
 -- `GetConnection`
 | called
 | waiting
 | waited
 | locked
 | took (con : Conn)
 | counted (con : Conn)
 -- `ReleaseConnection`
 | releasing (con : Conn)
 | returning (con : Conn)
 | returned
 | recounted
 | posting

namespace Stage

def holdsLock : Stage Conn → Bool
 | .locked => true
 | .took _ => true
 | .counted _ => true
 | .returning _ => true
 | .returned => true
 | .recounted => true
 | _ => false

/-- The semaphore and the list differ by this client. -/
def due : Stage Conn → Bool
 | .waited => true
 | .locked => true
 | .returned => true
 | .recounted => true
 | .posting => true
 | _ => false

/-- By how much the count of free connections is ahead of the list. -/
def skew : Stage Conn → ℤ
 | .took _ => 1
 | .returned => -1
 | _ => 0

def givesBack : Stage Conn → Option Conn
 | .releasing con => some con
 | .returning con => some con
 | _ => none

/-- Where a client goes that neither waits nor takes a connection. -/
def after : Stage Conn → Option (Stage Conn)
 | .took con => some (.counted con)
 | .counted _ => some .idle
 | .returning _ => some .returned
 | .returned => some .recounted
 | .recounted => some .posting
 | .posting => some .idle
 | _ => none

/-- The steps that a call of `GetConnection` has left. -/
def left : Stage Conn → ℕ
 | .called => 6
 | .waiting => 5
 | .waited => 4
 | .locked => 3
 | .took _ => 2
 | .counted _ => 1
 | _ => 0

/-- The client is in a call of `GetConnection`. -/
def getting : Stage Conn → Bool
 | .called => true
 | .waiting => true
 | .waited => true
 | .locked => true
 | .took _ => true
 | .counted _ => true
 | _ => false

end Stage

/-- The pool, where every client is, and the connections that it holds. -/
structure State (Client Conn : Type) where
 connList : List Conn
 reserve : ℕ
 lock : Option Client
 mMaxConn : ℤ
 mCurConn : ℤ
 mFreeConn : ℤ
 stage : Client → Stage Conn
 held : Client → List Conn

inductive Event (Client Conn : Type) where
 | getConnection (client : Client)
 | releaseConnection (client : Client) (con : Conn)
 /-- The next step of a client in a call. -/
 | go (client : Client)

/-- `init` has put all connections into the list. -/
def start (conns : List Conn) : State Client Conn where
 connList := conns
 reserve := conns.length
 lock := none
 mMaxConn := conns.length
 mCurConn := 0
 mFreeConn := conns.length
 stage _ := .idle
 held _ := []

namespace State

variable [DecidableEq Client] [DecidableEq Conn]

def move (self : State Client Conn) (client : Client) (stage : Stage Conn) :
 State Client Conn :=
 { self with stage := update self.stage client stage }

/-- The next step of a client; `none` when it has to wait. -/
def go (self : State Client Conn) (client : Client) : Option (State Client Conn) :=
 match self.stage client with
 | .idle => none
 | .called =>
  if self.connList.length = 0 then some (self.move client .idle)
  else some (self.move client .waiting)
 | .waiting =>
  if 0 < self.reserve then
   some { self.move client .waited with reserve := self.reserve - 1 }
  else none
 | .waited =>
  if self.lock.isNone then some { self.move client .locked with lock := some client }
  else none
 | .locked =>
  match self.connList with
  | con :: rest =>
   some { self.move client (.took con) with
    connList := rest
    held := update self.held client (con :: self.held client) }
  -- `front` of an empty list
  | [] => none
 | .took con =>
  some { self.move client (.counted con) with
   mFreeConn := self.mFreeConn - 1
   mCurConn := self.mCurConn + 1 }
 | .counted _ => some { self.move client .idle with lock := none }
 | .releasing con =>
  if self.lock.isNone then some { self.move client (.returning con) with lock := some client }
  else none
 | .returning con =>
  some { self.move client .returned with
   connList := self.connList ++ [con]
   held := update self.held client ((self.held client).erase con) }
 | .returned =>
  some { self.move client .recounted with
   mFreeConn := self.mFreeConn + 1
   mCurConn := self.mCurConn - 1 }
 | .recounted => some { self.move client .posting with lock := none }
 | .posting => some { self.move client .idle with reserve := self.reserve + 1 }

def step (self : State Client Conn) : Event Client Conn → Option (State Client Conn)
 | .getConnection client =>
  match self.stage client with
  | .idle => some (self.move client .called)
  | _ => none
 | .releaseConnection client con =>
  match self.stage client with
  | .idle =>
   if con ∈ self.held client then some (self.move client (.releasing con)) else none
  | _ => none
 | .go client => self.go client

/-! ### Accounting -/

def contents (connList : List Conn) (held : Client → List Conn) : Option Client → List Conn
 | none => connList
 | some client => held client

structure Sound (conns : List Conn) (state : State Client Conn) : Prop where
 front : ∀ client, state.stage client = .locked → state.connList ≠ []
 exclusive : Placed (· ∈ conns) (contents state.connList state.held)
 free : state.lock = none → state.mFreeConn = state.connList.length
 total : state.lock = none → state.mFreeConn + state.mCurConn = state.mMaxConn

/-- By how much the count of free connections is ahead of the list. -/
def skew (lock : Option Client) (stage : Client → Stage Conn) : ℤ :=
 match lock with
 | some client => (stage client).skew
 | none => 0

structure Consistent (conns : List Conn) (state : State Client Conn) : Prop where
 mutex : Guards Stage.holdsLock state.stage state.lock
 placed : Placed (· ∈ conns) (contents state.connList state.held)
 gives : ∀ {client con}, (state.stage client).givesBack = some con → con ∈ state.held client
 free : state.mFreeConn = state.connList.length + skew state.lock state.stage
 total : state.mFreeConn + state.mCurConn = state.mMaxConn
 /-- A unit of the semaphore stands for a connection in the list. -/
 due : ∃ number, Counted Stage.due state.stage number ∧
  state.connList.length = state.reserve + number

variable {conns : List Conn} {state next : State Client Conn} {client : Client}
 {stage : Stage Conn} {con : Conn} {event : Event Client Conn}

section

omit [DecidableEq Client] [DecidableEq Conn]

theorem start_consistent (nodup : conns.Nodup) :
 (start conns : State Client Conn).Consistent conns where
 mutex := Guards.start fun _ => rfl
 placed :=
  { nodup := fun
     | none => nodup
     | some _ => nodup_nil
    known := fun
     | none, _, member => member
     | some _, _, member => absurd member not_mem_nil
    one := fun _ member => ⟨none, member, fun
     | none, _ => rfl
     | some _, inside => absurd inside not_mem_nil⟩ }
 gives := nofun
 free := (Int.add_zero _).symm
 total := Int.add_zero _
 due := ⟨0, Counted.start fun _ => rfl, (Nat.add_zero _).symm⟩

theorem Consistent.front (consistent : state.Consistent conns)
 (locked : state.stage client = .locked) : state.connList ≠ [] := by
 obtain ⟨number, counted, sum⟩ := consistent.due
 have mine : (state.stage client).due = true := by rw [locked]; rfl
 have positive := counted.pos mine
 grind

theorem Consistent.sound (consistent : state.Consistent conns) : state.Sound conns where
 front _ locked := consistent.front locked
 exclusive := consistent.placed
 free nobody := by
  rw [consistent.free, nobody]
  exact Int.add_zero _
 total _ := consistent.total

end

omit [DecidableEq Conn] in
theorem gives_of_update (consistent : state.Consistent conns) {held : Client → List Conn}
 (mine : ∀ con, stage.givesBack = some con → con ∈ held client)
 (others : ∀ other ≠ client, held other = state.held other) {other : Client}
 (gives : (update state.stage client stage other).givesBack = some con) :
 con ∈ held other := by
 by_cases me : other = client
 · simp_all
 · rw [update_of_ne me] at gives
   exact others other me ▸ consistent.gives gives

omit [DecidableEq Conn] in
theorem skew_owner : skew (some client) (update state.stage client stage) =
 stage.skew :=
 congrArg Stage.skew (update_self _ _ _)

section

variable (consistent : state.Consistent conns)
include consistent

section

omit [DecidableEq Conn]

theorem Consistent.skew_other (before : (state.stage client).holdsLock = false) :
 skew state.lock (update state.stage client stage) =
  skew state.lock state.stage := by
 unfold skew
 cases owner : state.lock with
 | none => rfl
 | some other =>
  have elsewhere : other ≠ client := by
   intro me
   have held := (consistent.mutex other).mpr owner
   rw [me, before] at held
   cases held
  simp_all

theorem Consistent.move (before : (state.stage client).holdsLock = false)
 (after : stage.holdsLock = false) (due : stage.due = (state.stage client).due)
 (gives : ∀ con, stage.givesBack = some con → con ∈ state.held client) :
 (state.move client stage).Consistent conns where
 mutex := consistent.mutex.stay (after.trans before.symm)
 placed := consistent.placed
 gives := gives_of_update consistent gives fun _ _ => rfl
 free := consistent.free.trans (congrArg _ (consistent.skew_other before).symm)
 total := consistent.total
 due := by
  obtain ⟨number, counted, sum⟩ := consistent.due
  exact ⟨number, counted.stay due, sum⟩

theorem Consistent.wait (waiting : state.stage client = .waiting) (positive : 0 < state.reserve) :
 Consistent conns { state.move client .waited with reserve := state.reserve - 1 } where
 mutex := consistent.mutex.stay (by rw [waiting]; rfl)
 placed := consistent.placed
 gives := gives_of_update consistent (fun _ none => by cases none) fun _ _ => rfl
 free := by
  have before : (state.stage client).holdsLock = false := by rw [waiting]; rfl
  exact consistent.free.trans (congrArg _ (consistent.skew_other before).symm)
 total := consistent.total
 due := by
  obtain ⟨number, counted, sum⟩ := consistent.due
  refine ⟨number + 1, counted.arrive (by rw [waiting]; rfl) rfl, ?_⟩
  change state.connList.length = state.reserve - 1 + (number + 1)
  omega

theorem Consistent.acquire (nobody : state.lock = none) (after : stage.holdsLock = true)
 (level : stage.skew = 0) (due : stage.due = (state.stage client).due)
 (gives : ∀ con, stage.givesBack = some con → con ∈ state.held client) :
 Consistent conns { state.move client stage with lock := some client } where
 mutex := consistent.mutex.lock nobody after
 placed := consistent.placed
 gives := gives_of_update consistent gives fun _ _ => rfl
 free := by
  refine consistent.free.trans (congrArg _ ?_)
  rw [nobody]
  exact level.symm.trans skew_owner.symm
 total := consistent.total
 due := by
  obtain ⟨number, counted, sum⟩ := consistent.due
  exact ⟨number, counted.stay due, sum⟩

theorem Consistent.unlock (before : (state.stage client).holdsLock = true)
 (level : (state.stage client).skew = 0) (after : stage.holdsLock = false)
 (due : stage.due = (state.stage client).due) (gives : stage.givesBack = none) :
 Consistent conns { state.move client stage with lock := none } where
 mutex := consistent.mutex.unlock before after
 placed := consistent.placed
 gives := gives_of_update consistent (fun _ some => by cases gives.symm.trans some) fun _ _ => rfl
 free := by
  refine consistent.free.trans (congrArg _ ?_)
  rw [consistent.mutex.owner before]
  exact level
 total := consistent.total
 due := by
  obtain ⟨number, counted, sum⟩ := consistent.due
  exact ⟨number, counted.stay due, sum⟩

theorem Consistent.recount {free cur : ℤ} (before : (state.stage client).holdsLock = true)
 (after : stage.holdsLock = true)
 (follows : free + (state.stage client).skew = state.mFreeConn + stage.skew)
 (sum : free + cur = state.mFreeConn + state.mCurConn) (due : stage.due = (state.stage client).due)
 (gives : stage.givesBack = none) :
 Consistent conns { state.move client stage with mFreeConn := free, mCurConn := cur } where
 mutex := consistent.mutex.stay (after.trans before.symm)
 placed := consistent.placed
 gives := gives_of_update consistent (fun _ some => by cases gives.symm.trans some) fun _ _ => rfl
 free := by
  have was := consistent.free
  have owner := consistent.mutex.owner before
  simp only [State.move, owner, skew_owner]
  rw [owner] at was
  simp only [skew] at was
  omega
 total := sum.trans consistent.total
 due := by
  obtain ⟨number, counted, sum⟩ := consistent.due
  exact ⟨number, counted.stay due, sum⟩

end

end

omit [DecidableEq Conn] in
theorem contents_update (list more mine : List Conn) (held : Client → List Conn)
 (client : Client) : contents more (update held client mine) =
  update (update (contents list held) none more) (some client) mine := by
 funext place
 cases place with
 | none => simp [contents]
 | some other => simp [contents, update_apply]

variable (consistent : state.Consistent conns)
include consistent

omit [DecidableEq Conn] in
theorem Consistent.take {rest : List Conn} (locked : state.stage client = .locked)
 (list : state.connList = con :: rest) :
 Consistent conns { state.move client (.took con) with
  connList := rest
  held := update state.held client (con :: state.held client) } where
 mutex := consistent.mutex.stay (by rw [locked]; rfl)
 placed := by
  have different : (none : Option Client) ≠ some client := nofun
  have taken : (contents state.connList state.held none).Perm (con :: rest) := .of_eq list
  have moved := consistent.placed.move different taken (.refl (con :: state.held client))
  exact contents_update state.connList rest _ state.held client ▸ moved
 gives := gives_of_update consistent (fun _ none => by cases none) fun _ elsewhere =>
  update_of_ne elsewhere _ _
 free := by
  have was := consistent.free
  have owner := consistent.mutex.owner (by rw [locked]; rfl : (state.stage client).holdsLock = _)
  simp only [State.move, owner, skew_owner]
  rw [owner, list] at was
  simp only [skew, locked, Stage.skew, length_cons] at was ⊢
  omega
 total := consistent.total
 due := by
  obtain ⟨number, counted, sum⟩ := consistent.due
  obtain ⟨left, more, fewer⟩ : ∃ left, number = left + 1 ∧
   Counted Stage.due (update state.stage client (.took con)) left :=
   counted.depart (by rw [locked]; rfl) rfl
  refine ⟨left, fewer, ?_⟩
  rw [list, length_cons] at sum
  change rest.length = state.reserve + left
  omega

theorem Consistent.giveBack (returning : state.stage client = .returning con) :
 Consistent conns { state.move client .returned with
  connList := state.connList ++ [con]
  held := update state.held client ((state.held client).erase con) } where
 mutex := consistent.mutex.stay (by rw [returning]; rfl)
 placed := by
  have held : con ∈ state.held client := consistent.gives (by rw [returning]; rfl)
  have different : some client ≠ none := nofun
  have taken : (contents state.connList state.held (some client)).Perm
   (con :: (state.held client).erase con) := perm_cons_erase held
  have put : (state.connList ++ [con]).Perm (con :: contents state.connList state.held none) :=
   perm_append_singleton con state.connList
  have moved := consistent.placed.move different taken put
  rw [update_comm different] at moved
  exact contents_update state.connList (state.connList ++ [con]) _ state.held client ▸ moved
 gives := gives_of_update consistent (fun _ none => by cases none) fun _ elsewhere =>
  update_of_ne elsewhere _ _
 free := by
  have was := consistent.free
  have owner := consistent.mutex.owner
   (by rw [returning]; rfl : (state.stage client).holdsLock = _)
  simp only [State.move, owner, skew_owner]
  rw [owner] at was
  simp only [skew, returning, Stage.skew, length_append, length_cons,
   length_nil] at was ⊢
  omega
 total := consistent.total
 due := by
  obtain ⟨number, counted, sum⟩ := consistent.due
  refine ⟨number + 1, counted.arrive (by rw [returning]; rfl) rfl, ?_⟩
  rw [length_append, sum]
  rfl

omit [DecidableEq Conn] in
theorem Consistent.post (posting : state.stage client = .posting) :
 Consistent conns { state.move client .idle with reserve := state.reserve + 1 } where
 mutex := consistent.mutex.stay (by rw [posting]; rfl)
 placed := consistent.placed
 gives := gives_of_update consistent (fun _ none => by cases none) fun _ _ => rfl
 free := by
  have before : (state.stage client).holdsLock = false := by rw [posting]; rfl
  exact consistent.free.trans (congrArg _ (consistent.skew_other before).symm)
 total := consistent.total
 due := by
  obtain ⟨number, counted, sum⟩ := consistent.due
  obtain ⟨left, more, fewer⟩ : ∃ left, number = left + 1 ∧
   Counted Stage.due (update state.stage client .idle) left :=
   counted.depart (by rw [posting]; rfl) rfl
  refine ⟨left, fewer, ?_⟩
  change state.connList.length = state.reserve + 1 + left
  omega

theorem Consistent.go (taken : state.go client = some next) : next.Consistent conns := by
 cases here : state.stage client with
 | idle =>
  simp only [State.go, here] at taken
  cases taken
 | called =>
  simp only [State.go, here] at taken
  split at taken
  all_goals
   cases taken
   exact consistent.move (by rw [here]; rfl) rfl (by rw [here]; rfl) nofun
 | waiting =>
  simp only [State.go, here] at taken
  obtain ⟨positive, same⟩ := ite_none_right_eq_some.mp taken
  cases same
  exact consistent.wait here positive
 | waited =>
  simp only [State.go, here] at taken
  obtain ⟨nobody, same⟩ := ite_none_right_eq_some.mp taken
  cases same
  exact consistent.acquire (isNone_iff_eq_none.mp nobody) rfl rfl (by rw [here]; rfl)
   nofun
 | locked =>
  simp only [State.go, here] at taken
  cases list : state.connList with
  | nil => exact absurd list (consistent.front here)
  | cons con rest =>
   simp only [list] at taken
   cases taken
   exact consistent.take here list
 | took con =>
  simp only [State.go, here] at taken
  cases taken
  refine consistent.recount (by rw [here]; rfl) rfl ?_ (by omega) (by rw [here]; rfl) rfl
  rw [here]
  simp only [Stage.skew]
  omega
 | counted con =>
  simp only [State.go, here] at taken
  cases taken
  exact consistent.unlock (by rw [here]; rfl) (by rw [here]; rfl) rfl (by rw [here]; rfl) rfl
 | releasing con =>
  simp only [State.go, here] at taken
  obtain ⟨nobody, same⟩ := ite_none_right_eq_some.mp taken
  cases same
  refine consistent.acquire (isNone_iff_eq_none.mp nobody) rfl rfl (by rw [here]; rfl) ?_
  intro other same
  exact consistent.gives (by rw [here]; exact same)
 | returning con =>
  simp only [State.go, here] at taken
  cases taken
  exact consistent.giveBack here
 | returned =>
  simp only [State.go, here] at taken
  cases taken
  refine consistent.recount (by rw [here]; rfl) rfl ?_ (by omega) (by rw [here]; rfl) rfl
  rw [here]
  simp only [Stage.skew]
  omega
 | recounted =>
  simp only [State.go, here] at taken
  cases taken
  exact consistent.unlock (by rw [here]; rfl) (by rw [here]; rfl) rfl (by rw [here]; rfl) rfl
 | posting =>
  simp only [State.go, here] at taken
  cases taken
  exact consistent.post here

theorem Consistent.step (taken : state.step event = some next) : next.Consistent conns := by
 cases event with
 | getConnection client =>
  simp only [State.step] at taken
  split at taken
  · rename_i idle
    cases taken
    exact consistent.move (by rw [idle]; rfl) rfl (by rw [idle]; rfl) nofun
  · cases taken
 | releaseConnection client con =>
  simp only [State.step] at taken
  split at taken
  · rename_i idle
    obtain ⟨held, same⟩ := ite_none_right_eq_some.mp taken
    cases same
    refine consistent.move (by rw [idle]; rfl) rfl (by rw [idle]; rfl) ?_
    intro other same
    cases same
    exact held
  · cases taken
 | go client => exact consistent.go taken

end State

end MyNotes.Network.SqlConnectionPool
