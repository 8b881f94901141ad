/-
The poll loop of the chat server.

One turn of the inner loop is one step; its system calls answer with a reply.  A pointer into
the buffer of a record is the descriptor of that record.  A state also keeps which connection
an open descriptor belongs to, the messages that were received and the bytes that were sent.  A
connection over the limit is told so and closed at once; it is not a client.
-/

import MyNotes.Library.CString
import MyNotes.Library.Transition
import Mathlib.Data.BitVec

namespace MyNotes.Network.ChatServ

open Library.Transition Library.CString Function List Prod

def userLimin : ℕ := 5

def bufferSize : ℕ := 64

def pollIn : BitVec 16 := 0x001

def pollOut : BitVec 16 := 0x004

def pollErr : BitVec 16 := 0x008

def pollHup : BitVec 16 := 0x010

def pollNval : BitVec 16 := 0x020

def pollRdhup : BitVec 16 := 0x2000

def has (flag flags : BitVec 16) : Bool := flags &&& flag ≠ 0

theorem has_twoPow (flags : BitVec 16) {k : ℕ} (small : k < 16) :
 has (BitVec.twoPow 16 k) flags = flags.getLsbD k := by
 unfold has
 rw [BitVec.and_twoPow]
 cases flags.getLsbD k with
 | false => rfl
 | true =>
  simp only [if_true, ne_eq, decide_not, Bool.not_eq_eq_eq_not, Bool.not_true,
   decide_eq_false_iff_not]
  intro zero
  have bit := congrArg (fun flags => flags.getLsbD k) zero
  grind

theorem has_of_reported {revents events : BitVec 16} {k : ℕ} (small : k < 16)
 (reported : revents &&& ~~~(events ||| pollErr ||| pollHup ||| pollNval) = 0)
 (absent : (pollErr ||| pollHup ||| pollNval).getLsbD k = false)
 (bit : has (BitVec.twoPow 16 k) revents = true) : has (BitVec.twoPow 16 k) events = true := by
 rw [has_twoPow _ small] at bit ⊢
 have none := congrArg (fun flags => flags.getLsbD k) reported
 grind

theorem has_pollOut_or (flags : BitVec 16) : has pollOut (flags ||| pollOut) = true := by
 change has (BitVec.twoPow 16 2) _ = true
 rw [has_twoPow _ (by decide), BitVec.getLsbD_or, Bool.or_eq_true]
 exact .inr (by decide)

structure ClientData where
 writeBuf : Option ℤ
 buf : Buffer

structure Pollfd where
 fd : ℤ
 events : BitVec 16
 revents : BitVec 16

structure Message where
 sender : ℕ
 bytes : List UInt8
 connected : List ℕ

structure State where
 servSock : ℤ
 users : ℤ → ClientData
 fds : ℕ → Pollfd
 userCounter : ℕ
 i : ℕ
 client : ℤ → Option ℕ
 clients : ℕ
 messages : List Message
 sent : List (ℕ × List UInt8)

inductive Reply where
 | nothing
 | accepted (clntSock : ℤ)
 /-- What `recv` has read; nothing at the end of the stream. -/
 | received (bytes : List UInt8)
 | again
 | failed
 /-- How many bytes `send` has taken; none if it failed. -/
 | sent (count : ℕ)

inductive Event where
 | poll (revents : ℕ → BitVec 16)
 | turn (reply : Reply)

inductive Branch where
 | accept
 | error
 | hangUp
 | read
 | write
 | idle

def start (servSock : ℤ) (users : ℤ → ClientData) : State where
 servSock := servSock
 users := users
 fds
  | 0 => ⟨servSock, pollIn ||| pollErr, 0⟩
  | _ + 1 => ⟨-1, 0, 0⟩
 userCounter := 0
 i := 1
 client _ := none
 clients := 0
 messages := []
 sent := []

namespace State

section

variable (self : State)

def next : State := { self with i := self.i + 1 }

def branch : Branch :=
 let pollfd := self.fds self.i
 if pollfd.fd = self.servSock ∧ has pollIn pollfd.revents then .accept
 else if has pollErr pollfd.revents then .error
 else if has pollRdhup pollfd.revents then .hangUp
 else if has pollIn pollfd.revents then .read
 else if has pollOut pollfd.revents then .write
 else .idle

def accept (clntSock : ℤ) : State :=
 if userLimin ≤ self.userCounter then self.next
 else
  { self.next with
   userCounter := self.userCounter + 1
   fds := update self.fds (self.userCounter + 1)
    ⟨clntSock, pollIn ||| pollRdhup ||| pollErr, 0⟩
   client := update self.client clntSock (some self.clients)
   clients := self.clients + 1 }

/-- The client of this turn leaves; the turn is taken again with the last client. -/
def leave : State :=
 let fd := (self.fds self.i).fd
 let last := self.fds self.userCounter
 { self with
  users := update self.users fd (self.users last.fd)
  fds := update self.fds self.i last
  userCounter := self.userCounter - 1
  client := update self.client fd none }

def setBuf (fd : ℤ) (buf : Buffer) : State :=
 { self with users := update self.users fd { self.users fd with buf := buf } }

end

def writeTo (connfd : ℤ) (self : State) (i : ℕ) : State :=
 let pollfd := self.fds i
 if pollfd.fd = connfd then self
 else
  { self with
   fds := update self.fds i
    { pollfd with events := pollfd.events ||| ~~~pollIn ||| pollOut }
   users := update self.users pollfd.fd
    { self.users pollfd.fd with writeBuf := some connfd } }

def broadcast (self : State) (connfd : ℤ) : State :=
 (List.range' 1 self.userCounter).foldl (writeTo connfd) self

def connected (self : State) : List ℕ :=
 (List.range' 1 self.userCounter).filterMap fun i => self.client (self.fds i).fd

def zeros (length : ℕ) : Buffer := List.replicate length 0

section

variable (self : State)

def record (fd : ℤ) (bytes : List UInt8) : State :=
 match self.client fd with
 | some sender =>
  { self with messages := self.messages ++ [⟨sender, bytes, self.connected⟩] }
 | none => self

def receive (bytes : List UInt8) : State :=
 let connfd := (self.fds self.i).fd
 let filled := self.setBuf connfd (bytes ++ zeros (bufferSize - bytes.length))
 match bytes with
 | [] => filled.next
 | _ :: _ => ((filled.record connfd bytes).broadcast connfd).next

def deliver (fd : ℤ) (bytes : List UInt8) : State :=
 match self.client fd, bytes with
 | some receiver, _ :: _ => { self with sent := self.sent ++ [(receiver, bytes)] }
 | _, _ => self

/-- `send` of the string that a client waits for. -/
def send (pointer : ℤ) (count : ℕ) : State :=
 let pollfd := self.fds self.i
 let bytes := (cstr (self.users pointer).buf 0).take count
 { (self.deliver pollfd.fd bytes).next with
  users := update self.users pollfd.fd
   { self.users pollfd.fd with writeBuf := none }
  fds := update self.fds self.i
   { pollfd with events := pollfd.events ||| ~~~pollOut ||| pollIn } }

def turn (reply : Reply) : Option State :=
 let connfd := (self.fds self.i).fd
 if self.userCounter < self.i then none
 else
  match self.branch, reply with
  | .accept, .accepted clntSock =>
   -- a new descriptor is one that is not open
   if clntSock ≠ self.servSock ∧ (self.client clntSock).isNone then
    some (self.accept clntSock)
   else none
  | .error, .nothing => some self.next
  | .hangUp, .nothing => some self.leave
  | .read, .received bytes =>
   if bytes.length < bufferSize then some (self.receive bytes) else none
  | .read, .again => some (self.setBuf connfd (zeros bufferSize)).next
  | .read, .failed => some (self.setBuf connfd (zeros bufferSize)).leave
  | .write, .nothing =>
   if (self.users connfd).writeBuf.isNone then some self.next else none
  | .write, .sent count =>
   match (self.users connfd).writeBuf with
   | none => none
   | some pointer =>
    -- `strlen` would read past a buffer without a NUL
    if 0 ∈ (self.users pointer).buf ∧
     count ≤ (cstr (self.users pointer).buf 0).length then
     some (self.send pointer count)
    else none
  | .idle, .nothing => some self.next
  | _, _ => none

/-- `poll` reports what was asked for, errors and hang-ups. -/
def poll (revents : ℕ → BitVec 16) : Option State :=
 if self.userCounter < self.i ∧ ∀ i < self.userCounter + 1, revents i &&&
  ~~~((self.fds i).events ||| pollErr ||| pollHup ||| pollNval) = 0 then
  some { self with
   i := 0
   fds := fun i =>
    if i < self.userCounter + 1 then { self.fds i with revents := revents i }
    else self.fds i }
 else none

def step : Event → Option State
 | .poll revents => self.poll revents
 | .turn reply => self.turn reply

end

def Used (state : State) (i : ℕ) : Prop := 1 ≤ i ∧ i ≤ state.userCounter

/-- The message of this number came from somebody else while the client was connected. -/
def Carries (messages : List Message) (client : ℕ) (number : ℕ) (bytes : List UInt8) : Prop :=
 ∃ message, messages[number]? = some message ∧ message.bytes = bytes ∧
  message.sender ≠ client ∧ client ∈ message.connected

def sentTo (state : State) (client : ℕ) : List (List UInt8) :=
 (state.sent.filter fun entry => entry.1 = client).map Prod.snd

/-- A client was sent the messages of these numbers, none twice. -/
structure Served (state : State) (client : ℕ) (numbers : List ℕ) : Prop where
 increasing : numbers.Pairwise (· < ·)
 carried : List.Forall₂ (Carries state.messages client) numbers (state.sentTo client)

structure Sound (state : State) : Prop where
 limit : state.userCounter ≤ userLimin
 distinct : ∀ i j, state.Used i → state.Used j → (state.fds i).fd = (state.fds j).fd → i = j
 opened : ∀ i, state.Used i → (state.client (state.fds i).fd).isSome = true
 served : ∀ client, ∃ numbers, state.Served client numbers

/-- Nobody else waits for what is in the buffer of the client of this turn. -/
def Unawaited (state : State) : Prop :=
 state.i = state.userCounter ∨ ∀ i < state.userCounter + 1, 1 ≤ i → i ≠ state.i →
  has pollOut (state.fds i).events = true →
  (state.users (state.fds i).fd).writeBuf ≠ some (state.fds state.i).fd

instance (state : State) : Decidable state.Unawaited :=
 inferInstanceAs (Decidable (_ ∨ _))

/-- A client that leaves another place than the last has no message pending, a message has no
NUL behind its first byte, and `send` takes it as a whole or not at all. -/
def Permits (state : State) : Branch → Reply → Prop
 | .hangUp, _ => state.Unawaited
 | .read, .failed => state.Unawaited
 | .read, .received bytes => cstr bytes 0 = bytes ∨ cstr bytes 0 = []
 | .write, .sent count => count = 0 ∨
  ∀ pointer ∈ (state.users (state.fds state.i).fd).writeBuf,
   (cstr (state.users pointer).buf 0).length ≤ count
 | _, _ => True

def avoids (state : State) : Event → Prop
 | .poll _ => True
 | .turn reply => state.Permits state.branch reply

instance (state : State) : ∀ branch reply, Decidable (state.Permits branch reply)
 | .hangUp, _ => inferInstanceAs (Decidable state.Unawaited)
 | .read, .failed => inferInstanceAs (Decidable state.Unawaited)
 | .read, .received _ => inferInstanceAs (Decidable (_ ∨ _))
 | .write, .sent _ => inferInstanceAs (Decidable (_ ∨ _))
 | .read, .nothing => .isTrue trivial
 | .read, .accepted _ => .isTrue trivial
 | .read, .again => .isTrue trivial
 | .read, .sent _ => .isTrue trivial
 | .write, .nothing => .isTrue trivial
 | .write, .accepted _ => .isTrue trivial
 | .write, .received _ => .isTrue trivial
 | .write, .again => .isTrue trivial
 | .write, .failed => .isTrue trivial
 | .accept, _ => .isTrue trivial
 | .error, _ => .isTrue trivial
 | .idle, _ => .isTrue trivial

instance (state : State) : ∀ event, Decidable (state.avoids event)
 | .poll _ => .isTrue trivial
 | .turn reply => inferInstanceAs (Decidable (state.Permits state.branch reply))

/-! ### What is kept -/

/-- What a client waits for is a message that it was not sent, or nothing. -/
def Awaits (state : State) (client : ℕ) (numbers : List ℕ) (pointer : ℤ) : Prop :=
 cstr (state.users pointer).buf 0 = [] ∨ ∃ number, (∀ earlier ∈ numbers, earlier < number) ∧
  Carries state.messages client number (cstr (state.users pointer).buf 0)

structure Table (state : State) : Prop where
 limit : state.userCounter ≤ userLimin
 server : (state.fds 0).fd = state.servSock ∧ (state.fds 0).events = pollIn ||| pollErr ∧
  has pollRdhup (state.fds 0).revents = false ∧ has pollOut (state.fds 0).revents = false
 distinct : ∀ i j, state.Used i → state.Used j → (state.fds i).fd = (state.fds j).fd → i = j
 owned : ∀ i, state.Used i → ∃ client, state.client (state.fds i).fd = some client
 listening : state.client state.servSock = none
 numbered : ∀ fd client, state.client fd = some client → client < state.clients
 unique : ∀ fd other client, state.client fd = some client →
  state.client other = some client → fd = other
 asked : ∀ i, has pollOut (state.fds i).revents = true → has pollOut (state.fds i).events = true

structure Mail (state : State) : Prop where
 own : ∀ i, state.Used i → has pollOut (state.fds i).events = true →
  (state.users (state.fds i).fd).writeBuf ≠ some (state.fds i).fd
 served : ∀ client, ∃ numbers, state.Served client numbers ∧ ∀ i pointer, state.Used i →
  state.client (state.fds i).fd = some client → has pollOut (state.fds i).events = true →
   (state.users (state.fds i).fd).writeBuf = some pointer →
   state.Awaits client numbers pointer

/-- The same, if everybody else were given what is in one buffer. -/
structure Ready (state : State) (connfd : ℤ) : Prop where
 own : ∀ i, state.Used i → has pollOut (state.fds i).events = true →
  (state.users (state.fds i).fd).writeBuf ≠ some (state.fds i).fd
 served : ∀ client, ∃ numbers, state.Served client numbers ∧ ∀ i pointer, state.Used i →
  state.client (state.fds i).fd = some client →
   (has pollOut (state.fds i).events = true ∧
    (state.users (state.fds i).fd).writeBuf = some pointer ∨
    (state.fds i).fd ≠ connfd ∧ pointer = connfd) → state.Awaits client numbers pointer

structure Consistent (state : State) : Prop where
 table : state.Table
 mail : state.Mail

variable {state after : State} {fd connfd : ℤ} {reply : Reply} {event : Event}

theorem used_iff (same : after.userCounter = state.userCounter) (i : ℕ) :
 after.Used i ↔ state.Used i := by
 unfold Used
 rw [same]

theorem Table.congr (table : state.Table)
 (same : (after.servSock, after.userCounter, after.client, after.clients) =
  (state.servSock, state.userCounter, state.client, state.clients))
 (fd : ∀ i, (after.fds i).fd = (state.fds i).fd)
 (server : (after.fds 0).events = pollIn ||| pollErr ∧
  has pollRdhup (after.fds 0).revents = false ∧ has pollOut (after.fds 0).revents = false)
 (asked : ∀ i, has pollOut (after.fds i).revents = true →
  has pollOut (after.fds i).events = true) : after.Table := by
 simp only [Prod.mk.injEq] at same
 obtain ⟨sameSock, sameCounter, sameClient, sameClients⟩ := same
 refine ⟨?_, ⟨?_, server⟩, ?_, ?_, ?_, ?_, ?_, asked⟩
 · rw [sameCounter]
   exact table.limit
 · rw [fd, sameSock]
   exact table.server.1
 · simp only [used_iff sameCounter, fd]
   exact table.distinct
 · simp only [used_iff sameCounter, fd, sameClient]
   exact table.owned
 · rw [sameClient, sameSock]
   exact table.listening
 · rw [sameClient, sameClients]
   exact table.numbered
 · rw [sameClient]
   exact table.unique

variable {client : ℕ} {numbers : List ℕ} {pointer : ℤ}

theorem Awaits.congr (awaits : state.Awaits client numbers pointer)
 (buf : (after.users pointer).buf = (state.users pointer).buf)
 (messages : after.messages = state.messages) : after.Awaits client numbers pointer := by
 unfold Awaits at awaits ⊢
 rw [buf, messages]
 exact awaits

theorem Served.congr (served : state.Served client numbers)
 (messages : after.messages = state.messages) (sent : after.sentTo client = state.sentTo client)
 :
 after.Served client numbers := by
 refine ⟨served.increasing, ?_⟩
 rw [messages, sent]
 exact served.carried

theorem Ready.mail (ready : state.Ready connfd) : state.Mail where
 own := ready.own
 served client := by
  obtain ⟨numbers, served, awaits⟩ := ready.served client
  grind

theorem Consistent.sound (consistent : state.Consistent) : state.Sound where
 limit := consistent.table.limit
 distinct := consistent.table.distinct
 opened i used := by
  obtain ⟨client, same⟩ := consistent.table.owned i used
  simp_all
 served client := (consistent.mail.served client).imp fun _ both => both.1

theorem start_consistent (servSock : ℤ) (users : ℤ → ClientData) :
 (start servSock users).Consistent := by
 have unused : ∀ i, ¬ (start servSock users).Used i := fun i used =>
  Nat.lt_irrefl _ (Nat.lt_of_lt_of_le used.1 used.2)
 have silent : ∀ flag i, has flag ((start servSock users).fds i).revents = false := by
  intro flag i
  have none : ((start servSock users).fds i).revents = 0 := by
   cases i with
   | zero => rfl
   | succ i => rfl
  rw [none, has, BitVec.ofNat_eq_ofNat, BitVec.zero_and]
  rfl
 refine ⟨⟨Nat.zero_le _, ⟨rfl, rfl, silent _ 0, silent _ 0⟩,
  fun i _ used => absurd used (unused i), fun i used => absurd used (unused i), rfl, nofun,
  nofun, fun i reported => ?_⟩, ⟨fun i used => absurd used (unused i),
  fun _ => ⟨[], ⟨.nil, .nil⟩, fun i _ used => absurd used (unused i)⟩⟩⟩
 rw [silent] at reported
 cases reported

theorem Consistent.next (consistent : state.Consistent) : state.next.Consistent :=
 ⟨⟨consistent.table.limit, consistent.table.server, consistent.table.distinct,
  consistent.table.owned, consistent.table.listening, consistent.table.numbered,
  consistent.table.unique, consistent.table.asked⟩,
  ⟨consistent.mail.own, fun client => by
   obtain ⟨numbers, served, awaits⟩ := consistent.mail.served client
   exact ⟨numbers, ⟨served.increasing, served.carried⟩, awaits⟩⟩⟩

theorem Consistent.poll {revents : ℕ → BitVec 16} (consistent : state.Consistent)
 (taken : state.poll revents = some after) : after.Consistent := by
 obtain ⟨⟨-, reported⟩, same⟩ := Option.ite_none_right_eq_some.mp taken
 cases same
 obtain ⟨table, mail⟩ := consistent
 have kept : ∀ i, ((if i < state.userCounter + 1 then
  { state.fds i with revents := revents i } else state.fds i).fd,
  (if i < state.userCounter + 1 then
   { state.fds i with revents := revents i } else state.fds i).events) =
  ((state.fds i).fd, (state.fds i).events) := by
  intro i
  split <;> rfl
 have fds : ∀ i, (if i < state.userCounter + 1 then
  { state.fds i with revents := revents i } else state.fds i).fd = (state.fds i).fd :=
  fun i => congrArg fst (kept i)
 have events : ∀ i, (if i < state.userCounter + 1 then
  { state.fds i with revents := revents i } else state.fds i).events =
   (state.fds i).events := fun i => congrArg snd (kept i)
 constructor
 · refine table.congr rfl fds ?_ fun i => ?_
   · simp only [Nat.succ_pos, if_true]
     have first := reported 0 (Nat.succ_pos _)
     obtain ⟨-, asked, -, -⟩ := table.server
     rw [asked] at first
     refine ⟨asked, Bool.eq_false_iff.mpr fun bit => ?_, Bool.eq_false_iff.mpr fun bit => ?_⟩
     · have wrong : has (BitVec.twoPow 16 13) (pollIn ||| pollErr) = true :=
        has_of_reported (by decide) first (by decide) bit
       exact absurd wrong (by decide)
     · have wrong : has (BitVec.twoPow 16 2) (pollIn ||| pollErr) = true :=
        has_of_reported (by decide) first (by decide) bit
       exact absurd wrong (by decide)
   · rw [events]
     by_cases inside : i < state.userCounter + 1
     · simp only [if_pos inside]
       intro bit
       have asked : has (BitVec.twoPow 16 2) (state.fds i).events = true :=
        has_of_reported (by decide) (reported i inside) (by decide) bit
       exact asked
     · simp only [if_neg inside]
       exact table.asked i
 · constructor
   · simp only [fds, events]
     exact mail.own
   · intro client
     obtain ⟨numbers, served, awaits⟩ := mail.served client
     refine ⟨numbers, ⟨served.increasing, served.carried⟩, ?_⟩
     simp only [fds, events]
     exact awaits

variable {i : ℕ}

theorem used_accept (used : 1 ≤ i ∧ i ≤ state.userCounter + 1) :
 i = state.userCounter + 1 ∨ i ≠ state.userCounter + 1 ∧ state.Used i := by
 by_cases last : i = state.userCounter + 1
 · exact .inl last
 · exact .inr ⟨last, used.1, by omega⟩

theorem Table.fd_ne_of_fresh (table : state.Table) (fresh : state.client fd = none) (i : ℕ)
 (used : state.Used i) : (state.fds i).fd ≠ fd := by
 intro same
 obtain ⟨client, owner⟩ := table.owned i used
 rw [same, fresh] at owner
 cases owner

theorem Table.accept (table : state.Table) (room : ¬userLimin ≤ state.userCounter)
 (apart : fd ≠ state.servSock) (fresh : state.client fd = none) : (state.accept fd).Table := by
 have other := table.fd_ne_of_fresh fresh
 rw [State.accept, if_neg room]
 constructor
 · exact Nat.not_le.mp room
 · have first : update state.fds (state.userCounter + 1)
    ⟨fd, pollIn ||| pollRdhup ||| pollErr, 0⟩ 0 = state.fds 0 :=
    update_of_ne (Nat.succ_ne_zero _).symm _ _
   simp only [State.next, first]
   exact table.server
 · intro i j usedI usedJ same
   change (update state.fds (state.userCounter + 1) _ i).fd =
    (update state.fds (state.userCounter + 1) _ j).fd at same
   rcases used_accept usedI with rfl | ⟨oldI, usedI⟩ <;>
    rcases used_accept usedJ with rfl | ⟨oldJ, usedJ⟩
   · rfl
   · grind
   · simp_all
   · rw [update_of_ne oldI, update_of_ne oldJ] at same
     exact table.distinct i j usedI usedJ same
 · intro i used
   change ∃ client, update state.client fd (some state.clients)
    (update state.fds (state.userCounter + 1) _ i).fd = some client
   rcases used_accept used with rfl | ⟨old, used⟩
   · simp
   · rw [update_of_ne old, update_of_ne (other i used)]
     exact table.owned i used
 · exact (update_of_ne apart.symm _ _).trans table.listening
 · intro some_fd client owner
   change update state.client fd _ some_fd = _ at owner
   by_cases me : some_fd = fd
   · simp_all
   · rw [update_of_ne me] at owner
     exact Nat.lt_succ_of_lt (table.numbered _ _ owner)
 · intro one two client first second
   change update state.client fd _ one = _ at first
   change update state.client fd _ two = _ at second
   by_cases meOne : one = fd <;> by_cases meTwo : two = fd
   · rw [meOne, meTwo]
   · rw [meOne, update_self] at first
     rw [update_of_ne meTwo] at second
     cases first
     exact absurd (table.numbered _ _ second) (Nat.lt_irrefl _)
   · rw [meTwo, update_self] at second
     rw [update_of_ne meOne] at first
     cases second
     exact absurd (table.numbered _ _ first) (Nat.lt_irrefl _)
   · rw [update_of_ne meOne] at first
     rw [update_of_ne meTwo] at second
     exact table.unique _ _ _ first second
 · intro i
   change has pollOut (update state.fds (state.userCounter + 1) _ i).revents = true →
    has pollOut (update state.fds (state.userCounter + 1) _ i).events = true
   by_cases last : i = state.userCounter + 1
   · rw [last, update_self]
     have silent : has pollOut 0 = false := by decide
     simp_all
   · rw [update_of_ne last]
     exact table.asked i

theorem Mail.accept (mail : state.Mail) (table : state.Table)
 (room : ¬userLimin ≤ state.userCounter) (fresh : state.client fd = none) :
 (state.accept fd).Mail := by
 have other := table.fd_ne_of_fresh fresh
 rw [State.accept, if_neg room]
 have unasked : has pollOut (pollIn ||| pollRdhup ||| pollErr) ≠ true := by decide
 constructor
 · intro i used asked
   change has pollOut (update state.fds (state.userCounter + 1) _ i).events = _
    at asked
   rcases used_accept used with rfl | ⟨old, used⟩
   · simp_all
   · rw [update_of_ne old] at asked
     change (state.users (update state.fds (state.userCounter + 1) _ i).fd).writeBuf ≠
      some (update state.fds (state.userCounter + 1) _ i).fd
     rw [update_of_ne old]
     exact mail.own i used asked
 · intro client
   obtain ⟨numbers, served, awaits⟩ := mail.served client
   refine ⟨numbers, ⟨served.increasing, served.carried⟩, ?_⟩
   intro i pointer used
   change update state.client fd _
    (update state.fds (state.userCounter + 1) _ i).fd = _ →
    has pollOut (update state.fds (state.userCounter + 1) _ i).events = _ →
    (state.users (update state.fds (state.userCounter + 1) _ i).fd).writeBuf = _ →
    state.Awaits client numbers pointer
   rcases used_accept used with rfl | ⟨old, used⟩
   · simp_all
   · grind

theorem Consistent.accept (consistent : state.Consistent) (apart : fd ≠ state.servSock)
 (fresh : state.client fd = none) : (state.accept fd).Consistent := by
 by_cases full : userLimin ≤ state.userCounter
 · rw [State.accept, if_pos full]
   exact consistent.next
 · exact ⟨consistent.table.accept full apart fresh,
    consistent.mail.accept consistent.table full fresh⟩

theorem used_leave (mine : state.Used state.i) (used : state.leave.Used i) :
 ∃ place, state.Used place ∧ place ≠ state.i ∧ state.leave.fds i = state.fds place ∧
  place = if i = state.i then state.userCounter else i := by
 have last : state.Used state.userCounter := ⟨Nat.le_trans mine.1 mine.2, Nat.le_refl _⟩
 have small : i < state.userCounter := by
  have bound : i ≤ state.userCounter - 1 := used.2
  have positive := last.1
  omega
 by_cases me : i = state.i
 · refine ⟨state.userCounter, last, by omega, ?_, (if_pos me).symm⟩
   rw [me]
   exact update_self _ _ _
 · refine ⟨i, ⟨used.1, Nat.le_of_lt small⟩, me, ?_, (if_neg me).symm⟩
   exact update_of_ne me _ _

theorem users_leave (other : fd ≠ (state.fds state.i).fd) : state.leave.users fd = state.users fd :=
 update_of_ne other _ _

theorem client_leave (other : fd ≠ (state.fds state.i).fd) :
 state.leave.client fd = state.client fd :=
 update_of_ne other _ _

theorem client_of_leave {owner : ℕ} (same : state.leave.client fd = some owner) :
 state.client fd = some owner := by
 by_cases me : fd = (state.fds state.i).fd
 · rw [me] at same
   cases (update_self _ _ _ : state.leave.client _ = none).symm.trans same
 · rw [← client_leave me]
   exact same

theorem Table.fd_ne (table : state.Table) {j : ℕ} (mine : state.Used i) (used : state.Used j)
 (other : j ≠ i) : (state.fds j).fd ≠ (state.fds i).fd :=
 fun same => other (table.distinct j i used mine same)

theorem Table.leave (table : state.Table) (mine : state.Used state.i) : state.leave.Table := by
 refine ⟨Nat.le_trans (Nat.sub_le _ _) table.limit, ?_, ?_, ?_, ?_,
  fun _ _ same => table.numbered _ _ (client_of_leave same),
  fun one two owner first second =>
   table.unique one two owner (client_of_leave first) (client_of_leave second), ?_⟩
 · have first : state.leave.fds 0 = state.fds 0 :=
    update_of_ne (Nat.ne_of_lt mine.1) _ _
   rw [first]
   exact table.server
 · intro i j usedI usedJ same
   obtain ⟨fromI, oldI, -, sameI, placeI⟩ := used_leave mine usedI
   obtain ⟨fromJ, oldJ, -, sameJ, placeJ⟩ := used_leave mine usedJ
   rw [sameI, sameJ] at same
   have equal := table.distinct fromI fromJ oldI oldJ same
   have boundI : i ≤ state.userCounter - 1 := usedI.2
   have boundJ : j ≤ state.userCounter - 1 := usedJ.2
   have positive := mine.1
   grind
 · intro i used
   obtain ⟨place, old, other, same, -⟩ := used_leave mine used
   rw [same, client_leave (table.fd_ne mine old other)]
   exact table.owned place old
 · by_cases me : state.servSock = (state.fds state.i).fd
   · obtain ⟨owner, same⟩ := table.owned state.i mine
     rw [← me, table.listening] at same
     cases same
   · exact (client_leave me).trans table.listening
 · intro i
   by_cases me : i = state.i
   · have there : state.leave.fds i = state.fds state.userCounter := by
      rw [me]
      exact update_self _ _ _
     rw [there]
     exact table.asked _
   · have there : state.leave.fds i = state.fds i := update_of_ne me _ _
     rw [there]
     exact table.asked i

theorem Mail.leave (mail : state.Mail) (table : state.Table) (mine : state.Used state.i)
 (alone : state.Unawaited) : state.leave.Mail := by
 constructor
 · intro i used
   obtain ⟨place, old, other, same, -⟩ := used_leave mine used
   rw [same, users_leave (table.fd_ne mine old other)]
   exact mail.own place old
 · intro owner
   obtain ⟨numbers, served, awaits⟩ := mail.served owner
   refine ⟨numbers, ⟨served.increasing, served.carried⟩, ?_⟩
   intro i pointer used
   obtain ⟨place, old, other, same, -⟩ := used_leave mine used
   rw [same, users_leave (table.fd_ne mine old other), client_leave (table.fd_ne mine old other)]
   intro owned asked waiting
   have kept : state.leave.users pointer = state.users pointer := by
    by_cases gone : pointer = (state.fds state.i).fd
    · rcases alone with final | others
      · rw [gone]
        change update state.users _
         (state.users (state.fds state.userCounter).fd) _ = _
        rw [← final, update_self]
      · rw [gone] at waiting
        exact absurd waiting (others place (Nat.lt_succ_of_le old.2) old.1 other asked)
    · exact users_leave gone
   exact (awaits place pointer old owned asked waiting).congr
    (congrArg ClientData.buf kept) rfl

theorem Consistent.leave (consistent : state.Consistent) (mine : state.Used state.i)
 (alone : state.Unawaited) : state.leave.Consistent :=
 ⟨consistent.table.leave mine, consistent.mail.leave consistent.table mine alone⟩

theorem lt_of_carried {messages : List Message} {number : ℕ} {texts : List (List UInt8)}
 (carried : List.Forall₂ (Carries messages client) numbers texts) (inside : number ∈ numbers) :
 number < messages.length := by
 induction carried with
 | nil => cases inside
 | cons first rest ih =>
  rcases mem_cons.mp inside with rfl | later
  · obtain ⟨message, there, -⟩ := first
    exact (List.getElem?_eq_some_iff.mp there).1
  · exact ih later

theorem Consistent.fill {buf : Buffer} {messages : List Message} (consistent : state.Consistent)
 (users : after.users = update state.users fd { state.users fd with buf := buf })
 (recorded : after.messages = state.messages ++ messages)
 (same : (after.servSock, after.fds, after.userCounter, after.client, after.clients,
  after.sent) = (state.servSock, state.fds, state.userCounter, state.client, state.clients,
   state.sent))
 (filled : ∀ i client, state.Used i → (state.fds i).fd ≠ fd →
  state.client (state.fds i).fd = some client → cstr buf 0 = [] ∨
   Carries (state.messages ++ messages) client state.messages.length (cstr buf 0)) :
 after.Table ∧ after.Ready fd := by
 obtain ⟨table, mail⟩ := consistent
 simp only [Prod.mk.injEq] at same
 obtain ⟨sameSock, sameFds, sameCounter, sameClient, sameClients, sameSent⟩ := same
 have usedIff := used_iff sameCounter
 have writeBuf : ∀ other, (after.users other).writeBuf = (state.users other).writeBuf := by
  intro other
  rw [users]
  by_cases me : other = fd
  · rw [me, update_self]
  · rw [update_of_ne me]
 have carries : ∀ client number bytes, Carries state.messages client number bytes →
  Carries after.messages client number bytes := by
  rintro client number bytes ⟨message, there, rest⟩
  refine ⟨message, ?_, rest⟩
  rw [recorded]
  exact List.getElem?_append_left (List.getElem?_eq_some_iff.mp there).1 ▸ there
 constructor
 · refine table.congr (by simp_all)
    (fun i => by rw [sameFds]) ?_ ?_
   · rw [sameFds]
     exact table.server.2
   · rw [sameFds]
     exact table.asked
 · constructor
   · simp only [usedIff, sameFds, writeBuf]
     exact mail.own
   · intro client
     obtain ⟨numbers, served, awaits⟩ := mail.served client
     refine ⟨numbers, ⟨served.increasing, ?_⟩, ?_⟩
     · have sameSentTo : after.sentTo client = state.sentTo client := by
        unfold sentTo
        rw [sameSent]
       rw [sameSentTo]
       exact served.carried.imp fun number bytes => carries client number bytes
     · intro i pointer used
       rw [sameFds, sameClient, writeBuf]
       intro owner waiting
       rw [usedIff] at used
       unfold Awaits
       by_cases me : pointer = fd
       · have other : (state.fds i).fd ≠ fd := by
          rcases waiting with ⟨asked, set⟩ | ⟨apart, -⟩
          · intro mine
            refine mail.own i used asked ?_
            rw [set, me, mine]
          · exact apart
         rw [users, recorded, me, update_self]
         refine (filled i client used other owner).imp_right fun carried => ?_
         exact ⟨state.messages.length, fun earlier inside =>
          lt_of_carried served.carried inside, carried⟩
       · have kept : after.users pointer = state.users pointer := by
          rw [users]
          exact update_of_ne me _ _
         obtain ⟨asked, set⟩ := waiting.resolve_right fun both => me both.2
         rw [kept]
         exact (awaits i pointer used owner asked set).imp_right
          fun ⟨number, later, carried⟩ => ⟨number, later, carries _ _ _ carried⟩

/-! ### Messages -/

/-- What the broadcast over some places of the table does. -/
structure Broadcasted (connfd : ℤ) (places : List ℕ) (state after : State) : Prop where
 fd : ∀ i, (after.fds i).fd = (state.fds i).fd
 kept : ∀ i, i ∉ places ∨ (state.fds i).fd = connfd → after.fds i = state.fds i
 asked : ∀ i, after.fds i = state.fds i ∨ has pollOut (after.fds i).events = true
 buf : ∀ fd, (after.users fd).buf = (state.users fd).buf
 writeBuf : ∀ i ∈ places, (state.fds i).fd ≠ connfd →
  (after.users (state.fds i).fd).writeBuf = some connfd
 others : ∀ fd, (after.users fd).writeBuf = some connfd ∧ fd ≠ connfd ∨
  (after.users fd).writeBuf = (state.users fd).writeBuf
 rest : (after.servSock, after.userCounter, after.i, after.client, after.clients,
  after.messages, after.sent) = (state.servSock, state.userCounter, state.i, state.client,
   state.clients, state.messages, state.sent)

theorem writeTo_broadcasted (place : ℕ) :
 Broadcasted connfd [place] state (writeTo connfd state place) := by
 unfold State.writeTo
 dsimp only
 split
 · rename_i mine
   refine ⟨fun _ => rfl, fun _ _ => rfl, fun _ => .inl rfl, fun _ => rfl, ?_,
    fun _ => .inr rfl, rfl⟩
   simp_all
 · rename_i other
   refine ⟨fun i => ?_, fun i away => ?_, fun i => ?_, fun fd => ?_, fun i inside _ => ?_,
    fun fd => ?_, rfl⟩
   · by_cases me : i = place
     · simp only [me, update_self]
     · simp only [update_of_ne me]
   · have apart : i ≠ place := by
      rintro rfl
      exact away.elim (fun outside => outside mem_cons_self) other
     exact update_of_ne apart _ _
   · by_cases me : i = place
     · simp only [me, update_self]
       exact .inr (has_pollOut_or _)
     · exact .inl (update_of_ne me _ _)
   · by_cases me : fd = (state.fds place).fd
     · simp only [me, update_self]
     · simp only [update_of_ne me]
   · simp_all
   · by_cases me : fd = (state.fds place).fd
     · simp_all
     · simp_all

theorem Broadcasted.trans {places more : List ℕ} {middle : State}
 (first : Broadcasted connfd places state middle)
 (second : Broadcasted connfd more middle after) :
 Broadcasted connfd (places ++ more) state after := by
 refine ⟨fun i => (second.fd i).trans (first.fd i), fun i away => ?_, fun i => ?_,
  fun fd => (second.buf fd).trans (first.buf fd), fun i inside other => ?_, fun fd => ?_,
  second.rest.trans first.rest⟩
 · have early : i ∉ places ∨ (state.fds i).fd = connfd :=
    away.imp_left fun outside inside => outside (mem_append_left _ inside)
   have late : i ∉ more ∨ (middle.fds i).fd = connfd :=
    away.imp (fun outside inside => outside (mem_append_right _ inside))
     (first.fd i).trans
   exact (second.kept i late).trans (first.kept i early)
 · rcases second.asked i with same | asked
   · rw [same]
     exact first.asked i
   · exact .inr asked
 · rcases second.others (state.fds i).fd with ⟨set, -⟩ | same
   · exact set
   · rcases mem_append.mp inside with early | late
     · exact same.trans (first.writeBuf i early other)
     · rw [← first.fd i] at other ⊢
       exact second.writeBuf i late other
 · rcases second.others fd with set | same
   · exact .inl set
   · rw [same]
     exact first.others fd

theorem foldl_broadcasted (places : List ℕ) :
 Broadcasted connfd places state (places.foldl (writeTo connfd) state) := by
 induction places generalizing state with
 | nil =>
  exact ⟨fun _ => rfl, fun _ _ => rfl, fun _ => .inl rfl, fun _ => rfl,
   fun _ inside => absurd inside not_mem_nil, fun _ => .inr rfl, rfl⟩
 | cons place places ih => exact (writeTo_broadcasted place).trans ih

theorem Table.broadcast (table : state.Table) (ready : state.Ready connfd) :
 (state.broadcast connfd).Consistent := by
 have done : Broadcasted connfd (range' 1 state.userCounter) state
  (state.broadcast connfd) := foldl_broadcasted _
 have inside : ∀ i, i ∈ range' 1 state.userCounter ↔ state.Used i := by
  intro i
  rw [mem_range'_1]
  exact and_congr_right fun _ => by omega
 generalize state.broadcast connfd = after at done
 have rest := done.rest
 simp only [Prod.mk.injEq] at rest
 obtain ⟨sameSock, sameCounter, -, sameClient, sameClients, sameMessages, sameSent⟩ := rest
 have usedIff := used_iff sameCounter
 constructor
 · refine table.congr (by simp_all) done.fd ?_
    fun i reported => ?_
   · have outside : 0 ∉ range' 1 state.userCounter := fun member =>
      absurd ((inside 0).mp member).1 (by decide)
     rw [done.kept 0 (.inl outside)]
     exact table.server.2
   · rcases done.asked i with same | asked
     · rw [same] at reported ⊢
       exact table.asked i reported
     · exact asked
 · constructor
   · intro i used asked
     rw [usedIff] at used
     rw [done.fd]
     by_cases me : (state.fds i).fd = connfd
     · rw [done.kept i (.inr me)] at asked
       rcases done.others (state.fds i).fd with ⟨-, other⟩ | same
       · exact absurd me other
       · rw [same]
         exact ready.own i used asked
     · rw [done.writeBuf i ((inside i).mpr used) me]
       grind
   · intro client
     obtain ⟨numbers, served, awaits⟩ := ready.served client
     have sameSentTo : after.sentTo client = state.sentTo client := by
      unfold sentTo
      rw [sameSent]
     refine ⟨numbers, served.congr sameMessages sameSentTo, ?_⟩
     intro i pointer used
     rw [usedIff] at used
     rw [done.fd, sameClient]
     intro owner asked waiting
     refine Awaits.congr ?_ (done.buf pointer) sameMessages
     by_cases me : (state.fds i).fd = connfd
     · rw [done.kept i (.inr me)] at asked
       rcases done.others (state.fds i).fd with ⟨-, other⟩ | same
       · exact absurd me other
       · grind
     · rw [done.writeBuf i ((inside i).mpr used) me] at waiting
       grind

theorem setBuf_writeBuf (fd other : ℤ) (buf : Buffer) :
 ((state.setBuf fd buf).users other).writeBuf = (state.users other).writeBuf := by
 unfold setBuf
 by_cases me : other = fd
 · simp only [me, update_self]
 · simp only [update_of_ne me]

theorem cstr_zeros (length : ℕ) : cstr (zeros length) 0 = [] := by
 cases length with
 | zero => rfl
 | succ length => rfl

theorem cstr_append_zeros (bytes : List UInt8) (length : ℕ) :
 cstr (bytes ++ zeros length) 0 = cstr bytes 0 := by
 induction bytes with
 | nil => exact cstr_zeros length
 | cons byte bytes ih =>
  unfold cstr at ih ⊢
  rw [drop_zero, drop_zero] at ih ⊢
  rw [cons_append, takeWhile_cons, takeWhile_cons, ih]

theorem Consistent.clear (consistent : state.Consistent) (fd : ℤ) (length : ℕ) :
 (state.setBuf fd (zeros length)).Consistent := by
 obtain ⟨table, ready⟩ : (state.setBuf fd (zeros length)).Table ∧
  (state.setBuf fd (zeros length)).Ready fd :=
  consistent.fill rfl (append_nil _).symm rfl fun _ _ _ _ _ => .inl (cstr_zeros length)
 exact ⟨table, ready.mail⟩

variable {bytes : List UInt8}

theorem Consistent.receive (consistent : state.Consistent) (mine : state.Used state.i)
 (plain : cstr bytes 0 = bytes ∨ cstr bytes 0 = []) :
 (state.receive bytes).Consistent := by
 unfold State.receive
 dsimp only
 cases bytes with
 | nil => exact (consistent.clear _ _).next
 | cons byte bytes =>
  obtain ⟨sender, owner⟩ := consistent.table.owned state.i mine
  generalize filled : state.setBuf (state.fds state.i).fd
   (byte :: bytes ++ zeros (bufferSize - (byte :: bytes).length)) = middle
  have recorded : middle.record (state.fds state.i).fd (byte :: bytes) =
   { middle with
    messages := state.messages ++ [⟨sender, byte :: bytes, state.connected⟩] } := by
   subst filled
   unfold record
   rw [show (state.setBuf _ _).client _ = some sender from owner]
   rfl
  have users : (middle.record (state.fds state.i).fd (byte :: bytes)).users =
   update state.users (state.fds state.i).fd
    { state.users (state.fds state.i).fd with
     buf := byte :: bytes ++ zeros (bufferSize - (byte :: bytes).length) } := by
   rw [recorded, ← filled]
   rfl
  have messages : (middle.record (state.fds state.i).fd (byte :: bytes)).messages =
   state.messages ++ [⟨sender, byte :: bytes, state.connected⟩] := by
   rw [recorded]
  obtain ⟨table, ready⟩ := consistent.fill users messages (by rw [recorded, ← filled]; rfl)
   fun i client used other theirs => by
   rw [cstr_append_zeros]
   refine plain.symm.imp_right fun whole => ?_
   refine ⟨⟨sender, byte :: bytes, state.connected⟩, getElem?_concat_length,
    whole.symm, ?_, ?_⟩
   · rintro rfl
     exact other (consistent.table.unique _ _ _ theirs owner)
   · refine mem_filterMap.mpr ⟨i, ?_, theirs⟩
     rw [mem_range'_1]
     exact ⟨used.1, by have bound := used.2; omega⟩
  exact (table.broadcast ready).next

theorem deliver_nil : (state.deliver fd []).sent = state.sent := by
 unfold deliver
 split
 · contradiction
 · rfl

theorem deliver_cons {receiver : ℕ} {byte : UInt8} (owner : state.client fd = some receiver) :
 (state.deliver fd (byte :: bytes)).sent =
  state.sent ++ [(receiver, byte :: bytes)] := by
 simp only [deliver, owner]

theorem sentTo_snoc {receiver : ℕ} (sent : after.sent = state.sent ++ [(receiver, bytes)]) :
 after.sentTo client =
  if receiver = client then state.sentTo client ++ [bytes] else state.sentTo client := by
 unfold sentTo
 rw [sent, filter_append, map_append]
 by_cases me : receiver = client
 · simp_all
 · simp_all

theorem Consistent.sendTo {text : List UInt8} {flags : BitVec 16} (consistent : state.Consistent)
 (mine : state.Used i) (asked : has pollOut (state.fds i).events = true)
 (waiting : (state.users (state.fds i).fd).writeBuf = some pointer)
 (whole : text = [] ∨ text = cstr (state.users pointer).buf 0)
 (users : after.users = update state.users (state.fds i).fd
  { state.users (state.fds i).fd with writeBuf := none })
 (fds : after.fds = update state.fds i { state.fds i with events := flags })
 (still : has pollOut flags = true)
 (sent : after.sent = (state.deliver (state.fds i).fd text).sent)
 (same : (after.servSock, after.userCounter, after.client, after.clients, after.messages) =
  (state.servSock, state.userCounter, state.client, state.clients, state.messages)) :
 after.Consistent := by
 obtain ⟨table, mail⟩ := consistent
 obtain ⟨receiver, owner⟩ := table.owned i mine
 simp only [Prod.mk.injEq] at same
 obtain ⟨sameSock, sameCounter, sameClient, sameClients, sameMessages⟩ := same
 have usedIff := used_iff sameCounter
 have others : ∀ j, j ≠ i → after.fds j = state.fds j := by
  intro j other
  rw [fds]
  exact update_of_ne other _ _
 have sameFd : ∀ j, (after.fds j).fd = (state.fds j).fd := by
  intro j
  rw [fds]
  by_cases me : j = i
  · rw [me, update_self]
  · rw [update_of_ne me]
 have apart : ∀ j, state.Used j → j ≠ i → (state.fds j).fd ≠ (state.fds i).fd :=
  fun j used other => table.fd_ne mine used other
 have kept : ∀ j, state.Used j → j ≠ i →
  after.users (state.fds j).fd = state.users (state.fds j).fd := by
  intro j used other
  rw [users]
  exact update_of_ne (apart j used other) _ _
 have gone : (after.users (state.fds i).fd).writeBuf = none := by
  rw [users, update_self]
 have buf : ∀ fd, (after.users fd).buf = (state.users fd).buf := by
  intro fd
  rw [users]
  by_cases me : fd = (state.fds i).fd
  · rw [me, update_self]
  · rw [update_of_ne me]
 have later : ∀ client numbers, (∀ j pointer, state.Used j →
  state.client (state.fds j).fd = some client → has pollOut (state.fds j).events = true →
  (state.users (state.fds j).fd).writeBuf = some pointer →
  state.Awaits client numbers pointer) → ∀ j pointer, after.Used j →
  after.client (after.fds j).fd = some client → has pollOut (after.fds j).events = true →
  (after.users (after.fds j).fd).writeBuf = some pointer →
  j ≠ i ∧ after.Awaits client numbers pointer := by
  intro client numbers awaits j pointer used
  rw [usedIff] at used
  rw [sameFd, sameClient]
  intro theirs requested set
  have other : j ≠ i := by
   rintro rfl
   cases gone.symm.trans set
  rw [others j other] at requested
  rw [kept j used other] at set
  exact ⟨other, (awaits j pointer used theirs requested set).congr (buf pointer) sameMessages⟩
 constructor
 · refine table.congr (by grind) sameFd ?_
    fun j => ?_
   · rw [others 0 (Nat.ne_of_lt mine.1)]
     exact table.server.2
   · by_cases me : j = i
     · rw [fds, me, update_self]
       exact fun _ => still
     · rw [others j me]
       exact table.asked j
 · constructor
   · intro j used requested
     rw [usedIff] at used
     rw [sameFd]
     by_cases me : j = i
     · rw [me, gone]
       nofun
     · rw [others j me] at requested
       rw [kept j used me]
       exact mail.own j used requested
   · intro client
     obtain ⟨numbers, served, awaits⟩ := mail.served client
     cases said : text with
     | nil =>
      have nothing : after.sent = state.sent := by
       rw [sent, said, deliver_nil]
      refine ⟨numbers, served.congr sameMessages (by unfold sentTo; rw [nothing]), ?_⟩
      exact fun j pointer used theirs requested set =>
       (later client numbers awaits j pointer used theirs requested set).2
     | cons byte bytes =>
      have more : after.sent = state.sent ++ [(receiver, text)] := by
       rw [sent, said, deliver_cons owner]
      by_cases me : receiver = client
      · subst me
        have wanted := whole.resolve_left (by rw [said]; exact cons_ne_nil _ _)
        rcases awaits i pointer mine owner asked waiting with none | ⟨number, after_, carried⟩
        · simp_all
        · refine ⟨numbers ++ [number], ⟨?_, ?_⟩, ?_⟩
          · refine pairwise_append.mpr ⟨served.increasing, pairwise_singleton _ _, ?_⟩
            grind
          · rw [sentTo_snoc more, if_pos rfl, sameMessages]
            rw [← wanted] at carried
            exact rel_append served.carried (.cons carried .nil)
          · intro j pointer used theirs requested set
            have other := (later receiver numbers awaits j pointer used theirs requested set).1
            rw [sameFd, sameClient] at theirs
            rw [usedIff] at used
            exact absurd (table.unique _ _ _ theirs owner) (apart j used other)
      · refine ⟨numbers, served.congr sameMessages (by rw [sentTo_snoc more, if_neg me]), ?_⟩
        exact fun j pointer used theirs requested set =>
         (later client numbers awaits j pointer used theirs requested set).2

theorem Consistent.send {count : ℕ} (consistent : state.Consistent) (mine : state.Used state.i)
 (reported : has pollOut (state.fds state.i).revents = true)
 (waiting : (state.users (state.fds state.i).fd).writeBuf = some pointer)
 (whole : count = 0 ∨ (cstr (state.users pointer).buf 0).length ≤ count) :
 (state.send pointer count).Consistent := by
 have asked := consistent.table.asked state.i reported
 have still : has pollOut ((state.fds state.i).events ||| ~~~pollOut ||| pollIn) = true := by
  change has (BitVec.twoPow 16 2) _ = true at asked ⊢
  rw [has_twoPow _ (by decide)] at asked ⊢
  rw [BitVec.getLsbD_or, BitVec.getLsbD_or, asked]
  rfl
 have sent : ((cstr (state.users pointer).buf 0).take count) = [] ∨
  (cstr (state.users pointer).buf 0).take count = cstr (state.users pointer).buf 0 :=
  whole.imp (fun none => by rw [none, take_zero]) take_of_length_le
 have deliverSame : ∀ fd bytes, ((state.deliver fd bytes).servSock,
  (state.deliver fd bytes).userCounter, (state.deliver fd bytes).client,
  (state.deliver fd bytes).clients, (state.deliver fd bytes).messages) =
   (state.servSock, state.userCounter, state.client, state.clients, state.messages) := by
  intro fd bytes
  unfold deliver
  split <;> rfl
 exact consistent.sendTo mine asked waiting sent rfl rfl still rfl (deliverSame _ _)

theorem Table.used (table : state.Table) (bound : state.i ≤ state.userCounter)
 (client : state.branch = .hangUp ∨ state.branch = .read ∨ state.branch = .write) :
 state.Used state.i := by
 refine ⟨Nat.one_le_iff_ne_zero.mpr fun first => ?_, bound⟩
 obtain ⟨same, -, noRdhup, noOut⟩ := table.server
 unfold branch at client
 rw [first] at client
 simp only [same, noRdhup, noOut, true_and, Bool.false_eq_true, if_false] at client
 split at client
 · simp only [reduceCtorEq, or_self] at client
 · split at client
   all_goals simp only [reduceCtorEq, or_self] at client

theorem reported_of_write (writes : state.branch = .write) :
 has pollOut (state.fds state.i).revents = true := by
 unfold branch at writes
 grind

theorem Consistent.turn (consistent : state.Consistent)
 (allowed : state.avoids (.turn reply)) (taken : state.turn reply = some after) :
 after.Consistent := by
 obtain ⟨inside, taken⟩ := Option.ite_none_left_eq_some.mp taken
 have bound := Nat.not_lt.mp inside
 change state.Permits state.branch reply at allowed
 cases here : state.branch with
 | accept =>
  rw [here] at taken
  cases reply with
  | accepted clntSock =>
   obtain ⟨⟨apart, fresh⟩, same⟩ := Option.ite_none_right_eq_some.mp taken
   cases same
   exact consistent.accept apart (Option.isNone_iff_eq_none.mp fresh)
  | nothing | received | again | failed | sent => cases taken
 | error | idle =>
  rw [here] at taken
  cases reply with
  | nothing =>
   cases taken
   exact consistent.next
  | accepted | received | again | failed | sent => cases taken
 | hangUp =>
  rw [here] at taken allowed
  cases reply with
  | nothing =>
   cases taken
   exact consistent.leave (consistent.table.used bound (.inl here)) allowed
  | accepted | received | again | failed | sent => cases taken
 | read =>
  have mine := consistent.table.used bound (.inr (.inl here))
  rw [here] at taken allowed
  cases reply with
  | received bytes =>
   obtain ⟨-, same⟩ := Option.ite_none_right_eq_some.mp taken
   cases same
   exact consistent.receive mine allowed
  | again =>
   cases taken
   exact (consistent.clear _ _).next
  | failed =>
   cases taken
   refine (consistent.clear _ _).leave mine (allowed.imp_right fun others i low used => ?_)
   rw [setBuf_writeBuf]
   exact others i low used
  | nothing | accepted | sent => cases taken
 | write =>
  have mine := consistent.table.used bound (.inr (.inr here))
  have reported := reported_of_write here
  rw [here] at taken allowed
  cases reply with
  | nothing =>
   obtain ⟨-, same⟩ := Option.ite_none_right_eq_some.mp taken
   cases same
   exact consistent.next
  | sent count =>
   dsimp only at taken
   split at taken
   · cases taken
   · rename_i pointer waiting
     obtain ⟨-, same⟩ := Option.ite_none_right_eq_some.mp taken
     cases same
     exact consistent.send mine reported waiting
      (allowed.imp_right fun all => all pointer waiting)
  | accepted | received | again | failed => cases taken

/-- Every client is sent whole messages that others sent while it was connected, none twice, in
a run that avoids what the records and the strings of the server cannot hold. -/
theorem chat_delivery (servSock : ℤ) (users : ℤ → ClientData) (events : List Event)
 (final : State) (run : Run (Guarded avoids (ofFunction step)) (start servSock users) events
  final) : final.Sound := by
 refine (run.invariant (start_consistent servSock users) fun state event next before taken => ?_
  : final.Consistent).sound
 cases event with
 | poll revents => exact before.poll taken.2
 | turn reply => exact before.turn taken.1 taken.2

def polls (revents : List (BitVec 16)) (replies : List Reply) : List Event :=
 .poll (fun i => revents.getD i 0) :: replies.map .turn

def connects : List Event :=
 polls [pollIn] [.accepted 4, .nothing] ++ polls [pollIn] [.accepted 5, .nothing, .nothing]

theorem chat_delivery_two : ∃ final : State, final.sent = [(1, ascii ['h', 'i'])] ∧
 final.Sound := by
 obtain ⟨final, same, sent⟩ : ∃ final : State,
  replay (restrict avoids step) (start 3 fun _ => ⟨none, zeros bufferSize⟩)
   (connects ++ polls [0, pollIn] [.nothing, .received (ascii ['h', 'i']), .nothing] ++
    polls [0, 0, pollOut] [.nothing, .nothing, .sent 2]) = some final ∧
   final.sent = [(1, ascii ['h', 'i'])] := ⟨_, rfl, rfl⟩
 exact ⟨final, sent, chat_delivery 3 _ _ final (Run.of_replay same)⟩

theorem not_sound {text : List UInt8} (sent : state.sent = [(client, text)])
 (foreign : ∀ message ∈ state.messages, message.bytes = text → message.sender = client) :
 ¬ state.Sound := by
 intro sound
 obtain ⟨numbers, -, carried⟩ := sound.served client
 have sentTo : state.sentTo client = [text] := by
  have more : state.sent = (start 0 fun _ => ⟨none, []⟩).sent ++ [(client, text)] := sent
  rw [sentTo_snoc more, if_pos rfl]
  rfl
 rw [sentTo] at carried
 cases carried with
 | cons first rest =>
  obtain ⟨message, there, same, other, -⟩ := first
  grind

/-- A client that leaves takes the message of another with it, so that a client gets its own
message; a message ends at its NUL; `send` may take a part of a message. -/
theorem messages_garbled :
 (∃ events, ∃ final : State,
  Run (ofFunction step) (start 3 fun _ => ⟨none, zeros bufferSize⟩) events final ∧
   final.messages.map Message.bytes = [ascii ['y', 'o'], ascii ['h', 'i']] ∧
   final.sent = [(1, ascii ['y', 'o'])] ∧ ¬ final.Sound) ∧
 (∃ events, ∃ final : State,
  Run (ofFunction step) (start 3 fun _ => ⟨none, zeros bufferSize⟩) events final ∧
   final.messages.map Message.bytes = [[0x61, 0, 0x62]] ∧
   final.sent = [(1, [0x61])] ∧ ¬ final.Sound) ∧
 ∃ events, ∃ final : State,
  Run (ofFunction step) (start 3 fun _ => ⟨none, zeros bufferSize⟩) events final ∧
   final.messages.map Message.bytes = [ascii ['h', 'i']] ∧
   final.sent = [(1, ascii ['h'])] ∧ ¬ final.Sound := by
 refine ⟨?_, ?_, ?_⟩
 · obtain ⟨final, same, messages, sent⟩ : ∃ final : State,
    replay step (start 3 fun _ => ⟨none, zeros bufferSize⟩)
     (connects ++ polls [0, 0, pollIn] [.nothing, .nothing, .received (ascii ['y', 'o'])] ++
      polls [0, pollIn, 0] [.nothing, .received (ascii ['h', 'i']), .nothing] ++
      polls [0, pollRdhup, pollOut] [.nothing, .nothing, .sent 2]) = some final ∧
     final.messages = [⟨1, ascii ['y', 'o'], [0, 1]⟩, ⟨0, ascii ['h', 'i'], [0, 1]⟩] ∧
     final.sent = [(1, ascii ['y', 'o'])] := ⟨_, rfl, rfl, rfl⟩
   refine ⟨_, final, Run.of_replay_all same, by rw [messages]; rfl, sent, not_sound sent ?_⟩
   rw [messages]
   decide
 · obtain ⟨final, same, messages, sent⟩ : ∃ final : State,
    replay step (start 3 fun _ => ⟨none, zeros bufferSize⟩)
     (connects ++ polls [0, pollIn] [.nothing, .received [0x61, 0, 0x62], .nothing] ++
      polls [0, 0, pollOut] [.nothing, .nothing, .sent 1]) = some final ∧
     final.messages = [⟨0, [0x61, 0, 0x62], [0, 1]⟩] ∧
     final.sent = [(1, [0x61])] := ⟨_, rfl, rfl, rfl⟩
   refine ⟨_, final, Run.of_replay_all same, by rw [messages]; rfl, sent, not_sound sent ?_⟩
   rw [messages]
   decide
 · obtain ⟨final, same, messages, sent⟩ : ∃ final : State,
    replay step (start 3 fun _ => ⟨none, zeros bufferSize⟩)
     (connects ++ polls [0, pollIn] [.nothing, .received (ascii ['h', 'i']), .nothing] ++
      polls [0, 0, pollOut] [.nothing, .nothing, .sent 1]) = some final ∧
     final.messages = [⟨0, ascii ['h', 'i'], [0, 1]⟩] ∧
     final.sent = [(1, ascii ['h'])] := ⟨_, rfl, rfl, rfl⟩
   refine ⟨_, final, Run.of_replay_all same, by rw [messages]; rfl, sent, not_sound sent ?_⟩
   rw [messages]
   decide

end State

end MyNotes.Network.ChatServ
