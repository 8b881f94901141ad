/-
Runs of the TCP sender: its bookkeeping, and the right edge of its window.

The history of a sender records what the application wrote, the segments in the
order of their first transmission, every transmission with the right edge that
the peer had announced by then, and that edge.
-/

import MyNotes.Cs144.TcpSenderSteps
import MyNotes.Library.Transition

namespace MyNotes.Cs144.TCPSender

open Library.Transition List Bool

/-! ### The sending invariant -/

/-- A first transmission, compared with the bytes read from the input so far. -/
structure Faithful (isn : Wrap32) (read : List Byte) (sent : Transmission) : Prop where
 seqno : sent.message.seqno = Wrap32.wrap sent.position isn
 syn : sent.message.syn = true ↔ sent.position = 0
 start_le : sent.position - 1 ≤ read.length
 payload : sent.message.payload <+: read.drop (sent.position - 1)
 small : sent.message.payload.length ≤ maxPayloadSize
 finished : sent.message.fin = true → sent.inputFinished = true
 last : sent.message.fin = true →
  sent.position - 1 + sent.message.payload.length = read.length

/-- The segments of the queue lie end to end from `base` to `stop`, and each is a
first transmission. -/
inductive Queued (sent : List Transmission) : ℕ → List TCPSenderMessage → ℕ → Prop
 | nil (base : ℕ) : Queued sent base [] base
 | cons {first : Transmission} {rest : List TCPSenderMessage} {stop : ℕ}
  (member : first ∈ sent)
  (tail : Queued sent (first.position + first.message.sequenceLength) rest stop) :
  Queued sent first.position (first.message :: rest) stop

namespace Queued

variable {sent : List Transmission} {base stop : ℕ} {buffer : List TCPSenderMessage}

theorem total (queued : Queued sent base buffer stop) : base + totalLength buffer = stop := by
 induction queued with
 | nil base => rfl
 | cons member tail ih =>
  rw [totalLength_cons]
  omega

theorem snoc (queued : Queued sent base buffer stop) {last : Transmission}
 (position : last.position = stop) :
 Queued (sent ++ [last]) base (buffer ++ [last.message])
  (stop + last.message.sequenceLength) := by
 induction queued with
 | nil base =>
  subst position
  exact .cons (mem_append_right _ mem_cons_self) (.nil _)
 | cons member tail ih => exact .cons (mem_append_left _ member) (ih position)

theorem front {message : TCPSenderMessage} {rest : List TCPSenderMessage}
 (queued : Queued sent base (message :: rest) stop) :
 ∃ first ∈ sent, first.position = base ∧ first.message = message := by
 cases queued with
 | cons member tail => exact ⟨_, member, rfl, rfl⟩

theorem drop {dropped rest : List TCPSenderMessage}
 (queued : Queued sent base (dropped ++ rest) stop) :
 Queued sent (base + totalLength dropped) rest stop := by
 induction dropped generalizing base with
 | nil => exact queued
 | cons message dropped ih =>
  cases queued with
  | cons member tail =>
   have shorter := ih tail
   rw [totalLength_cons, ← Nat.add_assoc]
   exact shorter

end Queued

/-- What the sender has read, sent and queued, after any calls. -/
structure Sending (written read : List Byte) (sent : List Transmission)
 (state : TCPSender) : Prop where
 split : written = read ++ state.input.contents
 nextseqno : state.nextseqno = state.synFlag.toNat + read.length + state.finFlag.toNat
 notStarted : state.synFlag = false → read = [] ∧ state.finFlag = false
 started : state.synFlag = true ↔ sent ≠ []
 symbols : sent.flatMap (fun first => first.message.symbols) =
  (if state.synFlag then [.syn] else []) ++ read.map .byte ++
   (if state.finFlag then [.fin] else [])
 faithful : ∀ first ∈ sent, Faithful state.isn read first
 finSent : ∀ first ∈ sent, first.message.fin = true → state.finFlag = true
 queued : Queued sent state.sendBase state.buffer state.nextseqno
 outstanding : state.outstandingNum = totalLength state.buffer
 timer : state.timer.isRunning = true ↔ state.buffer ≠ []

theorem new_sending (input : ByteStream) (isn : Wrap32) (initialRtoMs : UInt64) :
 Sending input.contents [] [] (new input isn initialRtoMs) where
 split := rfl
 nextseqno := rfl
 notStarted := fun _ => ⟨rfl, rfl⟩
 started := by simp [new]
 symbols := rfl
 faithful := by intro first member; cases member
 finSent := by intro first member; cases member
 queued := .nil 0
 outstanding := rfl
 timer := by
  constructor
  · intro impossible; cases impossible
  · intro absurd; exact (absurd rfl).elim

namespace Sending

variable {written read : List Byte} {sent : List Transmission} {state : TCPSender}

theorem base_add (sending : Sending written read sent state) :
 state.sendBase + totalLength state.buffer = state.nextseqno :=
 sending.queued.total

theorem faithful_append {isn : Wrap32} {first : Transmission} (more : List Byte)
 (faithful : Faithful isn read first) (open_ended : first.message.fin = false) :
 Faithful isn (read ++ more) first where
 seqno := faithful.seqno
 syn := faithful.syn
 start_le := by
  rw [length_append]
  exact le_trans faithful.start_le (Nat.le_add_right _ _)
 payload := by
  rw [drop_append_of_le_length faithful.start_le]
  exact faithful.payload.trans (prefix_append _ _)
 small := faithful.small
 finished := faithful.finished
 last := by
  simp_all

theorem sends {new : TCPSender} {transmission : Transmission}
 (sending : Sending written read sent state) (may : state.mayPush = true)
 (round : Sends state new transmission) :
 Sending written (read ++ transmission.message.payload) (sent ++ [transmission]) new := by
 have notFin : state.finFlag = false := (state.mayPush_iff.mp may).2
 have next := sending.nextseqno
 rw [notFin] at next
 have syn := round.syn
 have length : transmission.message.sequenceLength = transmission.message.syn.toNat +
  transmission.message.payload.length + transmission.message.fin.toNat := rfl
 have index : transmission.position - 1 = read.length := by
  rw [round.position, next]
  cases flag : state.synFlag with
  | true => simp
  | false => simp [(sending.notStarted flag).1]
 refine ⟨?_, ?_, ?_, ?_, ?_, ?_, ?_, ?_, ?_, ?_⟩
 · rw [append_assoc, ← round.contents]
   exact sending.split
 · rw [round.nextseqno, round.synFlag, round.finFlag, length, syn, next, notFin,
    length_append]
   cases state.synFlag <;> simp <;> omega
 · intro impossible
   rw [round.synFlag] at impossible
   cases impossible
 · rw [round.synFlag]
   simp
 · rw [flatMap_append, sending.symbols, round.synFlag, round.finFlag, notFin,
    flatMap_singleton, TCPSenderMessage.symbols, syn, map_append]
   cases flag : state.synFlag with
   | true => simp
   | false => simp [(sending.notStarted flag).1]
 · intro first member
   rw [round.isn]
   rcases mem_append.mp member with earlier | latest
   · refine faithful_append _ (sending.faithful first earlier) ?_
     cases fin : first.message.fin with
     | false => rfl
     | true =>
      have already := sending.finSent first earlier fin
      rw [notFin] at already
      cases already
   · rw [mem_singleton.mp latest]
     refine ⟨by rw [round.seqno, round.position], ?_, ?_, ?_, ?_, ?_, ?_⟩
     · rw [syn, round.position, next]
       cases flag : state.synFlag with
       | true => simp
       | false => simp [(sending.notStarted flag).1]
     · simp_all
     · rw [index, drop_left]
     · rw [round.payload_length]
       omega
     · intro fin
       exact (round.fin fin).1
     · intro _
       rw [index, length_append]
 · intro first member fin
   rw [round.finFlag, notFin, Bool.false_or]
   rcases mem_append.mp member with earlier | latest
   · have already := sending.finSent first earlier fin
     rw [notFin] at already
     cases already
   · simp_all
 · rw [round.sendBase, round.buffer, round.nextseqno]
   exact sending.queued.snoc round.position
 · rw [round.outstandingNum, round.buffer, sending.outstanding]
   simp only [totalLength, map_append, map_cons, map_nil, sum_append,
    sum_cons, sum_nil, Nat.add_zero]
 · rw [round.running, round.buffer]
   simp

theorem breaks {new : TCPSender} (sending : Sending written read sent state)
 (broke : Breaks state new) : Sending written read sent new := by
 obtain ⟨input, rfl, contents, -⟩ := broke.input
 exact { sending with split := by rw [sending.split, ← contents] }

theorem push (helper : ReadHelper) (sending : Sending written read sent state) :
 ∃ more, Sending written (read ++ more) (sent ++ (state.push helper).2)
  (state.push helper).1 := by
 have start : ∃ more, Sending written (read ++ more) (sent ++ []) state :=
  ⟨[], by simpa using sending⟩
 refine push_rule
  (fun final earlier => ∃ more, Sending written (read ++ more) (sent ++ earlier) final)
  ?_ ?_ helper state [] start
 · rintro old new earlier transmission ⟨more, holds⟩ may round
   refine ⟨more ++ transmission.message.payload, ?_⟩
   rw [← append_assoc, ← append_assoc]
   exact holds.sends may round
 · rintro old new earlier ⟨more, holds⟩ broke
   exact ⟨more, holds.breaks broke⟩

variable (sending : Sending written read sent state)
include sending

theorem receive (msg : TCPReceiverMessage) : Sending written read sent (state.receive msg) := by
 obtain ⟨dropped, done⟩ := state.receive_spec msg
 have queued := sending.queued
 rw [done.buffer] at queued
 refine ⟨?_, ?_, ?_, ?_, ?_, ?_, ?_, ?_, ?_, ?_⟩
 · rw [done.contents]
   exact sending.split
 · rw [done.nextseqno, done.synFlag, done.finFlag]
   exact sending.nextseqno
 · rw [done.synFlag, done.finFlag]
   exact sending.notStarted
 · rw [done.synFlag]
   exact sending.started
 · rw [done.synFlag, done.finFlag]
   exact sending.symbols
 · rw [done.isn]
   exact sending.faithful
 · rw [done.finFlag]
   exact sending.finSent
 · rw [done.sendBase, done.nextseqno]
   exact queued.drop
 · rw [done.outstandingNum, sending.outstanding, done.buffer]
   simp only [totalLength, map_append, sum_append]
   omega
 · by_cases none : dropped = []
   · rw [done.kept none, sending.timer, done.buffer, none, nil_append]
   · rw [done.restarted none, not_eq_true', isEmpty_eq_false_iff]

theorem tick (msSinceLastTick : UInt64) :
 Sending written read sent (state.tick msSinceLastTick).1 := by
 obtain ⟨⟨timer, retransmissionsNum, after, running⟩, -⟩ := state.tick_spec msSinceLastTick
 rw [after]
 exact { sending with timer := by rw [running]; exact sending.timer }

theorem write (data : List Byte) :
 Sending (written ++ data.take (min state.input.availableCapacity data.length)) read sent
  { state with input := state.input.push data } :=
 { sending with
  split := by rw [ByteStream.push_contents, sending.split, append_assoc] }

end Sending

/-! ### Histories -/

inductive Event
 | write (data : List Byte)
 | close
 | setError
 | push
 | receive (msg : TCPReceiverMessage)
 | tick (msSinceLastTick : UInt64)

/-- A transmission and the right edge announced when it left. -/
structure Logged where
 transmission : Transmission
 edge : ℕ

structure History where
 sender : TCPSender
 written : List Byte
 sent : List Transmission
 log : List Logged
 edge : ℕ

/-- The largest right edge after `msg`: its ackno plus its window, a window of zero
counting as one. -/
def announce (self : TCPSender) (msg : TCPReceiverMessage) (edge : ℕ) : ℕ :=
 match msg.ackno with
 | none => edge
 | some ackno =>
  max edge (ackno.unwrap self.isn self.nextseqno + max msg.windowSize.toNat 1)

namespace History

def start (input : ByteStream) (isn : Wrap32) (initialRtoMs : UInt64) : History :=
 { sender := TCPSender.new input isn initialRtoMs
   written := input.contents
   sent := []
   log := []
   edge := 1 }

def logAll (edge : ℕ) (transmissions : List Transmission) : List Logged :=
 transmissions.map fun transmission => ⟨transmission, edge⟩

def step (helper : ReadHelper) (self : History) : Event → History
 | .write data =>
  { self with
   sender := { self.sender with input := self.sender.input.push data }
   written := self.written ++
    data.take (min self.sender.input.availableCapacity data.length) }
 | .close => { self with sender := { self.sender with input := self.sender.input.close } }
 | .setError =>
  { self with sender := { self.sender with input := self.sender.input.setError } }
 | .push =>
  let (sender, transmissions) := self.sender.push helper
  { self with
   sender := sender
   sent := self.sent ++ transmissions
   log := self.log ++ logAll self.edge transmissions }
 | .receive msg =>
  { self with
   sender := self.sender.receive msg
   edge := announce self.sender msg self.edge }
 | .tick msSinceLastTick =>
  let (sender, transmissions) := self.sender.tick msSinceLastTick
  { self with
   sender := sender
   log := self.log ++ logAll self.edge transmissions }

/-- A history is one in which the sending invariant holds for some split of what
was written. -/
def Holds (self : History) : Prop := ∃ read, Sending self.written read self.sent self.sender

theorem start_holds (input : ByteStream) (isn : Wrap32) (initialRtoMs : UInt64) :
 (start input isn initialRtoMs).Holds :=
 ⟨[], new_sending input isn initialRtoMs⟩

theorem Holds.step {self : History} (holds : self.Holds) (helper : ReadHelper)
 (event : Event) : (self.step helper event).Holds := by
 obtain ⟨read, sending⟩ := holds
 cases event with
 | write data => exact ⟨read, sending.write data⟩
 | close => exact ⟨read, { sending with }⟩
 | setError => exact ⟨read, { sending with }⟩
 | push =>
  obtain ⟨more, after⟩ := sending.push helper
  exact ⟨read ++ more, after⟩
 | receive msg => exact ⟨read, sending.receive msg⟩
 | tick msSinceLastTick => exact ⟨read, sending.tick msSinceLastTick⟩

end History

/-! ### Bookkeeping -/

/-- The buffered segments carry consecutive sequence numbers from `base` to `stop`. -/
def Consecutive (isn : Wrap32) (base : ℕ) (buffer : List TCPSenderMessage) (stop : ℕ) : Prop :=
 match buffer with
 | [] => base = stop
 | message :: rest =>
  message.seqno = Wrap32.wrap base isn ∧
   Consecutive isn (base + message.sequenceLength) rest stop

/-- The counters, the queue, the first transmissions and the timer agree. -/
structure Bookkeeping (history : History) : Prop where
 inFlight : history.sender.sendBase ≤ history.sender.nextseqno ∧
  history.sender.outstandingNum = history.sender.nextseqno - history.sender.sendBase
 total : history.sender.outstandingNum =
  (history.sender.buffer.map TCPSenderMessage.sequenceLength).sum
 consecutive : Consecutive history.sender.isn history.sender.sendBase history.sender.buffer
  history.sender.nextseqno
 symbols : ∃ read, history.written = read ++ history.sender.input.contents ∧
  ((history.sent = [] ∧ read = []) ∨
   ∃ last, (last = [] ∨ last = [.fin]) ∧
    history.sent.flatMap (fun first => first.message.symbols) =
     .syn :: read.map .byte ++ last)
 finished : ∀ first ∈ history.sent, first.message.fin = true → first.inputFinished = true
 payload : ∀ first ∈ history.sent, first.message.payload.length ≤ maxPayloadSize
 timer : history.sender.timer.isRunning = true ↔ history.sender.buffer ≠ []

theorem Queued.consecutive {isn : Wrap32} {sent : List Transmission} {base stop : ℕ}
 {buffer : List TCPSenderMessage} (queued : Queued sent base buffer stop)
 (seqno : ∀ first ∈ sent, first.message.seqno = Wrap32.wrap first.position isn) :
 Consecutive isn base buffer stop := by
 induction queued with
 | nil base => rfl
 | cons member tail ih => exact ⟨seqno _ member, ih⟩

variable {self : History}

theorem Sending.accounts {read : List Byte}
 (sending : Sending self.written read self.sent self.sender) : Bookkeeping self where
 inFlight := by
  have queue := sending.base_add
  have outstanding := sending.outstanding
  omega
 total := sending.outstanding
 consecutive := sending.queued.consecutive fun first member =>
  (sending.faithful first member).seqno
 symbols := by
  refine ⟨read, sending.split, ?_⟩
  have symbols := sending.symbols
  cases started : self.sender.synFlag with
  | false =>
   refine .inl ⟨?_, (sending.notStarted started).1⟩
   by_contra some_sent
   have flag := sending.started.mpr some_sent
   rw [started] at flag
   cases flag
  | true =>
   rw [started] at symbols
   refine .inr ⟨_, ?_, symbols⟩
   cases self.sender.finFlag with
   | false => exact .inl rfl
   | true => exact .inr rfl
 finished := fun first member => (sending.faithful first member).finished
 payload := fun first member => (sending.faithful first member).small
 timer := sending.timer

/-- In every reachable state of a sender the bookkeeping is in step. -/
theorem bookkeeping (helper : ReadHelper) (input : ByteStream) (isn : Wrap32)
 (initialRtoMs : UInt64) (events : List Event) (self : History)
 (run : Run (fun before event after => after = before.step helper event)
  (History.start input isn initialRtoMs) events self) :
 Bookkeeping self := by
 have holds : self.Holds := run.invariant (History.start_holds input isn initialRtoMs)
  fun before event after holds taken => by
   rw [taken]
   exact holds.step helper event
 obtain ⟨read, sending⟩ := holds
 exact sending.accounts

theorem bookkeeping_acknowledged :
 Bookkeeping
  (((History.start ((ByteStream.empty 4).push [7, 8]) ⟨5⟩ 1000).step .peekAndPop
   .push).step .peekAndPop (.receive ⟨some ⟨6⟩, 2, false⟩)) :=
 bookkeeping .peekAndPop ((ByteStream.empty 4).push [7, 8]) ⟨5⟩ 1000
  [.push, .receive ⟨some ⟨6⟩, 2, false⟩] _ (.snoc (.snoc .nil rfl) rfl)

/-- In every reachable state `push` sends all that it may: a second call sends nothing. -/
theorem push_twice (helper : ReadHelper) (input : ByteStream) (isn : Wrap32)
 (initialRtoMs : UInt64) (events : List Event) (self : History)
 (run : Run (fun before event after => after = before.step helper event)
  (History.start input isn initialRtoMs) events self) :
 ((self.sender.push helper).1.push helper).2 = [] := by
 have holds : self.Holds := run.invariant (History.start_holds input isn initialRtoMs)
  fun before event after holds taken => by
   rw [taken]
   exact holds.step helper event
 obtain ⟨read, sending⟩ := holds
 have ends := @pushLoop_ends helper self.sender _ (sending.base_add ▸ Nat.le_add_right _ _)
  (Nat.sub_le _ _)
 rw [push]
 cases (self.sender.push helper).1.effectiveWindow with
 | zero => rfl
 | succ fuel =>
  rw [pushLoop]
  split_ifs with may
  · have none := ends may
    split <;> simp_all [push]
  · rfl

theorem push_twice_window :
 ((((History.start (ByteStream.empty 4) ⟨5⟩ 1000).step .peekAndPop
  (.write [7, 8])).sender.push .peekAndPop).1.push .peekAndPop).2 = [] :=
 push_twice .peekAndPop (ByteStream.empty 4) ⟨5⟩ 1000 [.write [7, 8]] _ (.snoc .nil rfl)

/-! ### The right edge -/

/-- No transmission occupies a sequence number at or behind the edge announced by
then. -/
def FlowControlled (self : History) : Prop :=
 ∀ logged ∈ self.log,
  logged.transmission.position + logged.transmission.message.sequenceLength ≤ logged.edge

/-- The steps that cannot reach past the announced edge.  The segment that carries
the SYN leaves room for it, and no message widens the window, measured from
`send_base_`, past the largest edge announced so far. -/
def WithinAnnounced (self : History) : Event → Prop
 | .push => self.sender.synFlag = true ∨
  min self.sender.input.contents.length maxPayloadSize < self.sender.effectiveWindow
 | .receive msg => self.sender.input.hasError = true ∨ msg.rst = true ∨
  self.sender.sendBase + max msg.windowSize.toNat 1 ≤ announce self.sender msg self.edge
 | _ => True

/-- What has been sent, and what the window still allows, ends before the edge. -/
structure Bounded (state : TCPSender) (edge : ℕ) : Prop where
 sent : state.nextseqno ≤ edge
 window : state.sendBase + state.effectiveWindow ≤ edge

variable {edge : ℕ}

theorem Sends.bounded {old new : TCPSender} {transmission : Transmission}
 (round : Sends old new transmission) (base_le : old.sendBase ≤ old.nextseqno)
 (may : old.mayPush = true)
 (roomForSyn : old.synFlag = true ∨
  min old.input.contents.length maxPayloadSize < old.freeWindow) (bounded : Bounded old edge) :
 Bounded new edge := by
 have window := bounded.window
 have free := (old.mayPush_iff.mp may).1
 have payload := round.payload_length
 have length : transmission.message.sequenceLength = transmission.message.syn.toNat +
  transmission.message.payload.length + transmission.message.fin.toNat := rfl
 have syn := round.syn
 have fits : transmission.message.sequenceLength ≤ old.freeWindow := by
  cases fin : transmission.message.fin with
  | true =>
   have inside := (round.fin fin).2.2
   rw [length, fin, toNat_true]
   omega
  | false =>
   rw [length, fin, toNat_false, syn]
   rcases roomForSyn with started | room
   · simp_all
   · have one := toNat_le (!old.synFlag)
     omega
 have effective : new.effectiveWindow = old.effectiveWindow := by
  rw [effectiveWindow_eq, effectiveWindow_eq, round.windowSize]
 refine ⟨?_, by rw [round.sendBase, effective]; exact window⟩
 rw [round.nextseqno]
 unfold freeWindow at fits free
 omega

theorem Sending.push_bounded {written read : List Byte} {sent : List Transmission}
 {state : TCPSender} (helper : ReadHelper) (sending : Sending written read sent state)
 (roomForSyn : state.synFlag = true ∨
  min state.input.contents.length maxPayloadSize < state.effectiveWindow)
 (bounded : Bounded state edge) :
 Bounded (state.push helper).1 edge ∧
  ∀ transmission ∈ (state.push helper).2,
   transmission.position + transmission.message.sequenceLength ≤ edge := by
 have free : state.synFlag = true ∨
  min state.input.contents.length maxPayloadSize < state.freeWindow := by
  cases started : state.synFlag with
  | true => exact .inl rfl
  | false =>
   rw [started] at roomForSyn
   have next := sending.nextseqno
   rw [started, (sending.notStarted started).1, (sending.notStarted started).2] at next
   refine .inr ?_
   unfold freeWindow
   rw [next]
   simpa using roomForSyn
 have invariant := push_rule
  (fun final earlier =>
   (final.sendBase ≤ final.nextseqno ∧ Bounded final edge ∧
    (final.synFlag = true ∨
     min final.input.contents.length maxPayloadSize < final.freeWindow)) ∧
   ∀ transmission ∈ earlier,
    transmission.position + transmission.message.sequenceLength ≤ edge)
  ?_ ?_ helper state [] ⟨⟨?_, bounded, free⟩, by intro first member; cases member⟩
 · exact ⟨invariant.1.2.1, invariant.2⟩
 · rintro old new earlier transmission ⟨⟨base_le, inside, room⟩, all⟩ may round
   have after := round.bounded base_le may room inside
   refine ⟨⟨?_, after, .inl round.synFlag⟩, ?_⟩
   · rw [round.sendBase, round.nextseqno]
     omega
   · intro first member
     rcases mem_append.mp member with before | latest
     · exact all first before
     · rw [mem_singleton.mp latest, round.position, ← round.nextseqno]
       exact after.sent
 · rintro old new earlier ⟨⟨base_le, inside, room⟩, all⟩ broke
   obtain ⟨input, rfl, contents, -⟩ := broke.input
   rw [← contents] at room
   exact ⟨⟨base_le, ⟨inside.sent, inside.window⟩, room⟩, all⟩
 · have queue := sending.base_add
   omega

theorem receive_bounded {state : TCPSender} {msg : TCPReceiverMessage}
 (within : state.input.hasError = true ∨ msg.rst = true ∨
  state.sendBase + max msg.windowSize.toNat 1 ≤ announce state msg edge)
 (bounded : Bounded state edge) :
 Bounded (state.receive msg) (announce state msg edge) := by
 obtain ⟨dropped, done⟩ := state.receive_spec msg
 have grows : edge ≤ announce state msg edge := by
  unfold announce
  cases msg.ackno with
  | none => exact le_refl _
  | some ackno => exact Nat.le_max_left _ _
 have sent := bounded.sent
 have window := bounded.window
 refine ⟨by rw [done.nextseqno]; omega, ?_⟩
 rw [effectiveWindow_eq] at window ⊢
 by_cases none : dropped = []
 · rw [done.sendBase, none, totalLength_nil]
   rcases done.window with ⟨same, -, -⟩ | ⟨updated, processed⟩
   · rw [same]
     omega
   · rw [updated]
     rcases within with failed | reset | fits
     · exact (processed (.inl failed)).elim
     · exact (processed (.inr reset)).elim
     · exact fits
 · obtain ⟨ackno, given, below⟩ := done.acked none
   rcases done.window with ⟨-, impossible, -⟩ | ⟨updated, -⟩
   · exact (none impossible).elim
   · rw [updated]
     unfold announce
     rw [given]
     dsimp only
     omega

/-- The flow control invariant, in the form that one step preserves. -/
structure Controlled (history : History) : Prop where
 holds : history.Holds
 bounded : Bounded history.sender history.edge
 flow : FlowControlled history

theorem start_controlled (input : ByteStream) (isn : Wrap32) (initialRtoMs : UInt64) :
 Controlled (History.start input isn initialRtoMs) where
 holds := History.start_holds input isn initialRtoMs
 bounded := ⟨Nat.zero_le 1, le_refl 1⟩
 flow := by intro logged member; cases member

theorem flowControlled_append {transmissions : List Transmission} (flow : FlowControlled self)
 (within : ∀ transmission ∈ transmissions,
  transmission.position + transmission.message.sequenceLength ≤ self.edge) :
 ∀ logged ∈ self.log ++ History.logAll self.edge transmissions,
  logged.transmission.position + logged.transmission.message.sequenceLength ≤
   logged.edge := by
 intro logged member
 rcases mem_append.mp member with earlier | latest
 · exact flow logged earlier
 · obtain ⟨transmission, isNew, same⟩ := mem_map.mp latest
   grind

theorem Controlled.step (controlled : Controlled self) (helper : ReadHelper) {event : Event}
 (within : WithinAnnounced self event) : Controlled (self.step helper event) := by
 have holds := controlled.holds.step helper event
 obtain ⟨read, sending⟩ := controlled.holds
 cases event with
 | write data => exact ⟨holds, ⟨controlled.bounded.sent, controlled.bounded.window⟩,
  controlled.flow⟩
 | close => exact ⟨holds, ⟨controlled.bounded.sent, controlled.bounded.window⟩,
  controlled.flow⟩
 | setError => exact ⟨holds, ⟨controlled.bounded.sent, controlled.bounded.window⟩,
  controlled.flow⟩
 | push =>
  have pushed := sending.push_bounded helper within controlled.bounded
  exact ⟨holds, pushed.1, flowControlled_append controlled.flow pushed.2⟩
 | receive msg =>
  exact ⟨holds, receive_bounded within controlled.bounded, controlled.flow⟩
 | tick msSinceLastTick =>
  obtain ⟨⟨timer, retransmissionsNum, after, -⟩, transmitted⟩ :=
   self.sender.tick_spec msSinceLastTick
  have bounded : Bounded (self.sender.tick msSinceLastTick).1 self.edge := by
   rw [after]
   exact ⟨controlled.bounded.sent, controlled.bounded.window⟩
  have fits : ∀ transmission ∈ (self.sender.tick msSinceLastTick).2,
   transmission.position + transmission.message.sequenceLength ≤ self.edge := by
   intro transmission member
   rcases transmitted with nothing | ⟨front, rest, queue, retransmitted⟩
   · rw [nothing] at member
     cases member
   · rw [retransmitted] at member
     rw [mem_singleton.mp member]
     have total := sending.base_add
     have sent := controlled.bounded.sent
     rw [queue, totalLength_cons] at total
     dsimp only
     omega
  exact ⟨holds, bounded, flowControlled_append controlled.flow fits⟩

/-- In every run whose steps stay within the announced edge, every transmission,
retransmissions included, ends at or before the edge announced by then. -/
theorem flow_controlled (helper : ReadHelper) (input : ByteStream) (isn : Wrap32)
 (initialRtoMs : UInt64) (events : List Event) (self : History)
 (run : Run (Guarded WithinAnnounced
  (fun before event after => after = before.step helper event))
  (History.start input isn initialRtoMs) events self) :
 FlowControlled self := by
 have controlled : Controlled self :=
  run.invariant (start_controlled input isn initialRtoMs)
   fun before event after controlled taken => by
    rw [taken.2]
    exact controlled.step helper taken.1
 exact controlled.flow

theorem flow_controlled_handshake :
 FlowControlled
  (((((History.start (ByteStream.empty 4) ⟨5⟩ 1000).step .peekAndPop .push).step
   .peekAndPop (.write [7, 8])).step .peekAndPop (.receive ⟨some ⟨6⟩, 2, false⟩)).step
   .peekAndPop .push) :=
 flow_controlled .peekAndPop (ByteStream.empty 4) ⟨5⟩ 1000
  [.push, .write [7, 8], .receive ⟨some ⟨6⟩, 2, false⟩, .push] _
  (.snoc (.snoc (.snoc (.snoc .nil ⟨Or.inr (by decide), rfl⟩) ⟨trivial, rfl⟩)
   ⟨Or.inr (Or.inr (by decide)), rfl⟩) ⟨Or.inl (by decide), rfl⟩)

/-- With a byte waiting before the first push, the SYN segment takes two sequence
numbers out of a window of one. -/
theorem flow_control_fails_with_data_on_syn :
 ∃ self, Run (fun before event after => after = before.step .peekAndPop event)
  (History.start ((ByteStream.empty 4).push [7]) ⟨5⟩ 1000) [.push] self ∧
  ¬ FlowControlled self := by
 refine ⟨_, .snoc .nil rfl, fun flow => ?_⟩
 have sent : ((History.start ((ByteStream.empty 4).push [7]) ⟨5⟩ 1000).step .peekAndPop
  .push).log.map (fun logged => (logged.transmission.position,
   logged.transmission.message.sequenceLength, logged.edge)) = [(0, 2, 1)] := by decide
 have member : (0, 2, 1) ∈ _ := sent ▸ mem_singleton.mpr rfl
 obtain ⟨logged, inLog, values⟩ := mem_map.mp member
 have bound := flow logged inLog
 simp_all

end MyNotes.Cs144.TCPSender
