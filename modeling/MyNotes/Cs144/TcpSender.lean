/-
The TCP sender of lab 3.

Sequence numbers and counters are natural numbers; the timer keeps 64-bit words,
since the milliseconds it is given are arbitrary.
-/

import MyNotes.Cs144.TcpMessage

namespace MyNotes.Cs144

/-- The helper `read` is only declared in the notes.  Its comment says what it
does: it peeks and pops up to `len` bytes into a string. -/
structure ReadHelper where
 read : ByteStream → ℕ → List Byte × ByteStream
 payload : ∀ input len, (read input len).1 = input.contents.take len
 contents : ∀ input len, (read input len).2.contents = input.contents.drop len
 capacity : ∀ input len, (read input len).2.capacity = input.capacity
 closed : ∀ input len, (read input len).2.closed = input.closed
 error : ∀ input len, (read input len).2.error = input.error

def ReadHelper.peekAndPop : ReadHelper where
 read := fun input len => (input.contents.take len, input.pop len)
 payload := fun _ _ => rfl
 contents := ByteStream.pop_contents
 capacity := ByteStream.pop_capacity
 closed := ByteStream.pop_closed
 error := ByteStream.pop_error

structure RetransTimer where
 rto : UInt64
 time : UInt64
 running : Bool
deriving DecidableEq

namespace RetransTimer

def new (rto : UInt64) : RetransTimer := ⟨rto, 0, false⟩

section

variable (self : RetransTimer)

def isExpired : Bool := decide (self.time ≥ self.rto) && self.running

def isRunning : Bool := self.running

def tickToRetransTimer (msSinceLastTick : UInt64) : RetransTimer :=
 if self.running then { self with time := self.time + msSinceLastTick } else self

def startNew : RetransTimer := { self with time := 0, running := true }

def stopRetrans : RetransTimer := { self with running := false }

def backoff : RetransTimer := { self with rto := self.rto * 2 }

def loadRto (rto : UInt64) : RetransTimer := { self with rto := rto }

end

variable (self : RetransTimer)

@[simp] theorem startNew_isRunning : self.startNew.isRunning = true := rfl

@[simp] theorem stopRetrans_isRunning :
 self.stopRetrans.isRunning = false := rfl

@[simp] theorem backoff_isRunning :
 self.backoff.isRunning = self.isRunning := rfl

@[simp] theorem loadRto_isRunning (rto : UInt64) :
 (self.loadRto rto).isRunning = self.isRunning := rfl

@[simp] theorem tickToRetransTimer_isRunning (ms : UInt64) :
 (self.tickToRetransTimer ms).isRunning = self.isRunning := by
 unfold tickToRetransTimer
 split <;> rfl

end RetransTimer

structure TCPSender where
 input : ByteStream
 isn : Wrap32
 initialRtoMs : UInt64
 timer : RetransTimer
 buffer : List TCPSenderMessage
 windowSize : ℕ
 sendBase : ℕ
 nextseqno : ℕ
 outstandingNum : ℕ
 retransmissionsNum : ℕ
 synFlag : Bool
 finFlag : Bool

/-- `TCPConfig::MAX_PAYLOAD_SIZE`. -/
def maxPayloadSize : ℕ := 1452

/-- A call of `transmit`: the message, the absolute sequence number it starts at,
and whether the input stream was finished at that moment. -/
structure Transmission where
 position : ℕ
 message : TCPSenderMessage
 inputFinished : Bool

namespace TCPSender

def new (input : ByteStream) (isn : Wrap32) (initialRtoMs : UInt64) : TCPSender :=
 { input := input
   isn := isn
   initialRtoMs := initialRtoMs
   timer := .new initialRtoMs
   buffer := []
   windowSize := 1
   sendBase := 0
   nextseqno := 0
   outstandingNum := 0
   retransmissionsNum := 0
   synFlag := false
   finFlag := false }

def sequenceNumbersInFlight (self : TCPSender) : ℕ := self.outstandingNum

def consecutiveRetransmissions (self : TCPSender) : ℕ := self.retransmissionsNum

def makeEmptyMessage (self : TCPSender) : TCPSenderMessage :=
 { seqno := Wrap32.wrap self.nextseqno self.isn
   syn := false
   payload := []
   fin := false
   rst := self.input.hasError }

/-! ### push -/

/-- `window_size_ > 0 ? window_size_ : 1`. -/
def effectiveWindow (self : TCPSender) : ℕ := if self.windowSize > 0 then self.windowSize else 1

/-- The condition of the loop of `push`. -/
def mayPush (self : TCPSender) : Bool :=
 decide (self.effectiveWindow > self.nextseqno - self.sendBase) && !self.finFlag

/-- `sz`, the part of the window that is not in flight. -/
def freeWindow (self : TCPSender) : ℕ := self.effectiveWindow - (self.nextseqno - self.sendBase)

/-- The message of one round of the loop and the input it leaves. -/
def nextMessage (helper : ReadHelper) (self : TCPSender) : TCPSenderMessage × ByteStream :=
 let message := { self.makeEmptyMessage with syn := !self.synFlag }
 let sz := self.freeWindow
 let len := min maxPayloadSize sz
 let (payload, input) := helper.read self.input len
 let message := { message with payload := payload }
 let fin := !self.finFlag && decide (sz > message.sequenceLength) && input.isFinished
 ({ message with fin := fin }, input)

/-- One round of the loop; no message is the `break`. -/
def pushRound (helper : ReadHelper) (self : TCPSender) : TCPSender × Option Transmission :=
 let (message, input) := self.nextMessage helper
 let self := { self with
  input := input
  synFlag := true
  finFlag := self.finFlag || message.fin }
 if message.sequenceLength = 0 then (self, none)
 else
  ({ self with
   timer :=
    if self.timer.isRunning then self.timer
    else (self.timer.loadRto self.initialRtoMs).startNew
   nextseqno := self.nextseqno + message.sequenceLength
   outstandingNum := self.outstandingNum + message.sequenceLength
   buffer := self.buffer ++ [message] },
   some ⟨self.nextseqno, message, input.isFinished⟩)

/-- The loop of `push`, for at most `fuel` rounds. -/
def pushLoop (helper : ReadHelper) : ℕ → TCPSender → TCPSender × List Transmission
 | 0, self => (self, [])
 | fuel + 1, self =>
  if self.mayPush then
   match self.pushRound helper with
   | (next, none) => (next, [])
   | (next, some transmission) =>
    let (final, later) := pushLoop helper fuel next
    (final, transmission :: later)
  else (self, [])

/-- Every round that does not break uses up a part of the window, so one round for
each sequence number of the window is enough. -/
def push (helper : ReadHelper) (self : TCPSender) : TCPSender × List Transmission :=
 pushLoop helper self.effectiveWindow self

/-! ### receive -/

/-- The loop of `receive`: drop the segments that end at or before `rcvBase`; the
flag is `is_ack`. -/
def popAcked (rcvBase : ℕ) : List TCPSenderMessage → TCPSender → Bool → TCPSender × Bool
 | [], self, isAck => ({ self with buffer := [] }, isAck)
 | message :: rest, self, isAck =>
  if self.sendBase + message.sequenceLength > rcvBase then
   ({ self with buffer := message :: rest }, isAck)
  else
   popAcked rcvBase rest
    { self with
     sendBase := self.sendBase + message.sequenceLength
     outstandingNum := self.outstandingNum - message.sequenceLength }
    true

def receive (self : TCPSender) (msg : TCPReceiverMessage) : TCPSender :=
 if self.input.hasError then self
 else if msg.rst then { self with input := self.input.setError }
 else
  let self := { self with windowSize := msg.windowSize.toNat }
  match msg.ackno with
  | none => self
  | some ackno =>
   let rcvBase := ackno.unwrap self.isn self.nextseqno
   if rcvBase > self.nextseqno then self
   else
    let (self, isAck) := popAcked rcvBase self.buffer self false
    if isAck then
     let timer := self.timer.loadRto self.initialRtoMs
     { self with
      retransmissionsNum := 0
      timer := if self.buffer.isEmpty then timer.stopRetrans else timer.startNew }
    else self

/-! ### tick -/

def tick (self : TCPSender) (msSinceLastTick : UInt64) : TCPSender × List Transmission :=
 let self := { self with timer := self.timer.tickToRetransTimer msSinceLastTick }
 if self.timer.isExpired then
  match self.buffer with
  | [] => (self, [])
  | front :: _ =>
   let backedOff :=
    if self.windowSize ≠ 0 then
     { self with
      retransmissionsNum := self.retransmissionsNum + 1
      timer := self.timer.backoff }
    else self
   ({ backedOff with timer := backedOff.timer.startNew },
    [⟨self.sendBase, front, self.input.isFinished⟩])
 else (self, [])

end TCPSender

end MyNotes.Cs144
