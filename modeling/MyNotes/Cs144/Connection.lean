/-
A TCP sender and a TCP receiver joined by an unreliable network.

Everything ever transmitted stays in the network, so a delivery may repeat, come
out of order, or never happen.  The history of the connection records what the
sending application wrote, what the receiving application read, and the segments
that reached the receiver after the SYN.
-/

import MyNotes.Cs144.TcpReceiver
import MyNotes.Cs144.TcpSenderRuns
import MyNotes.Cs144.ReassemblerRuns

namespace MyNotes.Cs144

open Library.Segment
open Library.Transition

structure Connection where
 sender : TCPSender
 written : List Byte
 segments : List Transmission
 receiver : TCPReceiver
 delivered : List Byte
 received : List Transmission
 acks : List TCPReceiverMessage

namespace Connection

inductive Event
 | write (data : List Byte)
 | close
 | push
 | tick (msSinceLastTick : UInt64)
 | deliver (index : ℕ)
 | acknowledge
 | deliverAck (index : ℕ)
 | read (len : ℕ)

def start (sendCapacity receiveCapacity : UInt64) (isn : Wrap32) (initialRtoMs : UInt64) :
 Connection :=
 { sender := TCPSender.new (ByteStream.empty sendCapacity) isn initialRtoMs
   written := []
   segments := []
   receiver := TCPReceiver.new (Reassembler.new (ByteStream.empty receiveCapacity))
   delivered := []
   received := []
   acks := [] }

/-- A step of one of the parties or of the network; a delivery needs something to
deliver. -/
def step (helper : ReadHelper) (self : Connection) : Event → Option Connection
 | .write data =>
  some { self with
   sender := { self.sender with input := self.sender.input.push data }
   written := self.written ++
    data.take (min self.sender.input.availableCapacity data.length) }
 | .close =>
  some { self with sender := { self.sender with input := self.sender.input.close } }
 | .push =>
  let (sender, transmissions) := self.sender.push helper
  some { self with sender := sender, segments := self.segments ++ transmissions }
 | .tick msSinceLastTick =>
  let (sender, transmissions) := self.sender.tick msSinceLastTick
  some { self with sender := sender, segments := self.segments ++ transmissions }
 | .deliver index =>
  self.segments[index]?.bind fun segment =>
   (self.receiver.receive segment.message).map fun receiver =>
    { self with
     receiver := receiver
     received :=
      if receiver.zeroPoint.isSome then self.received ++ [segment]
      else self.received }
 | .acknowledge => some { self with acks := self.acks ++ [self.receiver.send] }
 | .deliverAck index =>
  self.acks[index]?.map fun ack => { self with sender := self.sender.receive ack }
 | .read len =>
  some { self with
   receiver := { self.receiver with
    reassembler := self.receiver.reassembler.pop len }
   delivered := self.delivered ++
    self.receiver.reassembler.output.contents.take len }

/-- No segment is delivered more than `2^31 - 1` sequence numbers away from the
receiver's position. -/
def Near (self : Connection) : Event → Prop
 | .deliver index => ∀ segment ∈ self.segments[index]?,
  self.receiver.reassembler.output.bytesPushed ≤ segment.position + (2 ^ 31 - 1) ∧
   segment.position ≤ self.receiver.absoluteAckno + (2 ^ 31 - 1)
 | _ => True

instance (self : Connection) (event : Event) : Decidable (Near self event) :=
 match event with
 | .deliver index => inferInstanceAs (Decidable (∀ segment ∈ self.segments[index]?,
  self.receiver.reassembler.output.bytesPushed ≤ segment.position + (2 ^ 31 - 1) ∧
   segment.position ≤ self.receiver.absoluteAckno + (2 ^ 31 - 1)))
 | .write _ | .close | .push | .tick _ | .acknowledge | .deliverAck _ | .read _ =>
  inferInstanceAs (Decidable True)

/-- The two things that must not happen.  No segment with a FIN and no payload
reaches a listening receiver before all bytes in front of it have been pushed, and
no write is accepted once the FIN has been sent. -/
def InOrder (self : Connection) : Event → Prop
 | .deliver index => ∀ segment ∈ self.segments[index]?,
  segment.message.payload = [] → segment.message.fin = true →
  self.receiver.zeroPoint.isSome = true →
  self.receiver.reassembler.output.bytesPushed = segment.position - 1
 | .write data => self.sender.finFlag = true →
  min self.sender.input.availableCapacity data.length = 0
 | _ => True

instance (self : Connection) (event : Event) : Decidable (InOrder self event) :=
 match event with
 | .deliver index => inferInstanceAs (Decidable (∀ segment ∈ self.segments[index]?,
  segment.message.payload = [] → segment.message.fin = true →
  self.receiver.zeroPoint.isSome = true →
  self.receiver.reassembler.output.bytesPushed = segment.position - 1))
 | .write data => inferInstanceAs (Decidable (self.sender.finFlag = true →
  min self.sender.input.availableCapacity data.length = 0))
 | .close | .push | .tick _ | .acknowledge | .deliverAck _ | .read _ =>
  inferInstanceAs (Decidable True)

def Reached (received : List Transmission) (number : ℕ) : Prop :=
 ∃ segment ∈ received, segment.position ≤ number ∧
  number < segment.position + segment.message.sequenceLength

structure Safe (state : Connection) : Prop where
 pushed_prefix : state.delivered ++ state.receiver.reassembler.output.contents <+:
  state.written
 closed : state.receiver.reassembler.output.closed = true →
  state.sender.input.closed = true ∧
   state.delivered ++ state.receiver.reassembler.output.contents = state.written
 acknowledged : ∀ ackno, state.receiver.send.ackno = some ackno →
  ackno = Wrap32.wrap state.receiver.absoluteAckno state.sender.isn ∧
   ∀ number < state.receiver.absoluteAckno, Reached state.received number

end Connection

end MyNotes.Cs144
