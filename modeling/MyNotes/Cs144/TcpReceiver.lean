/-
The TCP receiver of lab 2, in its last version.

`receive` fails where `Reassembler::insert` throws.
-/

import MyNotes.Cs144.Reassembler
import MyNotes.Cs144.TcpMessage

namespace MyNotes.Cs144

structure TCPReceiver where
 reassembler : Reassembler
 zeroPoint : Option Wrap32
 ackon : Wrap32

namespace TCPReceiver

def new (reassembler : Reassembler) : TCPReceiver :=
 { reassembler := reassembler
   zeroPoint := none
   ackon := ⟨0⟩ }

section

variable (self : TCPReceiver)

/-- The end of `receive`, for a payload that starts at `seqno`. -/
def insertPayload (zero seqno : Wrap32) (payload : List Byte) (fin : Bool) : Option TCPReceiver :=
 let self := { self with zeroPoint := some zero }
 let firstIndex := seqno.unwrap zero self.reassembler.output.bytesPushed
 if firstIndex = 0 then some self
 else
  (self.reassembler.insert (firstIndex - 1) payload fin).map fun reassembler =>
   { self with
    reassembler := reassembler
    ackon := ((zero.add 1).add reassembler.output.bytesPushed).add
     reassembler.output.isClosed.toNat }

def receive (message : TCPSenderMessage) : Option TCPReceiver :=
 if message.rst then
  some { self with
   reassembler := { self.reassembler with output := self.reassembler.output.setError } }
 else if self.reassembler.output.hasError then some self
 else
  match message.syn, self.zeroPoint with
  | true, none =>
   self.insertPayload message.seqno (message.seqno.add 1) message.payload message.fin
  | true, some _ => some self
  | false, none => some self
  | false, some zero => self.insertPayload zero message.seqno message.payload message.fin

def send : TCPReceiverMessage :=
 let available := self.reassembler.output.availableCapacity
 { ackno := if self.zeroPoint.isSome then some self.ackon else none
   windowSize := if available > 65535 then 65535 else UInt16.ofNat available
   rst := self.reassembler.output.hasError }

/-- The next sequence number needed, not wrapped: the SYN, the bytes pushed and,
once the stream is closed, the FIN are behind it. -/
def absoluteAckno : ℕ :=
 1 + self.reassembler.output.bytesPushed + self.reassembler.output.closed.toNat

end

end TCPReceiver

end MyNotes.Cs144
