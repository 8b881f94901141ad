/-
The two messages of a TCP peer (lab 2): what a sender sends and what a receiver
answers.
-/

import MyNotes.Cs144.ByteStream
import MyNotes.Cs144.Wrap32

namespace MyNotes.Cs144

structure TCPSenderMessage where
 seqno : Wrap32
 syn : Bool
 payload : List Byte
 fin : Bool
 rst : Bool
deriving DecidableEq

structure TCPReceiverMessage where
 ackno : Option Wrap32
 windowSize : UInt16
 rst : Bool
deriving DecidableEq

namespace TCPSenderMessage

def sequenceLength (self : TCPSenderMessage) : ℕ :=
 self.syn.toNat + self.payload.length + self.fin.toNat

/-- What the sequence numbers of a segment stand for. -/
inductive Symbol
 | syn
 | byte (value : Byte)
 | fin
deriving DecidableEq

def symbols (self : TCPSenderMessage) : List Symbol :=
 (if self.syn then [.syn] else []) ++ self.payload.map .byte ++
  (if self.fin then [.fin] else [])

end TCPSenderMessage

end MyNotes.Cs144
