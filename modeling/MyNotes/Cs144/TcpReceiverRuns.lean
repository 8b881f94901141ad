/-
What a TCP receiver announces in the course of its runs (lab 2).

Any segment may arrive, in any order, and the application may read at any time.
-/

import MyNotes.Cs144.TcpReceiver
import MyNotes.Cs144.ReassemblerRuns

namespace MyNotes.Cs144

open Library.Transition Nat Wrap32

namespace ByteStream

/-- A stream that is only pushed to, closed and read keeps its capacity, and counts on. -/
structure Advances (old new : ByteStream) : Prop where
 capacity : new.capacity = old.capacity
 pushed : old.bytesPushed ≤ new.bytesPushed
 popped : old.bytesPopped ≤ new.bytesPopped
 closed : old.closed = true → new.closed = true

theorem Advances.refl (self : ByteStream) : Advances self self :=
 ⟨rfl, le_refl _, le_refl _, id⟩

theorem Advances.trans {first second third : ByteStream} (one : Advances first second)
 (two : Advances second third) : Advances first third :=
 ⟨two.capacity.trans one.capacity, le_trans one.pushed two.pushed,
  le_trans one.popped two.popped, two.closed ∘ one.closed⟩

variable (self : ByteStream)

theorem push_advances (data : List Byte) : Advances self (self.push data) := by
 refine ⟨self.push_capacity data, ?_, le_of_eq (self.push_bytesPopped data).symm, ?_⟩
 · rw [push_bytesPushed]
   exact le_add_right _ _
 · rw [push_closed]
   exact id

theorem close_advances : Advances self self.close :=
 ⟨rfl, le_refl _, le_refl _, fun _ => rfl⟩

theorem pop_advances (len : ℕ) : Advances self (self.pop len) :=
 ⟨self.pop_capacity len, le_of_eq (self.pop_bytesPushed len).symm, le_add_right _ _,
  by rw [pop_closed]; exact id⟩

theorem setError_advances : Advances self self.setError :=
 ⟨rfl, le_refl _, le_refl _, id⟩

end ByteStream

namespace Reassembler

open ByteStream

theorem bufferPopLoop_advances (blocks : List Block) (self : Reassembler) :
 Advances self.output (bufferPopLoop blocks self).output := by
 induction blocks generalizing self with
 | nil => exact .refl _
 | cons front rest ih =>
  rw [bufferPopLoop]
  split
  · refine (push_advances self.output front.data).trans ?_
    exact ih (pushToOutput { self with bufferSize := self.bufferSize - front.data.length }
     front.data)
  · exact .refl _

theorem bufferPop_advances (self : Reassembler) : Advances self.output self.bufferPop.output := by
 have drained := bufferPopLoop_advances self.buffer self
 rw [bufferPop]
 split
 · exact drained.trans (close_advances _)
 · exact drained

theorem insert_advances {self done : Reassembler} {firstIndex : ℕ} {data : List Byte}
 {isLastSubstring : Bool} (inserted : self.insert firstIndex data isLastSubstring = some done) :
 Advances self.output done.output := by
 rw [insert] at inserted
 split at inserted
 · cases inserted
   split
   · exact close_advances _
   · exact .refl _
 · split at inserted
   · cases inserted
     exact .refl _
   · cases inserted
   · rename_i first endIndex rest isLast trimmed
     cases inserted
     rw [← (self.bufferPush_frame first (endIndex - 1) rest).2.2]
     exact bufferPop_advances
      { self.bufferPush first (endIndex - 1) rest with
       hadLast := (self.bufferPush first (endIndex - 1) rest).hadLast || isLast }

end Reassembler

namespace TCPReceiver

inductive Event
 | receive (message : TCPSenderMessage)
 | read (len : ℕ)

def step (self : TCPReceiver) : Event → Option TCPReceiver
 | .receive message => self.receive message
 | .read len => some { self with reassembler := self.reassembler.pop len }

/-- The first sequence number behind the announced window, not wrapped. -/
def rightEdge (self : TCPReceiver) : ℕ := self.absoluteAckno + self.send.windowSize.toNat

/-- The cached ackno is the one that would be computed now. -/
def Acknowledges (self : TCPReceiver) : Prop :=
 ∀ zero, self.zeroPoint = some zero → self.ackon = Wrap32.wrap self.absoluteAckno zero

/-- What has been announced stands, and the zero point does not change. -/
structure Later (old new : TCPReceiver) : Prop where
 output : ByteStream.Advances old.reassembler.output new.reassembler.output
 zeroPoint : ∀ zero, old.zeroPoint = some zero → new.zeroPoint = some zero

theorem Later.refl (self : TCPReceiver) : Later self self := ⟨.refl _, fun _ => id⟩

theorem Later.trans {first second third : TCPReceiver} (one : Later first second)
 (two : Later second third) : Later first third :=
 ⟨one.output.trans two.output, fun zero known => two.zeroPoint zero (one.zeroPoint zero known)⟩

theorem Later.absoluteAckno {old new : TCPReceiver} (later : Later old new) :
 old.absoluteAckno ≤ new.absoluteAckno := by
 have pushed := later.output.pushed
 have closed := Bool.toNat_le_toNat later.output.closed
 unfold TCPReceiver.absoluteAckno
 omega

theorem windowSize_toNat (self : TCPReceiver) :
 self.send.windowSize.toNat = min self.reassembler.output.availableCapacity 65535 := by
 rw [send]
 dsimp only
 split
 · grind
 · rename_i fits
   rw [UInt16.toNat_ofNat', Nat.min_eq_left (Nat.le_of_not_lt fits), Nat.mod_eq_of_lt (by omega)]

theorem Later.rightEdge {old new : TCPReceiver} (later : Later old new) :
 old.rightEdge ≤ new.rightEdge := by
 have closed := Bool.toNat_le_toNat later.output.closed
 have pushed := later.output.pushed
 have popped := later.output.popped
 have same := later.output.capacity
 have before := old.reassembler.output.availableCapacity_eq
 have after := new.reassembler.output.availableCapacity_eq
 rw [← ByteStream.bytesBuffered_eq, ByteStream.bytesBuffered] at before after
 rw [same] at after
 rw [TCPReceiver.rightEdge, TCPReceiver.rightEdge, windowSize_toNat, windowSize_toNat,
  TCPReceiver.absoluteAckno, TCPReceiver.absoluteAckno]
 omega

/-! ### Segments and reads -/

theorem unwrap_next_ne_zero (zero : Wrap32) (checkpoint : ℕ) :
 (zero.add 1).unwrap zero checkpoint ≠ 0 := by
 have next : zero.add 1 = wrap 1 zero := by
  have one := wrap_add 0 1 zero
  rw [wrap_zero, zero_add] at one
  exact one
 have same := unwrap_wrap_mod 1 zero checkpoint
 rw [next]
 omega

theorem ackon_eq_wrap (zero : Wrap32) (output : ByteStream) :
 ((zero.add 1).add output.bytesPushed).add output.isClosed.toNat =
  wrap (1 + output.bytesPushed + output.closed.toNat) zero := by
 rw [← wrap_add, ← wrap_add]
 have one := wrap_add 0 1 zero
 rw [wrap_zero, zero_add] at one
 rw [one]
 rfl

variable {self done : TCPReceiver}

theorem insertPayload_later {zero seqno : Wrap32} {payload : List Byte} {fin : Bool}
 (known : ∀ other, self.zeroPoint = some other → other = zero)
 (first : self.zeroPoint = none → seqno = zero.add 1) (acknowledges : self.Acknowledges)
 (inserted : self.insertPayload zero seqno payload fin = some done) :
 Later self done ∧ done.Acknowledges := by
 rw [insertPayload] at inserted
 split at inserted
 · rename_i stale
   cases inserted
   cases found : self.zeroPoint with
   | none =>
    rw [first found] at stale
    exact absurd stale (unwrap_next_ne_zero _ _)
   | some other =>
    have same : { self with zeroPoint := some zero } = self := by
     rw [← known other found, ← found]
    rw [same]
    exact ⟨.refl _, acknowledges⟩
 · obtain ⟨reassembler, taken, same⟩ := Option.map_eq_some_iff.mp inserted
   cases same
   refine ⟨⟨Reassembler.insert_advances taken, fun other found => ?_⟩, fun other found => ?_⟩
   · rw [known other found]
   · cases found
     exact ackon_eq_wrap zero reassembler.output

theorem receive_later {message : TCPSenderMessage} (acknowledges : self.Acknowledges)
 (received : self.receive message = some done) :
 Later self done ∧ done.Acknowledges := by
 rw [receive] at received
 split at received
 · cases received
   exact ⟨⟨ByteStream.setError_advances _, fun _ => id⟩, acknowledges⟩
 · split at received
   · cases received
     exact ⟨.refl _, acknowledges⟩
   · split at received
     · rename_i syn none
       refine insertPayload_later (fun other found => ?_) (fun _ => rfl) acknowledges received
       cases none.symm.trans found
     · cases received
       exact ⟨.refl _, acknowledges⟩
     · cases received
       exact ⟨.refl _, acknowledges⟩
     · rename_i zero noSyn found
       refine insertPayload_later (fun other found' => ?_) (fun none => ?_) acknowledges received
       · exact Option.some.inj (found'.symm.trans found)
       · cases found.symm.trans none

theorem step_later {event : Event} (acknowledges : self.Acknowledges)
 (taken : self.step event = some done) : Later self done ∧ done.Acknowledges := by
 cases event with
 | receive message => exact receive_later acknowledges taken
 | read len =>
  cases taken
  exact ⟨⟨ByteStream.pop_advances _ _, fun _ => id⟩, acknowledges⟩

/-- Between two states of a run after the SYN neither the ackno nor the right edge goes back, and
the ackno is always that of the bytes pushed and of the end of the stream. -/
theorem window_never_retreats (reassembler : Reassembler) (before after : List Event)
 (earlier later : TCPReceiver) (first : Run (ofFunction step) (new reassembler) before earlier)
 (second : Run (ofFunction step) earlier after later) (zero : Wrap32)
 (synchronized : earlier.zeroPoint = some zero) :
 earlier.send.ackno = some (Wrap32.wrap earlier.absoluteAckno zero) ∧
  later.send.ackno = some (Wrap32.wrap later.absoluteAckno zero) ∧
  earlier.absoluteAckno ≤ later.absoluteAckno ∧ earlier.rightEdge ≤ later.rightEdge := by
 have acknowledges : earlier.Acknowledges := by
  refine first.invariant (fun zero found => ?_) fun _ _ _ holds taken => ?_
  · cases found
  · exact (step_later holds taken).2
 have both : Later earlier later ∧ later.Acknowledges := by
  have kept : ∀ state event next, Later earlier state ∧ state.Acknowledges →
   ofFunction step state event next → Later earlier next ∧ next.Acknowledges :=
   fun _ _ _ holds taken => (step_later holds.2 taken).imp_left holds.1.trans
  exact second.invariant ⟨.refl _, acknowledges⟩ kept
 have kept := both.1.zeroPoint zero synchronized
 refine ⟨?_, ?_, both.1.absoluteAckno, both.1.rightEdge⟩
 · rw [send, synchronized, acknowledges zero synchronized]
   rfl
 · rw [send, kept, both.2 zero kept]
   rfl

theorem window_never_retreats_filled : ∃ earlier later : TCPReceiver,
 earlier.absoluteAckno = 1 ∧ earlier.rightEdge = 5 ∧
  later.absoluteAckno = 6 ∧ later.rightEdge = 8 ∧
  earlier.absoluteAckno ≤ later.absoluteAckno ∧ earlier.rightEdge ≤ later.rightEdge := by
 obtain ⟨earlier, later, first, second, synchronized, numbers⟩ : ∃ earlier later : TCPReceiver,
  replay step (new (Reassembler.new (ByteStream.empty 4)))
   [.receive ⟨⟨9⟩, true, [], false, false⟩] = some earlier ∧
  replay step earlier [.receive ⟨⟨10⟩, false, [1, 2, 3, 4], false, false⟩, .read 2,
   .receive ⟨⟨14⟩, false, [], true, false⟩] = some later ∧
  earlier.zeroPoint = some ⟨9⟩ ∧ earlier.absoluteAckno = 1 ∧ earlier.rightEdge = 5 ∧
   later.absoluteAckno = 6 ∧ later.rightEdge = 8 :=
  ⟨_, _, rfl, rfl, rfl, rfl, rfl, rfl, rfl⟩
 obtain ⟨-, -, kept⟩ := window_never_retreats _ _ _ earlier later (Run.of_replay_all first)
  (Run.of_replay_all second) ⟨9⟩ synchronized
 exact ⟨earlier, later, numbers.1, numbers.2.1, numbers.2.2.1, numbers.2.2.2, kept⟩

end TCPReceiver

end MyNotes.Cs144
