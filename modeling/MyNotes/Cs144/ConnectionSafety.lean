/-
Safety of a TCP connection over any interleaving.

The receiver's side is stated for every stream that continues what has been
written so far, so it survives later writes.  The sender's side is the sending
invariant: every segment in the network is one that was sent once, with the bytes
of the stream at its position.
-/

import MyNotes.Cs144.Connection

namespace MyNotes.Cs144

open Library.Segment List Option Bool Nat Reassembler ByteStream Wrap32 TCPReceiver
open Library.Transition

/-! ### Continuations of what has been written -/

def Continues (written : List Byte) (stream : ℕ → Byte) : Prop :=
 ∀ index < written.length, written[index]? = some (stream index)

theorem streamOf_continues (written : List Byte) :
 Continues written (streamOf written) := by
 intro index inside
 unfold streamOf
 simp_all

variable {more : List Byte} {stream : ℕ → Byte} {written : List Byte}

theorem Continues.of_append (continues : Continues (written ++ more) stream) :
 Continues written stream := by
 intro index inside
 rw [← continues index (by rw [length_append]; omega), getElem?_append_left inside]

theorem Continues.slice {data : List Byte} {first : ℕ} (continues : Continues written stream)
 (content : data <+: written.drop first) : data = segment stream first data.length := by
 obtain ⟨rest, whole⟩ := content
 have length := congrArg length whole
 rw [length_append, length_drop] at length
 refine eq_segment_of_getElem? rfl fun index inside => ?_
 rw [← continues (first + index) (by omega), ← getElem?_drop, ← whole,
  getElem?_append_left inside]

theorem Continues.whole (continues : Continues written stream) :
 segment stream 0 written.length = written := by
 refine (eq_segment_of_getElem? rfl fun index inside => ?_).symm
 rw [zero_add]
 exact continues index inside

namespace Connection

/-! ### The receiver's side -/

theorem Reached.mono {received more : List Transmission} {number : ℕ}
 (reached : Reached received number) : Reached (received ++ more) number := by
 obtain ⟨segment, member, range⟩ := reached
 exact ⟨segment, mem_append_left _ member, range⟩

/-- What the receiver has is a part of what was written, it has come in segments,
and it is closed only behind the last byte of a stream whose FIN has come. -/
structure Receiving (written : List Byte) (finSent : Bool) (received : List Transmission)
 (delivered : List Byte) (state : Reassembler) : Prop where
 held : ∀ stream, Continues written stream →
  state.Sound stream ∧
   delivered ++ state.output.contents = segment stream 0 state.nextIndex
 known : ∀ index, state.Known index →
  index < written.length ∧ Reached received (index + 1)
 hadLast : state.hadLast = true →
  finSent = true ∧ Reached received (written.length + 1) ∧
   (0 < written.length → state.Known (written.length - 1))
 closed : state.output.closed = true →
  finSent = true ∧ Reached received (written.length + 1) ∧
   state.nextIndex = written.length

namespace Receiving

variable {written delivered data : List Byte} {finSent fin : Bool}
 {received : List Transmission} {state result : Reassembler} {first : ℕ}

section

variable (receiving : Receiving written finSent received delivered state)
include receiving

theorem sound : state.Sound (streamOf written) :=
 (receiving.held _ (streamOf_continues written)).1

theorem nextIndex_le : state.nextIndex ≤ written.length := by
 by_contra beyond
 have inside := (receiving.known written.length (.inl (by omega))).1
 omega

theorem pushed : delivered ++ state.output.contents = written.take state.nextIndex := by
 have continues := streamOf_continues written
 have whole := continues.whole
 have bytes := (receiving.held _ continues).2
 rw [bytes]
 conv_rhs => rw [← whole]
 rw [segment_take, min_eq_left receiving.nextIndex_le]

theorem receive_more (more : List Transmission) :
 Receiving written finSent (received ++ more) delivered state where
 held := receiving.held
 known := fun index known =>
  ⟨(receiving.known index known).1, (receiving.known index known).2.mono⟩
 hadLast := fun had =>
  ⟨(receiving.hadLast had).1, (receiving.hadLast had).2.1.mono, (receiving.hadLast had).2.2⟩
 closed := fun closed =>
  ⟨(receiving.closed closed).1, (receiving.closed closed).2.1.mono,
   (receiving.closed closed).2.2⟩

theorem write_more (open_ended : finSent = true → more = []) :
 Receiving (written ++ more) finSent received delivered state := by
 cases flag : finSent with
 | true =>
  simp_all
 | false =>
  have notClosed : ∀ {claim : Prop}, finSent = true → claim := by
   intro claim sent
   rw [flag] at sent
   cases sent
  refine ⟨fun stream continues => receiving.held stream continues.of_append, ?_,
   fun had => notClosed (receiving.hadLast had).1,
   fun closed => notClosed (receiving.closed closed).1⟩
  intro index known
  have old := receiving.known index known
  grind

theorem fin_sent {later : Bool} (mono : finSent = true → later = true) :
 Receiving written later received delivered state where
 held := receiving.held
 known := receiving.known
 hadLast := fun had => ⟨mono (receiving.hadLast had).1, (receiving.hadLast had).2⟩
 closed := fun closed => ⟨mono (receiving.closed closed).1, (receiving.closed closed).2⟩

theorem setError :
 Receiving written finSent received delivered
  { state with output := state.output.setError } where
 held := fun stream continues =>
  have old := receiving.held stream continues
  ⟨⟨old.1.next_eq, old.1.blocks, old.1.above, old.1.below, old.1.size⟩, old.2⟩
 known := receiving.known
 hadLast := receiving.hadLast
 closed := receiving.closed

theorem pop (len : ℕ) :
 Receiving written finSent received (delivered ++ state.output.contents.take len)
  (state.pop len) where
 held := by
  intro stream continues
  obtain ⟨sound, bytes⟩ := receiving.held stream continues
  refine ⟨sound.pop len, ?_⟩
  change _ ++ (state.output.pop len).contents = _
  rw [pop_contents, append_assoc, take_append_drop]
  exact bytes
 known := receiving.known
 hadLast := receiving.hadLast
 closed := receiving.closed

end

/-- The FIN of a payload that has reached the receiver. -/
structure Ends (written : List Byte) (finSent : Bool) (received : List Transmission)
 (stop : ℕ) : Prop where
 stop_eq : stop = written.length
 sent : finSent = true
 reached : Reached received (written.length + 1)

theorem insert_empty (receiving : Receiving written finSent received delivered state)
 (last : fin = true → state.nextIndex = written.length ∧ finSent = true ∧
  Reached received (written.length + 1)) :
 Receiving written finSent received delivered
  (if fin then state.closeOutput else state) := by
 cases fin with
 | false => exact receiving
 | true =>
  obtain ⟨complete, sent, reached⟩ := last rfl
  exact
   { held := fun stream continues =>
      have old := receiving.held stream continues
      ⟨closeOutput_sound old.1, old.2⟩
     known := receiving.known
     hadLast := receiving.hadLast
     closed := fun _ => ⟨sent, reached, complete⟩ }

theorem insert_bytes (receiving : Receiving written finSent received delivered state)
 (nonempty : data ≠ []) (content : data <+: written.drop first)
 (covers : ∀ index, first ≤ index → index < first + data.length →
  Reached received (index + 1))
 (last : fin = true → Ends written finSent received (first + data.length))
 (returned : state.insert first data fin = some result) :
 Receiving written finSent received delivered result := by
 have positive := length_pos_iff.mpr nonempty
 have inside : first + data.length ≤ written.length := by
  have fits := content.length_le
  rw [length_drop] at fits
  omega
 have continues := streamOf_continues written
 have grown := insert_grown receiving.sound (continues.slice content) returned
 have known : ∀ index, result.Known index →
  index < written.length ∧ Reached received (index + 1) := by
  intro index known
  rcases grown.known index known with old | new
  · exact receiving.known index old
  · exact ⟨by omega, covers index new.1 new.2⟩
 have held : ∀ stream, Continues written stream → result.Sound stream ∧
  delivered ++ result.output.contents = segment stream 0 result.nextIndex := by
  intro stream continues
  obtain ⟨sound, bytes⟩ := receiving.held stream continues
  have grown := insert_grown sound (continues.slice content) returned
  exact ⟨grown.sound, pushed_of_appended grown.advance bytes grown.output⟩
 have inserted := insert_spec fin receiving.sound nonempty
  (continues.slice content)
 rw [returned] at inserted
 cases inserted with
 | ignored outside => exact receiving
 | taken reaches edge absorbs =>
  have hadLast : result.hadLast = true →
   finSent = true ∧ Reached received (written.length + 1) ∧
    (0 < written.length → result.Known (written.length - 1)) := by
   intro had
   rw [absorbs.hadLast, or_eq_true, and_eq_true, decide_eq_true_eq] at had
   rcases had with old | ⟨new, inWindow⟩
   · have before := receiving.hadLast old
     exact ⟨before.1, before.2.1, fun some_byte => grown.keeps _ (before.2.2 some_byte)⟩
   · have ends := last new
     have stop_eq := ends.stop_eq
     refine ⟨ends.sent, ends.reached, fun _ => (absorbs.known _).mpr ?_⟩
     by_cases early : written.length - 1 < state.nextIndex
     · exact .inl (.inl early)
     · exact .inr ⟨by omega, by omega⟩
  have next_le : result.nextIndex ≤ written.length := by
   by_contra beyond
   have within := (known written.length (.inl (by omega))).1
   omega
  have advance := absorbs.advance
  refine ⟨held, known, hadLast, fun closed => ?_⟩
  rw [absorbs.closed, or_eq_true, and_eq_true, List.isEmpty_iff] at closed
  rcases closed with old | ⟨had, drained⟩
  · have before := receiving.closed old
    exact ⟨before.1, before.2.1, by omega⟩
  · have now := hadLast had
    have below := absorbs.sound.buffer_eq_nil_iff.mp drained _ (now.2.2 (by omega))
    exact ⟨now.1, now.2.1, by omega⟩

theorem insert_old (nonempty : data ≠ [])
 (old : first + data.length ≤ state.nextIndex) :
 state.insert first data fin = some state := by
 have ignored : state.trim first data fin = .ignored := if_pos (.inl old)
 rw [Reassembler.insert, if_neg nonempty, ignored]

end Receiving

/-- The receiver as a whole: its reassembler, its zero point and the ackno it
reports. -/
structure Hearing (written : List Byte) (finSent : Bool) (isn : Wrap32)
 (received : List Transmission) (delivered : List Byte) (state : TCPReceiver) : Prop where
 receiving : Receiving written finSent received delivered state.reassembler
 silent : state.zeroPoint = none → state.reassembler.output.bytesPushed = 0
 zero : ∀ zero, state.zeroPoint = some zero → zero = isn
 ackon : state.zeroPoint.isSome = true → state.ackon = Wrap32.wrap state.absoluteAckno isn
 synReached : state.zeroPoint.isSome = true → Reached received 0

/-- A segment of the network: a part of what was written, at its position. -/
structure Carries (written : List Byte) (finSent : Bool) (isn : Wrap32)
 (segment : Transmission) : Prop where
 seqno : segment.message.seqno = Wrap32.wrap segment.position isn
 syn : segment.message.syn = true ↔ segment.position = 0
 payload : segment.message.payload <+: written.drop (segment.position - 1)
 small : segment.message.payload.length ≤ maxPayloadSize
 last : segment.message.fin = true → finSent = true ∧
  segment.position - 1 + segment.message.payload.length = written.length

namespace Hearing

variable {written delivered : List Byte} {finSent : Bool} {isn : Wrap32}
 {received : List Transmission} {state result : TCPReceiver} {segment : Transmission}

theorem receive_more (hearing : Hearing written finSent isn received delivered state)
 (more : List Transmission) :
 Hearing written finSent isn (received ++ more) delivered state where
 receiving := hearing.receiving.receive_more more
 silent := hearing.silent
 zero := hearing.zero
 ackon := hearing.ackon
 synReached := fun listening => (hearing.synReached listening).mono

theorem segment_reached (carries : Carries written finSent isn segment)
 (member : segment ∈ received) {start : ℕ}
 (start_eq : start = if segment.message.syn then 1 else segment.position) :
 (∀ index, start ≤ index + 1 → index + 1 < start + segment.message.payload.length →
  Reached received (index + 1)) ∧
 (segment.message.fin = true → Reached received (start + segment.message.payload.length)) := by
 have length : segment.message.sequenceLength = segment.message.syn.toNat +
  segment.message.payload.length + segment.message.fin.toNat := rfl
 cases syn : segment.message.syn with
 | true =>
  have atZero := carries.syn.mp syn
  rw [syn, if_pos rfl] at start_eq
  rw [syn, Bool.toNat_true] at length
  refine ⟨fun index low high => ⟨segment, member, by omega, by omega⟩, fun fin => ?_⟩
  rw [fin, Bool.toNat_true] at length
  exact ⟨segment, member, by omega, by omega⟩
 | false =>
  rw [syn, if_neg Bool.false_ne_true] at start_eq
  rw [syn, Bool.toNat_false] at length
  refine ⟨fun index low high => ⟨segment, member, by omega, by omega⟩, fun fin => ?_⟩
  rw [fin, Bool.toNat_true] at length
  exact ⟨segment, member, by omega, by omega⟩

theorem insert (receiving : Receiving written finSent received delivered state.reassembler)
 (carries : Carries written finSent isn segment) (member : segment ∈ received)
 {start firstIndex : ℕ}
 (start_eq : start = if segment.message.syn then 1 else segment.position)
 (inOrder : segment.message.payload = [] → segment.message.fin = true →
  state.reassembler.nextIndex = segment.position - 1)
 (located : firstIndex + 1 = start ∨
  firstIndex + maxPayloadSize ≤ state.reassembler.nextIndex)
 {reassembler : Reassembler}
 (returned : state.reassembler.insert firstIndex segment.message.payload
  segment.message.fin = some reassembler) :
 Receiving written finSent received delivered reassembler := by
 obtain ⟨bytesReached, finReached⟩ := segment_reached carries member start_eq
 have sameIndex : start - 1 = segment.position - 1 ∧ 0 < start := by
  cases syn : segment.message.syn with
  | true =>
   have atZero := carries.syn.mp syn
   rw [syn, if_pos rfl] at start_eq
   omega
  | false =>
   have positive : segment.position ≠ 0 := fun zero => by
    have flag := carries.syn.mpr zero
    rw [syn] at flag
    cases flag
   grind
 by_cases empty : segment.message.payload = []
 · have outcome : reassembler =
    if segment.message.fin then state.reassembler.closeOutput else state.reassembler := by
    rw [Reassembler.insert, if_pos empty] at returned
    exact (some.inj returned).symm
   rw [outcome]
   refine receiving.insert_empty fun fin => ?_
   have last := carries.last fin
   have reached := finReached fin
   rw [empty, length_nil] at last reached
   have next := inOrder empty fin
   refine ⟨by omega, last.1, ?_⟩
   rw [show written.length + 1 = start + 0 by omega]
   exact reached
 · rcases located with own | old
   · refine receiving.insert_bytes empty ?_ ?_ ?_ returned
     · rw [show firstIndex = segment.position - 1 by omega]
       exact carries.payload
     · intro index low high
       exact bytesReached index (by omega) (by omega)
     · intro fin
       have last := carries.last fin
       refine ⟨by omega, last.1, ?_⟩
       rw [show written.length + 1 = start + segment.message.payload.length by omega]
       exact finReached fin
   · have small := carries.small
     rw [Receiving.insert_old empty (by omega)] at returned
     cases returned
     exact receiving

theorem insertPayload_listens {zero seqno : Wrap32} {payload : List Byte} {fin : Bool}
 (returned : state.insertPayload zero seqno payload fin = some result) :
 result.zeroPoint.isSome = true := by
 unfold insertPayload at returned
 dsimp only at returned
 split at returned
 · cases returned
   rfl
 · obtain ⟨reassembler, -, outcome⟩ := map_eq_some_iff.mp returned
   rw [← outcome]
   rfl

theorem insertPayload_hearing (receiving : Receiving written finSent received delivered
 state.reassembler)
 (ackon : state.zeroPoint.isSome = true → state.ackon = wrap state.absoluteAckno isn)
 (carries : Carries written finSent isn segment) (member : segment ∈ received)
 (synReached : Reached received 0) {start : ℕ}
 (start_eq : start = if segment.message.syn then 1 else segment.position)
 (listening : state.zeroPoint.isSome = true ∨
  start = 1 ∧ state.reassembler.output.bytesPushed = 0)
 (behind : state.reassembler.output.bytesPushed ≤ start + (2 ^ 31 - 1))
 (ahead : start ≤ state.absoluteAckno + (2 ^ 31 - 1))
 (inOrder : segment.message.payload = [] → segment.message.fin = true →
  state.reassembler.nextIndex = segment.position - 1)
 (returned : state.insertPayload isn (wrap start isn) segment.message.payload
  segment.message.fin = some result) :
 Hearing written finSent isn received delivered result := by
 have pushed_eq := receiving.sound.next_eq
 have congruent := unwrap_wrap_mod start isn state.reassembler.output.bytesPushed
 have near := unwrap_near (wrap start isn) isn
  state.reassembler.output.bytesPushed
 have one := toNat_le state.reassembler.output.closed
 unfold absoluteAckno at ahead
 unfold insertPayload at returned
 dsimp only at returned
 generalize unwrapped : (wrap start isn).unwrap isn
  state.reassembler.output.bytesPushed = number at congruent near returned
 by_cases atZero : number = 0
 · rw [if_pos atZero] at returned
   cases returned
   have already : state.zeroPoint.isSome = true := by
    rcases listening with open_already | ⟨first, none_pushed⟩
    · exact open_already
    · omega
   exact
    { receiving := receiving
      silent := by intro impossible; cases impossible
      zero := by simp
      ackon := fun _ => ackon already
      synReached := fun _ => synReached }
 · rw [if_neg atZero] at returned
   obtain ⟨reassembler, inserted, outcome⟩ := map_eq_some_iff.mp returned
   have located : number - 1 + 1 = start ∨
    number - 1 + maxPayloadSize ≤ state.reassembler.nextIndex := by
    unfold maxPayloadSize
    omega
   have after := insert receiving carries member start_eq inOrder located inserted
   rw [← outcome]
   exact
    { receiving := after
      silent := by intro impossible; cases impossible
      zero := by simp
      ackon := by
       intro _
       conv_lhs => rw [← wrap_zero isn]
       rw [wrap_add, wrap_add, wrap_add, zero_add]
       rfl
      synReached := fun _ => synReached }

variable (hearing : Hearing written finSent isn received delivered state)
include hearing

theorem unheard (segment : Transmission) :
 Hearing written finSent isn
  (if state.zeroPoint.isSome then received ++ [segment] else received) delivered state := by
 split
 · exact hearing.receive_more [segment]
 · exact hearing

theorem setError :
 Hearing written finSent isn received delivered
  { state with
   reassembler := { state.reassembler with
    output := state.reassembler.output.setError } } where
 receiving := hearing.receiving.setError
 silent := hearing.silent
 zero := hearing.zero
 ackon := hearing.ackon
 synReached := hearing.synReached

theorem receive (carries : Carries written finSent isn segment)
 (behind : state.reassembler.output.bytesPushed ≤ segment.position + (2 ^ 31 - 1))
 (ahead : segment.position ≤ state.absoluteAckno + (2 ^ 31 - 1))
 (inOrder : segment.message.payload = [] → segment.message.fin = true →
  state.zeroPoint.isSome = true →
  state.reassembler.output.bytesPushed = segment.position - 1)
 (returned : state.receive segment.message = some result) :
 Hearing written finSent isn
  (if result.zeroPoint.isSome then received ++ [segment] else received) delivered
  result := by
 have next_eq := hearing.receiving.sound.next_eq
 have member : segment ∈ received ++ [segment] :=
  mem_append_right _ mem_cons_self
 unfold TCPReceiver.receive at returned
 by_cases reset : segment.message.rst = true
 · rw [if_pos reset] at returned
   cases returned
   exact hearing.setError.unheard segment
 · rw [if_neg reset] at returned
   by_cases failed : state.reassembler.output.hasError = true
   · rw [if_pos failed] at returned
     cases returned
     exact hearing.unheard segment
   · rw [if_neg failed] at returned
     cases syn : segment.message.syn with
     | true =>
      have atZero := carries.syn.mp syn
      cases zero : state.zeroPoint with
      | some old =>
       rw [syn, zero] at returned
       cases returned
       exact hearing.unheard segment
      | none =>
       rw [syn, zero] at returned
       have seqno : segment.message.seqno = isn := by
        rw [carries.seqno, atZero, wrap_zero]
       have first : isn.add 1 = wrap 1 isn := by
        conv_lhs => rw [← wrap_zero isn]
        rw [wrap_add, zero_add]
       have silent := hearing.silent zero
       have reached : Reached (received ++ [segment]) 0 := by
        refine ⟨segment, member, by omega, ?_⟩
        unfold TCPSenderMessage.sequenceLength
        rw [syn, Bool.toNat_true]
        omega
       rw [seqno, first] at returned
       have after := insertPayload_hearing (hearing.receiving.receive_more [segment])
        (by rw [zero]; intro impossible; cases impossible) carries member reached
        (by rw [syn, if_pos rfl]) (.inr ⟨rfl, silent⟩) (by omega) (by omega)
        (by intro _ _; omega) returned
       rw [if_pos (insertPayload_listens returned)]
       exact after
     | false =>
      cases zero : state.zeroPoint with
      | none =>
       simp_all
      | some old =>
       rw [syn, zero, hearing.zero old zero] at returned
       have listening : state.zeroPoint.isSome = true := by
        rw [zero]
        rfl
       rw [carries.seqno] at returned
       have after := insertPayload_hearing (hearing.receiving.receive_more [segment])
        hearing.ackon carries member (hearing.synReached listening).mono
        (by rw [syn, if_neg Bool.false_ne_true]) (.inl listening) behind ahead
        (fun empty fin => by
         have pushed := inOrder empty fin listening
         omega)
        returned
       rw [if_pos (insertPayload_listens returned)]
       exact after

end Hearing

/-! ### The whole connection -/

/-- Both ends of the connection, and the network between them. -/
structure Sound (state : Connection) : Prop where
 sending : ∃ read sent, TCPSender.Sending state.written read sent state.sender ∧
  ∀ segment ∈ state.segments, ∃ first ∈ sent,
   first.position = segment.position ∧ first.message = segment.message
 finished : state.sender.finFlag = true → state.sender.input.isFinished = true
 hearing : Hearing state.written state.sender.finFlag state.sender.isn state.received
  state.delivered state.receiver

theorem start_sound (sendCapacity receiveCapacity : UInt64) (isn : Wrap32)
 (initialRtoMs : UInt64) :
 Sound (start sendCapacity receiveCapacity isn initialRtoMs) where
 sending := ⟨[], [], TCPSender.new_sending (empty sendCapacity) isn initialRtoMs,
  by intro segment member; cases member⟩
 finished := by intro impossible; cases impossible
 hearing :=
  { receiving :=
     { held := fun stream _ => ⟨new_sound stream _ rfl, rfl⟩
       known := by
        rintro index (below | covered)
        · exact absurd below (not_lt_zero _)
        · exact absurd covered (covers_nil _)
       hadLast := by intro impossible; cases impossible
       closed := by intro impossible; cases impossible }
    silent := fun _ => rfl
    zero := by intro zero impossible; cases impossible
    ackon := by intro impossible; cases impossible
    synReached := by intro impossible; cases impossible }

namespace Sound

variable {state next : Connection}

variable (sound : Sound state)
include sound

theorem carries {segment : Transmission} (member : segment ∈ state.segments) :
 Carries state.written state.sender.finFlag state.sender.isn segment := by
 obtain ⟨read, sent, sending, network⟩ := sound.sending
 obtain ⟨first, isSent, position, message⟩ := network segment member
 have faithful := sending.faithful first isSent
 have finSent := sending.finSent first isSent
 obtain ⟨segmentPosition, segmentMessage, _⟩ := segment
 subst position message
 refine ⟨faithful.seqno, faithful.syn, ?_, faithful.small, fun fin => ?_⟩
 · rw [sending.split, drop_append_of_le_length faithful.start_le]
   exact faithful.payload.trans (prefix_append _ _)
 · have flag := finSent fin
   have drained := (isFinished_iff _).mp (sound.finished flag)
   refine ⟨flag, ?_⟩
   rw [sending.split, drained.2, append_nil]
   exact faithful.last fin

theorem sender_step {sender : TCPSender} {written : List Byte} {segments : List Transmission}
 (written_eq : written = state.written ++ more) (noMore : state.sender.finFlag = true → more = [])
 (isn : sender.isn = state.sender.isn) (flag : state.sender.finFlag = true → sender.finFlag = true)
 (finished : sender.finFlag = true → sender.input.isFinished = true)
 (sending : ∃ read sent, TCPSender.Sending written read sent sender ∧
  ∀ segment ∈ segments, ∃ first ∈ sent,
   first.position = segment.position ∧ first.message = segment.message) :
 Sound { state with sender := sender, written := written, segments := segments } where
 sending := sending
 finished := finished
 hearing := by
  have hearing := sound.hearing
  have receiving := (hearing.receiving.write_more noMore).fin_sent flag
  rw [← written_eq] at receiving
  refine ⟨receiving, hearing.silent, ?_, ?_, hearing.synReached⟩
  · rw [isn]
    exact hearing.zero
  · rw [isn]
    exact hearing.ackon

theorem write {data : List Byte} (beforeFin : state.sender.finFlag = true →
  min state.sender.input.availableCapacity data.length = 0) :
 Sound
  { state with
   sender := { state.sender with input := state.sender.input.push data }
   written := state.written ++
    data.take (min state.sender.input.availableCapacity data.length) } := by
 obtain ⟨read, sent, sending, network⟩ := sound.sending
 refine sound.sender_step rfl ?_ rfl id ?_ ⟨read, sent, sending.write data, network⟩
 · simp_all
 · intro flag
   have drained := (isFinished_iff _).mp (sound.finished flag)
   refine (isFinished_iff _).mpr ⟨?_, ?_⟩
   · simp_all
   · rw [push_contents, beforeFin flag, take_zero, append_nil]
     exact drained.2

theorem close :
 Sound { state with sender := { state.sender with input := state.sender.input.close } } := by
 obtain ⟨read, sent, sending, network⟩ := sound.sending
 refine sound.sender_step (append_nil _).symm (fun _ => rfl) rfl id ?_
  ⟨read, sent, { sending with }, network⟩
 intro flag
 have drained := (isFinished_iff _).mp (sound.finished flag)
 exact (isFinished_iff _).mpr ⟨rfl, drained.2⟩

theorem deliverAck (msg : TCPReceiverMessage) :
 Sound { state with sender := state.sender.receive msg } := by
 obtain ⟨read, sent, sending, network⟩ := sound.sending
 obtain ⟨dropped, done⟩ := state.sender.receive_spec msg
 refine sound.sender_step (append_nil _).symm (fun _ => rfl) done.isn ?_ ?_
  ⟨read, sent, sending.receive msg, network⟩
 · rw [done.finFlag]
   exact id
 · rw [done.finFlag, isFinished_iff, done.closed, done.contents]
   intro flag
   exact (isFinished_iff _).mp (sound.finished flag)

theorem push (helper : ReadHelper) :
 Sound { state with
  sender := (state.sender.push helper).1
  segments := state.segments ++ (state.sender.push helper).2 } := by
 obtain ⟨read, sent, sending, network⟩ := sound.sending
 obtain ⟨more, pushed⟩ := sending.push helper
 obtain ⟨isn, flag, finished⟩ := TCPSender.push_finished helper state.sender sound.finished
 refine sound.sender_step (append_nil _).symm (fun _ => rfl) isn flag finished
  ⟨read ++ more, _, pushed, ?_⟩
 intro segment member
 rcases mem_append.mp member with old | new
 · grind
 · grind

theorem tick (msSinceLastTick : UInt64) :
 Sound { state with
  sender := (state.sender.tick msSinceLastTick).1
  segments := state.segments ++ (state.sender.tick msSinceLastTick).2 } := by
 obtain ⟨read, sent, sending, network⟩ := sound.sending
 have ticked := sending.tick msSinceLastTick
 obtain ⟨⟨timer, retransmissionsNum, after, -⟩, transmitted⟩ :=
  state.sender.tick_spec msSinceLastTick
 refine sound.sender_step (append_nil _).symm (fun _ => rfl) (by rw [after]) ?_ ?_
  ⟨read, sent, ticked, ?_⟩
 · rw [after]
   exact id
 · rw [after]
   exact sound.finished
 · intro segment member
   rcases mem_append.mp member with old | new
   · exact network segment old
   · rcases transmitted with nothing | ⟨front, rest, queue, retransmitted⟩
     · rw [nothing] at new
       cases new
     · rw [retransmitted] at new
       rw [mem_singleton.mp new]
       have queued := sending.queued
       rw [queue] at queued
       exact queued.front

theorem deliver {index : ℕ} {segment : Transmission}
 (inNetwork : state.segments[index]? = some segment) (near : Near state (.deliver index))
 (inOrder : InOrder state (.deliver index)) {receiver : TCPReceiver}
 (returned : state.receiver.receive segment.message = some receiver) :
 Sound { state with
  receiver := receiver
  received :=
   if receiver.zeroPoint.isSome then state.received ++ [segment]
   else state.received } where
 sending := sound.sending
 finished := sound.finished
 hearing :=
  have close_by := near segment inNetwork
  sound.hearing.receive (sound.carries (mem_of_getElem? inNetwork)) close_by.1
   close_by.2 (inOrder segment inNetwork) returned

theorem read (len : ℕ) :
 Sound { state with
  receiver := { state.receiver with
   reassembler := state.receiver.reassembler.pop len }
  delivered := state.delivered ++
   state.receiver.reassembler.output.contents.take len } where
 sending := sound.sending
 finished := sound.finished
 hearing :=
  { receiving := sound.hearing.receiving.pop len
    silent := sound.hearing.silent
    zero := sound.hearing.zero
    ackon := sound.hearing.ackon
    synReached := sound.hearing.synReached }

theorem step (helper : ReadHelper) {event : Event} (near : Near state event)
 (inOrder : InOrder state event) (taken : state.step helper event = some next) : Sound next := by
 cases event with
 | write data =>
  cases taken
  exact sound.write inOrder
 | close =>
  cases taken
  exact sound.close
 | push =>
  cases taken
  exact sound.push helper
 | tick msSinceLastTick =>
  cases taken
  exact sound.tick msSinceLastTick
 | deliver index =>
  obtain ⟨segment, inNetwork, outcome⟩ := bind_eq_some_iff.mp taken
  obtain ⟨receiver, returned, result⟩ := map_eq_some_iff.mp outcome
  rw [← result]
  exact sound.deliver inNetwork near inOrder returned
 | acknowledge =>
  cases taken
  exact ⟨sound.sending, sound.finished, sound.hearing⟩
 | deliverAck index =>
  obtain ⟨ack, -, result⟩ := map_eq_some_iff.mp taken
  rw [← result]
  exact sound.deliverAck ack
 | read len =>
  cases taken
  exact sound.read len

theorem safe : Safe state := by
 obtain ⟨receiving, -, -, ackon, synReached⟩ := sound.hearing
 refine ⟨?_, ?_, ?_⟩
 · rw [receiving.pushed]
   exact take_prefix _ _
 · intro closed
   obtain ⟨flag, -, complete⟩ := receiving.closed closed
   have drained := (isFinished_iff _).mp (sound.finished flag)
   refine ⟨drained.1, ?_⟩
   rw [receiving.pushed, complete, take_length]
 · intro ackno given
   have listening : state.receiver.zeroPoint.isSome = true := by
    by_contra deaf
    rw [send] at given
    rw [if_neg deaf] at given
    cases given
   rw [send] at given
   rw [if_pos listening, ackon listening] at given
   refine ⟨(some.inj given).symm, fun number below => ?_⟩
   have pushed_eq := receiving.sound.next_eq
   unfold absoluteAckno at below
   -- The SYN, a byte below the next index, or the FIN of a closed stream.
   rcases Nat.eq_zero_or_pos number with zero | positive
   · rw [zero]
     exact synReached listening
   · by_cases byte : number - 1 < state.receiver.reassembler.nextIndex
     · have reached := (receiving.known (number - 1) (.inl byte)).2
       grind
     · cases closed : state.receiver.reassembler.output.closed with
       | false =>
        grind
       | true =>
        rw [closed, toNat_true] at below
        have finReached := receiving.closed closed
        rw [show number = state.written.length + 1 by omega]
        exact finReached.2.1

end Sound

/-- As long as no empty FIN overtakes the bytes before it and nothing is written
behind a FIN, every reachable state of the connection is safe. -/
theorem safety (helper : ReadHelper) (sendCapacity receiveCapacity : UInt64) (isn : Wrap32)
 (initialRtoMs : UInt64) (events : List Event) (state : Connection)
 (run : Run (Guarded (fun state event => Near state event ∧ InOrder state event)
  (ofFunction (step helper)))
  (start sendCapacity receiveCapacity isn initialRtoMs) events state) :
 Safe state := by
 have sound : Sound state :=
  run.invariant (start_sound sendCapacity receiveCapacity isn initialRtoMs)
   fun _ _ _ sound taken => sound.step helper taken.1.1 taken.1.2 taken.2
 exact sound.safe

theorem safety_reordered :
 ∃ state, Run (Guarded (fun state event => Near state event ∧ InOrder state event)
  (ofFunction (step .peekAndPop))) (start 16 16 ⟨4294967295⟩ 1000)
  [.push, .deliver 0, .acknowledge, .deliverAck 0, .write [7, 8], .push, .close, .push,
   .tick 1000, .deliver 3, .deliver 2, .read 1, .deliver 1] state ∧
  Safe state := by
 obtain ⟨state, replayed⟩ := isSome_iff_exists.mp
  (show (replay (restrict (fun state event => Near state event ∧ InOrder state event)
   (step .peekAndPop)) (start 16 16 ⟨4294967295⟩ 1000)
   [.push, .deliver 0, .acknowledge, .deliverAck 0, .write [7, 8], .push, .close, .push,
    .tick 1000, .deliver 3, .deliver 2, .read 1, .deliver 1]).isSome = true by decide)
 have run := Run.of_replay replayed
 exact ⟨state, run, safety _ _ _ _ _ _ state run⟩

/-- The FIN of a one-byte stream, sent on its own, overtakes the byte: the stream
is closed without it and the ackno covers it. -/
theorem safety_fails_when_fin_overtakes :
 ∃ state, Run (Guarded Near (ofFunction (step .peekAndPop))) (start 16 16 ⟨5⟩ 1000)
  [.push, .deliver 0, .acknowledge, .deliverAck 0, .write [7], .push, .close, .push,
   .deliver 2] state ∧
  ¬ Safe state := by
 have final : (replay (restrict Near (step .peekAndPop)) (start 16 16 ⟨5⟩ 1000)
  [.push, .deliver 0, .acknowledge, .deliverAck 0, .write [7], .push, .close, .push,
   .deliver 2]).map
  (fun state => (state.receiver.reassembler.output.closed,
   state.delivered ++ state.receiver.reassembler.output.contents, state.written)) =
  some (true, [], [7]) := by decide
 obtain ⟨state, replayed, visible⟩ := map_eq_some_iff.mp final
 refine ⟨state, Run.of_replay replayed, fun safe => ?_⟩
 rw [Prod.mk.injEq, Prod.mk.injEq] at visible
 obtain ⟨closed, pushed, written⟩ := visible
 have complete := (safe.closed closed).2
 simp_all

end Connection

end MyNotes.Cs144
