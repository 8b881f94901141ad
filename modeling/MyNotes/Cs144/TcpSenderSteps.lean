/-
What the operations of the TCP sender do, one specification each.

A round of `push` either sends one segment or breaks; the loop rule carries a
property through the rounds.  Later modules use these specifications and never
unfold the operations.
-/

import MyNotes.Cs144.TcpSender

namespace MyNotes.Cs144.TCPSender

open List Bool

variable {helper : ReadHelper} {self next : TCPSender} {transmission : Transmission}

theorem effectiveWindow_eq (self : TCPSender) : self.effectiveWindow = max self.windowSize 1 := by
 unfold effectiveWindow
 split <;> omega

theorem mayPush_iff (self : TCPSender) :
 self.mayPush = true ↔ 0 < self.freeWindow ∧ self.finFlag = false := by
 unfold mayPush freeWindow
 simp

theorem nextMessage_payload (helper : ReadHelper) (self : TCPSender) :
 (self.nextMessage helper).1.payload =
  self.input.contents.take (min maxPayloadSize self.freeWindow) :=
 helper.payload _ _

theorem nextMessage_contents (helper : ReadHelper) (self : TCPSender) :
 self.input.contents =
  (self.nextMessage helper).1.payload ++ (self.nextMessage helper).2.contents := by
 have left : (self.nextMessage helper).2.contents =
  self.input.contents.drop (min maxPayloadSize self.freeWindow) := helper.contents _ _
 rw [nextMessage_payload, left, take_append_drop]

theorem nextMessage_closed (helper : ReadHelper) (self : TCPSender) :
 (self.nextMessage helper).2.closed = self.input.closed :=
 helper.closed _ _

theorem nextMessage_fin (fin : (self.nextMessage helper).1.fin = true) :
 (self.nextMessage helper).2.isFinished = true ∧
  (self.nextMessage helper).1.syn.toNat + (self.nextMessage helper).1.payload.length <
   self.freeWindow := by
 change (!self.finFlag && decide (_ > _) && _) = true at fin
 rw [and_eq_true, and_eq_true, decide_eq_true_eq] at fin
 exact ⟨fin.2, fin.1.2⟩

/-! ### The rounds of push -/

/-- A round that sends `transmission`. -/
structure Sends (old new : TCPSender) (transmission : Transmission) : Prop where
 isn : new.isn = old.isn
 windowSize : new.windowSize = old.windowSize
 sendBase : new.sendBase = old.sendBase
 nextseqno : new.nextseqno = old.nextseqno + transmission.message.sequenceLength
 outstandingNum : new.outstandingNum = old.outstandingNum + transmission.message.sequenceLength
 buffer : new.buffer = old.buffer ++ [transmission.message]
 synFlag : new.synFlag = true
 finFlag : new.finFlag = (old.finFlag || transmission.message.fin)
 running : new.timer.isRunning = true
 closed : new.input.closed = old.input.closed
 contents : old.input.contents = transmission.message.payload ++ new.input.contents
 position : transmission.position = old.nextseqno
 seqno : transmission.message.seqno = Wrap32.wrap old.nextseqno old.isn
 syn : transmission.message.syn = !old.synFlag
 payload_length : transmission.message.payload.length =
  min (min maxPayloadSize old.freeWindow) old.input.contents.length
 fin : transmission.message.fin = true →
  transmission.inputFinished = true ∧ new.input.isFinished = true ∧
   transmission.message.syn.toNat + transmission.message.payload.length < old.freeWindow
 positive : 0 < transmission.message.sequenceLength

/-- A round that breaks: nothing was read, and the SYN had been sent before. -/
structure Breaks (old new : TCPSender) : Prop where
 input : ∃ input : ByteStream, new = { old with input := input } ∧
  input.contents = old.input.contents ∧ input.closed = old.input.closed

theorem pushRound_sends (sent : self.pushRound helper = (next, some transmission)) :
 Sends self next transmission := by
 unfold pushRound at sent
 dsimp only at sent
 split at sent
 · cases sent
 · rename_i nonempty
   cases sent
   refine ⟨rfl, rfl, rfl, rfl, rfl, rfl, rfl, rfl, ?_, nextMessage_closed helper self,
    nextMessage_contents helper self, rfl, rfl, rfl, ?_, ?_, Nat.pos_of_ne_zero nonempty⟩
   · split
     · assumption
     · rfl
   · rw [nextMessage_payload, length_take]
   · intro fin
     have finished := nextMessage_fin fin
     exact ⟨finished.1, finished.1, finished.2⟩

theorem pushRound_breaks (broke : self.pushRound helper = (next, none)) : Breaks self next := by
 unfold pushRound at broke
 dsimp only at broke
 split at broke
 · rename_i empty
   cases broke
   unfold TCPSenderMessage.sequenceLength at empty
   have started : (!self.synFlag).toNat = 0 := by
    change (self.nextMessage helper).1.syn.toNat = 0
    omega
   have noFin : (self.nextMessage helper).1.fin = false :=
    Bool.toNat_eq_zero.mp (by omega)
   have noBytes : (self.nextMessage helper).1.payload = [] :=
    eq_nil_of_length_eq_zero (by omega)
   have contents := nextMessage_contents helper self
   rw [noBytes, nil_append] at contents
   rw [Bool.toNat_eq_zero, Bool.not_eq_false'] at started
   refine ⟨_, ?_, contents.symm, nextMessage_closed helper self⟩
   rw [noFin, Bool.or_false, ← started]
 · cases broke

theorem pushRound_none_iff :
 (self.pushRound helper).2 = none ↔ (self.nextMessage helper).1.sequenceLength = 0 := by
 unfold pushRound
 dsimp only
 split <;> simp [*]

/-- A round that broke would break again. -/
theorem pushRound_again (broke : self.pushRound helper = (next, none)) :
 (next.pushRound helper).2 = none := by
 obtain ⟨input, rfl, contents, closed⟩ := (pushRound_breaks broke).input
 have empty := pushRound_none_iff.mp (congrArg Prod.snd broke)
 rw [pushRound_none_iff, ← empty]
 simp [nextMessage, makeEmptyMessage, TCPSenderMessage.sequenceLength, freeWindow,
  effectiveWindow, ByteStream.isFinished, ByteStream.bytesBuffered_eq, helper.payload,
  helper.contents, helper.closed, contents, closed]

theorem pushLoop_rule {holds : TCPSender → List Transmission → Prop}
 (sends : ∀ old new earlier transmission, holds old earlier → old.mayPush = true →
  Sends old new transmission → holds new (earlier ++ [transmission]))
 (breaks : ∀ old new earlier, holds old earlier → Breaks old new → holds new earlier)
 (helper : ReadHelper) (fuel : ℕ) (self : TCPSender) (earlier : List Transmission)
 (start : holds self earlier) :
 holds (pushLoop helper fuel self).1 (earlier ++ (pushLoop helper fuel self).2) := by
 induction fuel generalizing self earlier with
 | zero =>
  rw [pushLoop, append_nil]
  exact start
 | succ fuel ih =>
  rw [pushLoop]
  by_cases may : self.mayPush = true
  · rw [if_pos may]
    cases round : self.pushRound helper with
    | mk next outcome =>
     cases outcome with
     | none =>
      rw [append_nil]
      exact breaks self next earlier start (pushRound_breaks round)
     | some transmission =>
      have sent := sends self next earlier transmission start may
       (pushRound_sends round)
      have rest := ih next (earlier ++ [transmission]) sent
      simp_all
  · simp_all

theorem push_rule (holds : TCPSender → List Transmission → Prop)
 (sends : ∀ old new earlier transmission, holds old earlier → old.mayPush = true →
  Sends old new transmission → holds new (earlier ++ [transmission]))
 (breaks : ∀ old new earlier, holds old earlier → Breaks old new → holds new earlier)
 (helper : ReadHelper) (self : TCPSender) (earlier : List Transmission)
 (start : holds self earlier) :
 holds (self.push helper).1 (earlier ++ (self.push helper).2) :=
 pushLoop_rule sends breaks helper _ self earlier start

theorem push_finished (helper : ReadHelper) (self : TCPSender)
 (finished : self.finFlag = true → self.input.isFinished = true) :
 (self.push helper).1.isn = self.isn ∧
  (self.finFlag = true → (self.push helper).1.finFlag = true) ∧
  ((self.push helper).1.finFlag = true → (self.push helper).1.input.isFinished = true) := by
 refine push_rule
  (fun final _ => final.isn = self.isn ∧ (self.finFlag = true → final.finFlag = true) ∧
   (final.finFlag = true → final.input.isFinished = true))
  ?_ ?_ helper self [] ⟨rfl, id, finished⟩
 · rintro old new earlier transmission ⟨isn, kept, done⟩ may round
   refine ⟨round.isn.trans isn, ?_, ?_⟩
   · intro flag
     rw [round.finFlag, kept flag, Bool.true_or]
   · intro flag
     rw [round.finFlag, (old.mayPush_iff.mp may).2, Bool.false_or] at flag
     exact (round.fin flag).2.1
 · rintro old new earlier ⟨isn, kept, done⟩ broke
   obtain ⟨input, rfl, contents, closed⟩ := broke.input
   refine ⟨isn, kept, fun flag => ?_⟩
   have drained := (ByteStream.isFinished_iff _).mp (done flag)
   refine (ByteStream.isFinished_iff _).mpr ⟨closed.trans drained.1, contents.trans drained.2⟩

theorem Sends.freeWindow_lt {old new : TCPSender} (sends : Sends old new transmission)
 (base_le : old.sendBase ≤ old.nextseqno) (may : old.mayPush = true) :
 new.freeWindow < old.freeWindow := by
 have free := (old.mayPush_iff.mp may).1
 have window : new.effectiveWindow = old.effectiveWindow := by
  rw [effectiveWindow_eq, effectiveWindow_eq, sends.windowSize]
 have positive := sends.positive
 unfold freeWindow at free ⊢
 rw [window, sends.nextseqno, sends.sendBase]
 omega

theorem pushLoop_ends {fuel : ℕ} (base_le : self.sendBase ≤ self.nextseqno)
 (enough : self.freeWindow ≤ fuel) (may : (pushLoop helper fuel self).1.mayPush = true) :
 ((pushLoop helper fuel self).1.pushRound helper).2 = none := by
 induction fuel generalizing self with
 | zero =>
  have free := (self.mayPush_iff.mp may).1
  omega
 | succ fuel ih =>
  rw [pushLoop] at may ⊢
  split_ifs at may ⊢ with goesOn
  · cases round : self.pushRound helper with
    | mk next outcome =>
     cases outcome with
     | none => exact pushRound_again round
     | some transmission =>
      rw [round] at may
      have sends := pushRound_sends round
      have shrinks := sends.freeWindow_lt base_le goesOn
      refine ih ?_ (by omega) may
      rw [sends.sendBase, sends.nextseqno]
      omega
  · exact absurd may goesOn

/-! ### receive -/

def totalLength (messages : List TCPSenderMessage) : ℕ :=
 (messages.map TCPSenderMessage.sequenceLength).sum

theorem totalLength_cons (message : TCPSenderMessage) (rest : List TCPSenderMessage) :
 totalLength (message :: rest) = message.sequenceLength + totalLength rest := rfl

theorem popAcked_spec (rcvBase : ℕ) (buffer : List TCPSenderMessage) (self : TCPSender)
 (isAck : Bool) :
 ∃ dropped rest, buffer = dropped ++ rest ∧
  popAcked rcvBase buffer self isAck =
   ({ self with
    buffer := rest
    sendBase := self.sendBase + totalLength dropped
    outstandingNum := self.outstandingNum - totalLength dropped },
    isAck || !dropped.isEmpty) ∧
  (dropped ≠ [] → self.sendBase + totalLength dropped ≤ rcvBase) := by
 induction buffer generalizing self isAck with
 | nil => exact ⟨[], [], rfl, by simp [popAcked, totalLength], fun absurd => (absurd rfl).elim⟩
 | cons message rest ih =>
  rw [popAcked]
  by_cases later : self.sendBase + message.sequenceLength > rcvBase
  · refine ⟨[], message :: rest, rfl, ?_, fun absurd => (absurd rfl).elim⟩
    rw [if_pos later]
    simp [totalLength]
  · rw [if_neg later]
    obtain ⟨dropped, kept, split, popped, bound⟩ := ih
     { self with
      sendBase := self.sendBase + message.sequenceLength
      outstandingNum := self.outstandingNum - message.sequenceLength } true
    refine ⟨message :: dropped, kept, by rw [split]; rfl, ?_, fun _ => ?_⟩
    · rw [popped, totalLength_cons]
      grind
    · rw [totalLength_cons]
      by_cases none : dropped = []
      · rw [none]
        simp only [totalLength, map_nil, sum_nil]
        omega
      · have below := bound none
        dsimp only at below
        omega

/-- What processing one message does.  `dropped` are the segments it acknowledges. -/
structure Receives (old new : TCPSender) (msg : TCPReceiverMessage)
 (dropped : List TCPSenderMessage) : Prop where
 isn : new.isn = old.isn
 nextseqno : new.nextseqno = old.nextseqno
 synFlag : new.synFlag = old.synFlag
 finFlag : new.finFlag = old.finFlag
 contents : new.input.contents = old.input.contents
 closed : new.input.closed = old.input.closed
 buffer : old.buffer = dropped ++ new.buffer
 sendBase : new.sendBase = old.sendBase + totalLength dropped
 outstandingNum : new.outstandingNum = old.outstandingNum - totalLength dropped
 kept : dropped = [] → new.timer.isRunning = old.timer.isRunning
 restarted : dropped ≠ [] → new.timer.isRunning = !new.buffer.isEmpty
 window : (new.windowSize = old.windowSize ∧ dropped = [] ∧
  (old.input.hasError = true ∨ msg.rst = true)) ∨
  (new.windowSize = msg.windowSize.toNat ∧
   ¬ (old.input.hasError = true ∨ msg.rst = true))
 acked : dropped ≠ [] → ∃ ackno, msg.ackno = some ackno ∧
  new.sendBase ≤ ackno.unwrap old.isn old.nextseqno

theorem totalLength_nil : totalLength [] = 0 := rfl

theorem receive_spec (self : TCPSender) (msg : TCPReceiverMessage) :
 ∃ dropped, Receives self (self.receive msg) msg dropped := by
 have nothing : ([] : List TCPSenderMessage) ≠ [] → False := fun absurd => absurd rfl
 unfold receive
 by_cases failed : self.input.hasError = true
 · rw [if_pos failed]
   exact ⟨[], rfl, rfl, rfl, rfl, rfl, rfl, rfl, rfl, rfl, fun _ => rfl,
    fun absurd => (nothing absurd).elim, .inl ⟨rfl, rfl, .inl failed⟩,
    fun absurd => (nothing absurd).elim⟩
 · rw [if_neg failed]
   by_cases reset : msg.rst = true
   · rw [if_pos reset]
     exact ⟨[], rfl, rfl, rfl, rfl, rfl, rfl, rfl, rfl, rfl, fun _ => rfl,
      fun absurd => (nothing absurd).elim, .inl ⟨rfl, rfl, .inr reset⟩,
      fun absurd => (nothing absurd).elim⟩
   · rw [if_neg reset]
     have processed : ¬ (self.input.hasError = true ∨ msg.rst = true) :=
      fun either => either.elim failed reset
     have unchanged : Receives self { self with windowSize := msg.windowSize.toNat } msg [] :=
      ⟨rfl, rfl, rfl, rfl, rfl, rfl, rfl, rfl, rfl, fun _ => rfl,
       fun absurd => (nothing absurd).elim, .inr ⟨rfl, processed⟩,
       fun absurd => (nothing absurd).elim⟩
     cases given : msg.ackno with
     | none => exact ⟨[], unchanged⟩
     | some ackno =>
      dsimp only
      by_cases impossible : ackno.unwrap self.isn self.nextseqno > self.nextseqno
      · grind
      · rw [if_neg impossible]
        obtain ⟨dropped, rest, split, popped, bound⟩ := popAcked_spec
         (ackno.unwrap self.isn self.nextseqno) self.buffer
         { self with windowSize := msg.windowSize.toNat } false
        rw [popped, Bool.false_or]
        refine ⟨dropped, ?_⟩
        by_cases none : dropped = []
        · subst none
          rw [isEmpty_nil, Bool.not_true, if_neg Bool.false_ne_true]
          exact ⟨rfl, rfl, rfl, rfl, rfl, rfl, split, rfl, rfl, fun _ => rfl,
           fun absurd => (nothing absurd).elim, .inr ⟨rfl, processed⟩,
           fun absurd => (nothing absurd).elim⟩
        · have acked : (!dropped.isEmpty) = true := by
           rw [Bool.not_eq_true', isEmpty_eq_false_iff]
           exact none
          rw [if_pos acked]
          refine ⟨rfl, rfl, rfl, rfl, rfl, rfl, split, rfl, rfl,
           fun absurd => (none absurd).elim, fun _ => ?_, .inr ⟨rfl, processed⟩,
           fun _ => ⟨ackno, given, bound none⟩⟩
          cases rest with
          | nil => rfl
          | cons head tail => rfl

/-! ### tick -/

theorem tick_spec (self : TCPSender) (msSinceLastTick : UInt64) :
 (∃ timer retransmissionsNum,
  (self.tick msSinceLastTick).1 =
   { self with timer := timer, retransmissionsNum := retransmissionsNum } ∧
  timer.isRunning = self.timer.isRunning) ∧
 ((self.tick msSinceLastTick).2 = [] ∨
  ∃ front rest, self.buffer = front :: rest ∧
   (self.tick msSinceLastTick).2 = [⟨self.sendBase, front, self.input.isFinished⟩]) := by
 obtain ⟨input, isn, initialRtoMs, timer, buffer, windowSize, sendBase, nextseqno,
  outstandingNum, retransmissionsNum, synFlag, finFlag⟩ := self
 have running := timer.tickToRetransTimer_isRunning msSinceLastTick
 unfold tick
 by_cases expired : (timer.tickToRetransTimer msSinceLastTick).isExpired = true
 · rw [if_pos expired]
   rw [RetransTimer.isExpired, and_eq_true] at expired
   have on : timer.isRunning = true := running.symm.trans expired.2
   cases buffer with
   | nil => simp
   | cons front rest =>
    refine ⟨?_, .inr ⟨front, rest, rfl, rfl⟩⟩
    dsimp only
    split
    · simp_all
    · exact ⟨_, retransmissionsNum, rfl, on.symm⟩
 · simp_all

end MyNotes.Cs144.TCPSender
