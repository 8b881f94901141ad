/-
When the TCP sender retransmits, and how its timeout grows (lab 3).

Beside a history of the sender run the clock and the count that its timer stands for: the
milliseconds since the timer was last started over, and the expirations since new data was last
acknowledged.
-/

import MyNotes.Cs144.TcpSenderRuns

namespace MyNotes.Cs144.TCPSender

open Library.Transition List Option Nat RetransTimer

/-- Which messages acknowledge new data: those that complete a segment, as a segment is outstanding
until then, or those with a larger ackno than any before. -/
inductive NewData
 | segment
 | ackno
deriving DecidableEq

/-- The absolute ackno of a message that is not refused. -/
def acceptedAckno (self : TCPSender) (msg : TCPReceiverMessage) : Option ℕ :=
 if self.input.hasError || msg.rst then none
 else msg.ackno.bind fun ackno =>
  let rcvBase := ackno.unwrap self.isn self.nextseqno
  if rcvBase > self.nextseqno then none else some rcvBase

def completesSegment (self : TCPSender) (ackno : ℕ) : Bool :=
 self.buffer.head?.any fun front => self.sendBase + front.sequenceLength ≤ ackno

structure Timing where
 history : History
 elapsed : ℕ
 expirations : ℕ
 highest : ℕ

namespace Timing

def start (input : ByteStream) (isn : Wrap32) (initialRtoMs : UInt64) : Timing :=
 { history := History.start input isn initialRtoMs
   elapsed := 0
   expirations := 0
   highest := 0 }

def sender (self : Timing) : TCPSender := self.history.sender

variable (notion : NewData) (helper : ReadHelper)

def acknowledgesNew (self : Timing) (ackno : ℕ) : Bool :=
 match notion with
 | .segment => self.sender.completesSegment ackno
 | .ackno => decide (self.highest < ackno)

def step (self : Timing) (event : Event) : Option Timing :=
 let next := self.history.step helper event
 some <|
  match event with
  | .push =>
   { self with
    history := next
    elapsed := if self.sender.timer.isRunning then self.elapsed else 0 }
  | .receive msg =>
   match self.sender.acceptedAckno msg with
   | none => { self with history := next }
   | some ackno =>
    { history := next
      elapsed := if self.acknowledgesNew notion ackno then 0 else self.elapsed
      expirations := if self.acknowledgesNew notion ackno then 0 else self.expirations
      highest := max self.highest ackno }
  | .tick msSinceLastTick =>
   if (self.sender.tick msSinceLastTick).2 = [] then
    { self with history := next, elapsed := self.elapsed + msSinceLastTick.toNat }
   else
    { self with
     history := next
     elapsed := 0
     expirations := self.expirations + if self.sender.windowSize ≠ 0 then 1 else 0 }
  | _ => { self with history := next }

/-- A transmission of the first segment that is not fully acknowledged. -/
def Oldest (history : History) (transmission : Transmission) : Prop :=
 ∃ first ∈ history.sent, first.message = transmission.message ∧
  first.position = transmission.position ∧
  history.sender.sendBase < first.position + first.message.sequenceLength ∧
  ∀ other ∈ history.sent,
   other.position + other.message.sequenceLength ≤ history.sender.sendBase ∨
    first.position ≤ other.position

/-- A tick retransmits when it is time to, and then the oldest segment only. -/
def Timely (self : Timing) : Event → Prop
 | .tick msSinceLastTick =>
  ((self.sender.tick msSinceLastTick).2 ≠ [] ↔ self.sender.timer.isRunning = true ∧
   self.sender.timer.rto.toNat ≤ self.elapsed + msSinceLastTick.toNat) ∧
  ∀ transmission ∈ (self.sender.tick msSinceLastTick).2,
   (self.sender.tick msSinceLastTick).2 = [transmission] ∧ Oldest self.history transmission
 | _ => True

structure BacksOff (timing : Timing) : Prop where
 counts : timing.sender.retransmissionsNum = timing.expirations
 rto : timing.sender.timer.isRunning = true →
  timing.sender.initialRtoMs.toNat * 2 ^ timing.sender.retransmissionsNum < 2 ^ 64 →
   timing.sender.timer.rto.toNat =
    timing.sender.initialRtoMs.toNat * 2 ^ timing.sender.retransmissionsNum

/-- What a step has to be: its tick is timely, and it leads to a timeout that has backed off. -/
def Correct (self : Timing) (event : Event) : Prop :=
 self.Timely event ∧ ∀ next, self.step notion helper event = some next → next.BacksOff

/-- The time of the timer does not wrap.  Where an ackno inside a segment counts as well, the timer
does not expire too early after one, and none comes between retransmissions. -/
def Allowed (self : Timing) : Event → Prop
 | .tick msSinceLastTick => self.sender.timer.isRunning = true →
  self.sender.timer.time.toNat + msSinceLastTick.toNat < 2 ^ 64 ∧
   (notion = .ackno →
    self.sender.timer.rto.toNat ≤ self.sender.timer.time.toNat + msSinceLastTick.toNat →
     self.sender.timer.rto.toNat ≤ self.elapsed + msSinceLastTick.toNat)
 | .receive msg => notion = .ackno → ∀ ackno, self.sender.acceptedAckno msg = some ackno →
  self.highest < ackno → self.sender.completesSegment ackno = false →
   self.sender.retransmissionsNum = 0
 | _ => True

end Timing

/-! ### What the operations do to the timer -/

variable {helper : ReadHelper}

/-- The timer is as before, or it was idle and has been started over. -/
structure KeepsTime (old new : TCPSender) : Prop where
 initialRtoMs : new.initialRtoMs = old.initialRtoMs
 retransmissionsNum : new.retransmissionsNum = old.retransmissionsNum
 timer : new.timer = old.timer ∨
  old.timer.isRunning = false ∧ new.timer = (old.timer.loadRto old.initialRtoMs).startNew

theorem KeepsTime.refl (self : TCPSender) : KeepsTime self self := ⟨rfl, rfl, .inl rfl⟩

theorem KeepsTime.trans {first second third : TCPSender} (one : KeepsTime first second)
 (two : KeepsTime second third) : KeepsTime first third := by
 refine ⟨two.initialRtoMs.trans one.initialRtoMs,
  two.retransmissionsNum.trans one.retransmissionsNum, ?_⟩
 rcases one.timer with same | ⟨idle, started⟩
 · rw [← same, ← one.initialRtoMs]
   exact two.timer
 · rcases two.timer with same | ⟨idle', -⟩
   · exact .inr ⟨idle, same.trans started⟩
   · rw [started] at idle'
     cases idle'

theorem pushRound_keepsTime (self : TCPSender) : KeepsTime self (self.pushRound helper).1 := by
 rw [pushRound]
 dsimp only
 split
 · exact ⟨rfl, rfl, .inl rfl⟩
 · refine ⟨rfl, rfl, ?_⟩
   cases running : self.timer.isRunning with
   | true => exact .inl rfl
   | false => exact .inr ⟨rfl, rfl⟩

theorem pushLoop_keepsTime (fuel : ℕ) (self : TCPSender) :
 KeepsTime self (pushLoop helper fuel self).1 := by
 induction fuel generalizing self with
 | zero => exact .refl self
 | succ fuel ih =>
  rw [pushLoop]
  split
  · have round : KeepsTime self (self.pushRound helper).1 := pushRound_keepsTime self
    split
    · simp_all
    · rename_i next transmission sent
      rw [sent] at round
      exact round.trans (ih next)
  · exact .refl self

theorem popAcked_true (rcvBase : ℕ) (buffer : List TCPSenderMessage) (self : TCPSender) :
 (popAcked rcvBase buffer self true).2 = true := by
 obtain ⟨dropped, rest, -, popped, -⟩ := popAcked_spec rcvBase buffer self true
 rw [popped, Bool.true_or]

theorem popAcked_flag (rcvBase : ℕ) (self : TCPSender) :
 (popAcked rcvBase self.buffer self false).2 = self.completesSegment rcvBase := by
 rw [completesSegment]
 cases self.buffer with
 | nil => rfl
 | cons message rest =>
  rw [popAcked, head?_cons, any_some]
  split
  · simp_all
  · rename_i ends
    rw [popAcked_true]
    simp_all

theorem popAcked_front (rcvBase : ℕ) (buffer : List TCPSenderMessage) (self : TCPSender)
 (isAck : Bool) :
 (popAcked rcvBase buffer self isAck).1.completesSegment rcvBase = false := by
 induction buffer generalizing self isAck with
 | nil => rfl
 | cons message rest ih =>
  rw [popAcked]
  split
  · rename_i later
    exact decide_eq_false (not_le.mpr later)
  · exact ih _ _

/-- The state after a message that completes no segment. -/
structure Stays (old new : TCPSender) : Prop where
 initialRtoMs : new.initialRtoMs = old.initialRtoMs
 retransmissionsNum : new.retransmissionsNum = old.retransmissionsNum
 timer : new.timer = old.timer
 buffer : new.buffer = old.buffer
 sendBase : new.sendBase = old.sendBase

structure StartsOver (old new : TCPSender) : Prop where
 initialRtoMs : new.initialRtoMs = old.initialRtoMs
 retransmissionsNum : new.retransmissionsNum = 0
 timer : new.timer = if new.buffer.isEmpty then
  (old.timer.loadRto old.initialRtoMs).stopRetrans
  else (old.timer.loadRto old.initialRtoMs).startNew

variable {msg : TCPReceiverMessage} {self : TCPSender}

theorem receive_refused (refused : self.acceptedAckno msg = none) :
 Stays self (self.receive msg) := by
 rw [acceptedAckno] at refused
 rw [receive]
 by_cases failed : self.input.hasError = true
 · rw [if_pos failed]
   exact ⟨rfl, rfl, rfl, rfl, rfl⟩
 · rw [if_neg failed]
   by_cases reset : msg.rst = true
   · rw [if_pos reset]
     exact ⟨rfl, rfl, rfl, rfl, rfl⟩
   · rw [Bool.eq_false_iff.mpr failed, Bool.eq_false_iff.mpr reset, Bool.or_false,
      if_neg Bool.false_ne_true] at refused
     rw [if_neg reset]
     cases given : msg.ackno with
     | none => exact ⟨rfl, rfl, rfl, rfl, rfl⟩
     | some ackno =>
      rw [given, bind_some] at refused
      dsimp only at refused ⊢
      split at refused
      · rename_i impossible
        rw [if_pos impossible]
        exact ⟨rfl, rfl, rfl, rfl, rfl⟩
      · cases refused

theorem receive_accepted {rcvBase : ℕ} (accepted : self.acceptedAckno msg = some rcvBase) :
 rcvBase ≤ self.nextseqno ∧ (self.receive msg).completesSegment rcvBase = false ∧
  (self.completesSegment rcvBase = false → Stays self (self.receive msg)) ∧
  (self.completesSegment rcvBase = true → StartsOver self (self.receive msg)) := by
 rw [acceptedAckno] at accepted
 split at accepted
 · cases accepted
 · rename_i processed
   rw [Bool.or_eq_true, not_or] at processed
   obtain ⟨ackno, given, known⟩ := bind_eq_some_iff.mp accepted
   dsimp only at known
   split at known
   · cases known
   · rename_i below
     have same := some.inj known
     have flag := popAcked_flag rcvBase { self with windowSize := msg.windowSize.toNat }
     have front := popAcked_front rcvBase self.buffer
      { self with windowSize := msg.windowSize.toNat } false
     obtain ⟨dropped, rest, split, popped, -⟩ := popAcked_spec rcvBase self.buffer
      { self with windowSize := msg.windowSize.toNat } false
     rw [receive, if_neg processed.1, if_neg processed.2, given]
     dsimp only at flag ⊢
     rw [if_neg below, same]
     refine ⟨same ▸ Nat.le_of_not_lt below, ?_⟩
     change _ = self.completesSegment rcvBase at flag
     rw [popped] at flag front ⊢
     rw [Bool.false_or] at flag
     cases complete : self.completesSegment rcvBase with
     | false =>
      rw [complete] at flag
      have none : dropped = [] := by
       rw [Bool.not_eq_false', List.isEmpty_iff] at flag
       exact flag
      subst none
      rw [Bool.false_or, flag, if_neg Bool.false_ne_true]
      exact ⟨front, fun _ => ⟨rfl, rfl, rfl, split.symm, rfl⟩, nofun⟩
     | true =>
      rw [complete] at flag
      rw [Bool.false_or, flag, if_pos rfl]
      exact ⟨front, nofun, fun _ => ⟨rfl, rfl, rfl⟩⟩

theorem isExpired_iff (timer : RetransTimer) (ms : UInt64) :
 (timer.tickToRetransTimer ms).isExpired = true ↔
  timer.isRunning = true ∧ timer.rto.toNat ≤ (timer.time.toNat + ms.toNat) % 2 ^ 64 := by
 rw [tickToRetransTimer, isExpired, Bool.and_eq_true,
  decide_eq_true_eq, and_comm, isRunning]
 split
 · rename_i running
   rw [ge_iff_le, UInt64.le_iff_toNat_le, UInt64.toNat_add]
 · simp_all

variable {ms : UInt64}

theorem tick_quiet (quiet : ¬ (self.timer.tickToRetransTimer ms).isExpired = true) :
 self.tick ms = ({ self with timer := self.timer.tickToRetransTimer ms }, []) := by
 rw [tick]
 rw [if_neg quiet]

variable {rest : List TCPSenderMessage}

theorem tick_expired {front : TCPSenderMessage} (queue : self.buffer = front :: rest)
 (expired : (self.timer.tickToRetransTimer ms).isExpired = true) :
 self.tick ms =
  ({ self with
   retransmissionsNum := self.retransmissionsNum + if self.windowSize ≠ 0 then 1 else 0
   timer := ⟨if self.windowSize ≠ 0 then self.timer.rto * 2 else self.timer.rto, 0, true⟩ },
   [⟨self.sendBase, front, self.input.isFinished⟩]) := by
 have rto : (self.timer.tickToRetransTimer ms).rto = self.timer.rto := by
  rw [tickToRetransTimer]
  split
  · rfl
  · rfl
 rw [tick]
 rw [if_pos expired, queue]
 dsimp only
 split
 · rename_i opened
   rw [startNew, backoff, rto]
 · rename_i closed
   rw [startNew, rto]
   rfl

/-! ### The segments that are outstanding -/

theorem totalLength_append (first second : List TCPSenderMessage) :
 totalLength (first ++ second) = totalLength first + totalLength second := by
 rw [totalLength, map_append, List.sum_append]
 rfl

/-- First transmissions that lie end to end from `base`. -/
def Laid : ℕ → List Transmission → Prop
 | _, [] => True
 | base, first :: rest =>
  first.position = base ∧ 0 < first.message.sequenceLength ∧
   Laid (base + first.message.sequenceLength) rest

section

variable {base : ℕ} {queued : List Transmission} (laid : Laid base queued)
include laid

theorem Laid.snoc {last : Transmission} (positive : 0 < last.message.sequenceLength)
 (position : last.position = base + totalLength (queued.map Transmission.message)) :
 Laid base (queued ++ [last]) := by
 induction queued generalizing base with
 | nil => exact ⟨position, positive, trivial⟩
 | cons first rest ih =>
  obtain ⟨start, nonempty, tail⟩ := laid
  refine ⟨start, nonempty, ih tail ?_⟩
  rw [position, map_cons, totalLength_cons, add_assoc]

theorem Laid.le_position {other : Transmission} (member : other ∈ queued) :
 base ≤ other.position := by
 induction queued generalizing base with
 | nil => cases member
 | cons first rest ih =>
  obtain ⟨start, nonempty, tail⟩ := laid
  rcases mem_cons.mp member with rfl | later
  · exact le_of_eq start.symm
  · grind

theorem Laid.drop {dropped : List TCPSenderMessage}
 (split : queued.map Transmission.message = dropped ++ rest) :
 ∃ done left, queued = done ++ left ∧ left.map Transmission.message = rest ∧
  (∀ first ∈ done, first.position + first.message.sequenceLength ≤
   base + totalLength dropped) ∧ Laid (base + totalLength dropped) left := by
 induction dropped generalizing base queued with
 | nil => exact ⟨[], queued, rfl, split, nofun, laid⟩
 | cons message dropped ih =>
  cases queued with
  | nil => cases split
  | cons first others =>
   obtain ⟨start, nonempty, tail⟩ := laid
   obtain ⟨same, splits⟩ := cons.inj split
   obtain ⟨done, left, whole, messages, ends, later⟩ := ih tail splits
   rw [totalLength_cons, ← same, ← add_assoc]
   refine ⟨first :: done, left, congrArg _ whole, messages, fun other member => ?_, later⟩
   rcases mem_cons.mp member with rfl | inside
   · omega
   · exact ends other inside

end

/-- The first transmissions are those that are complete and then those of the queue. -/
structure Aligned (sent : List Transmission) (state : TCPSender) : Prop where
 parts : ∃ acked queued, sent = acked ++ queued ∧
  (∀ first ∈ acked, first.position + first.message.sequenceLength ≤ state.sendBase) ∧
  queued.map Transmission.message = state.buffer ∧ Laid state.sendBase queued
 total : state.sendBase + totalLength state.buffer = state.nextseqno

theorem Aligned.push {sent : List Transmission} {state : TCPSender} (aligned : Aligned sent state)
 (helper : ReadHelper) :
 Aligned (sent ++ (state.push helper).2) (state.push helper).1 := by
 have pushed := push_rule (fun final earlier => Aligned (sent ++ earlier) final) ?_ ?_ helper
  state [] (by rw [append_nil]; exact aligned)
 · rw [nil_append] at pushed
   exact pushed
 · intro old new earlier transmission before may round
   obtain ⟨⟨acked, queued, split, ends, messages, laid⟩, total⟩ := before
   refine ⟨⟨acked, queued ++ [transmission], ?_, ?_, ?_, ?_⟩, ?_⟩
   · grind
   · rw [round.sendBase]
     exact ends
   · rw [map_append, messages, round.buffer]
     rfl
   · rw [round.sendBase]
     refine laid.snoc round.positive ?_
     rw [round.position, messages, total]
   · rw [round.sendBase, round.buffer, round.nextseqno, ← total, totalLength_append,
      add_assoc]
     rfl
 · rintro old new earlier ⟨parts, total⟩ broke
   obtain ⟨input, rfl, -, -⟩ := broke.input
   exact ⟨parts, total⟩

theorem Aligned.receive {sent : List Transmission} {state : TCPSender}
 (aligned : Aligned sent state) (msg : TCPReceiverMessage) :
 Aligned sent (state.receive msg) := by
 obtain ⟨dropped, done⟩ := state.receive_spec msg
 obtain ⟨⟨acked, queued, split, ends, messages, laid⟩, total⟩ := aligned
 rw [done.buffer] at messages total
 obtain ⟨complete, left, whole, rest, finished, later⟩ := laid.drop messages
 refine ⟨⟨acked ++ complete, left, ?_, fun first member => ?_, rest, ?_⟩, ?_⟩
 · rw [split, whole, append_assoc]
 · rw [done.sendBase]
   rcases mem_append.mp member with early | late
   · grind
   · exact finished first late
 · rw [done.sendBase]
   exact later
 · rw [done.sendBase, done.nextseqno, ← total, totalLength_append, add_assoc]

theorem Aligned.oldest {history : History} (aligned : Aligned history.sent history.sender)
 {front : TCPSenderMessage} (queue : history.sender.buffer = front :: rest)
 (inputFinished : Bool) :
 Timing.Oldest history ⟨history.sender.sendBase, front, inputFinished⟩ := by
 obtain ⟨acked, queued, split, ends, messages, laid⟩ := aligned.parts
 rw [queue] at messages
 cases queued with
 | nil => cases messages
 | cons first others =>
  obtain ⟨same, -⟩ := cons.inj messages
  have from_base : ∀ other ∈ first :: others, history.sender.sendBase ≤ other.position :=
   fun other member => laid.le_position member
  obtain ⟨start, nonempty, -⟩ := laid
  refine ⟨first, split ▸ mem_append_right _ mem_cons_self, same, start, by omega,
   fun other member => ?_⟩
  rw [split] at member
  rcases mem_append.mp member with early | late
  · exact .inl (ends other early)
  · exact .inr (start ▸ from_base other late)

/-! ### One step -/

namespace Timing

/-- The timer and the count of a sender are those beside it, as long as no time has wrapped. -/
structure Clocked (notion : NewData) (sender : TCPSender) (elapsed expirations : ℕ) : Prop where
 clock : sender.timer.isRunning = true → elapsed ≤ sender.timer.time.toNat ∧
  (notion = .segment → elapsed = sender.timer.time.toNat)
 fresh : sender.timer.isRunning = true →
  sender.timer.time.toNat = 0 ∨ sender.timer.time.toNat < sender.timer.rto.toNat
 counts : sender.retransmissionsNum = expirations
 rto : sender.timer.isRunning = true → sender.timer.rto.toNat =
  sender.initialRtoMs.toNat * 2 ^ sender.retransmissionsNum % 2 ^ 64
 idle : sender.timer.isRunning = false → sender.retransmissionsNum = 0

structure Sound (notion : NewData) (timing : Timing) : Prop where
 holds : timing.history.Holds
 aligned : Aligned timing.history.sent timing.sender
 clocked : Clocked notion timing.sender timing.elapsed timing.expirations
 highest : timing.highest ≤ timing.sender.nextseqno
 inside : timing.sender.completesSegment timing.highest = false

variable {notion : NewData} {self next : Timing} {sender after : TCPSender}
 {elapsed expirations highest : ℕ}

theorem start_sound (input : ByteStream) (isn : Wrap32) (initialRtoMs : UInt64) :
 (start input isn initialRtoMs).Sound notion where
 holds := History.start_holds input isn initialRtoMs
 aligned := ⟨⟨[], [], rfl, nofun, rfl, trivial⟩, rfl⟩
 clocked := ⟨nofun, nofun, rfl, nofun, fun _ => rfl⟩
 highest := le_refl 0
 inside := rfl

theorem Sound.backsOff (sound : self.Sound notion) : self.BacksOff :=
 ⟨sound.clocked.counts, fun running fits => by
  rw [sound.clocked.rto running, mod_eq_of_lt fits]⟩

theorem Clocked.started {rto : UInt64} (timer : after.timer = ⟨rto, 0, true⟩)
 (loaded : rto.toNat =
  after.initialRtoMs.toNat * 2 ^ after.retransmissionsNum % 2 ^ 64)
 (counts : after.retransmissionsNum = expirations) :
 Clocked notion after 0 expirations := by
 refine ⟨fun _ => ⟨zero_le _, fun _ => ?_⟩, fun _ => .inl ?_, counts, fun _ => ?_,
  fun idle => ?_⟩
 · rw [timer]
   rfl
 · rw [timer]
   rfl
 · rw [timer]
   exact loaded
 · rw [timer] at idle
   cases idle

theorem Clocked.keepsTime (clocked : Clocked notion sender elapsed expirations)
 (keeps : KeepsTime sender after) :
 Clocked notion after (if sender.timer.isRunning then elapsed else 0) expirations := by
 obtain ⟨initial, num, timer⟩ := keeps
 rcases timer with same | ⟨idle, started⟩
 · refine ⟨fun running => ?_, ?_, num.trans clocked.counts, ?_, ?_⟩
   · rw [same] at running ⊢
     rw [if_pos running]
     exact clocked.clock running
   · rw [same]
     exact clocked.fresh
   · rw [same, num, initial]
     exact clocked.rto
   · rw [same, num]
     exact clocked.idle
 · rw [if_neg (Bool.eq_false_iff.mp idle)]
   refine .started started ?_ (num.trans clocked.counts)
   rw [initial, num, clocked.idle idle, pow_zero, mul_one,
    mod_eq_of_lt sender.initialRtoMs.toNat_lt]
   rfl

theorem Clocked.stays (clocked : Clocked notion sender elapsed expirations)
 (stays : Stays sender after) {elapsed' expirations' : ℕ}
 (counts : sender.retransmissionsNum = expirations')
 (clock : sender.timer.isRunning = true → elapsed' ≤ sender.timer.time.toNat ∧
  (notion = .segment → elapsed' = sender.timer.time.toNat)) :
 Clocked notion after elapsed' expirations' := by
 obtain ⟨initial, num, timer, -, -⟩ := stays
 refine ⟨?_, ?_, num.trans counts, ?_, ?_⟩
 · rw [timer]
   exact clock
 · rw [timer]
   exact clocked.fresh
 · rw [timer, num, initial]
   exact clocked.rto
 · rw [timer, num]
   exact clocked.idle

theorem StartsOver.clocked (reload : StartsOver sender after) : Clocked notion after 0 0 := by
 obtain ⟨initial, num, timer⟩ := reload
 split at timer
 · refine ⟨?_, ?_, num, ?_, fun _ => num⟩
   all_goals
    rw [timer]
    exact nofun
 · refine .started timer ?_ num
   rw [initial, num, pow_zero, mul_one, mod_eq_of_lt sender.initialRtoMs.toNat_lt]
   rfl

theorem Clocked.waits (clocked : Clocked notion sender elapsed expirations) {ms : UInt64}
 (fits : sender.timer.isRunning = true → sender.timer.time.toNat + ms.toNat < 2 ^ 64)
 (quiet : ¬ (sender.timer.tickToRetransTimer ms).isExpired = true) :
 Clocked notion { sender with timer := sender.timer.tickToRetransTimer ms }
  (elapsed + ms.toNat) expirations := by
 rw [isExpired_iff, not_and] at quiet
 have same : (sender.timer.tickToRetransTimer ms).rto = sender.timer.rto := by
  rw [tickToRetransTimer]
  split
  · rfl
  · rfl
 have time (running : sender.timer.isRunning = true) :
  (sender.timer.tickToRetransTimer ms).time.toNat = sender.timer.time.toNat + ms.toNat := by
  have on : sender.timer.running = true := running
  rw [tickToRetransTimer, if_pos on, UInt64.toNat_add,
   Nat.mod_eq_of_lt (fits running)]
 have kept := sender.timer.tickToRetransTimer_isRunning ms
 refine ⟨fun running => ?_, fun running => .inr ?_, clocked.counts, fun running => ?_,
  fun idle => clocked.idle (kept.symm.trans idle)⟩
 all_goals
  have on := kept.symm.trans running
  dsimp only
 · obtain ⟨below, equal⟩ := clocked.clock on
   rw [time on]
   exact ⟨Nat.add_le_add_right below _, fun segment => by rw [equal segment]⟩
 · have short := quiet on
   grind
 · rw [same]
   exact clocked.rto on

theorem Clocked.retransmits (clocked : Clocked notion sender elapsed expirations)
 (running : sender.timer.isRunning = true) :
 Clocked notion
  { sender with
   retransmissionsNum := sender.retransmissionsNum + if sender.windowSize ≠ 0 then 1 else 0
   timer := ⟨if sender.windowSize ≠ 0 then sender.timer.rto * 2 else sender.timer.rto, 0,
    true⟩ }
  0 (expirations + if sender.windowSize ≠ 0 then 1 else 0) := by
 have before := clocked.rto running
 refine .started rfl ?_ (by rw [clocked.counts])
 split
 · have doubled : sender.initialRtoMs.toNat * 2 ^ (sender.retransmissionsNum + 1) =
    sender.initialRtoMs.toNat * 2 ^ sender.retransmissionsNum * 2 := by
    rw [pow_succ, mul_assoc]
   simp_all
 · exact before

theorem push_inside (helper : ReadHelper)
 (total : sender.sendBase + totalLength sender.buffer = sender.nextseqno)
 (below : highest ≤ sender.nextseqno) (inside : sender.completesSegment highest = false) :
 highest ≤ (sender.push helper).1.nextseqno ∧
  (sender.push helper).1.completesSegment highest = false := by
 have kept := push_rule (fun final _ => final.sendBase + totalLength final.buffer =
  final.nextseqno ∧ highest ≤ final.nextseqno ∧ final.completesSegment highest = false)
  ?_ ?_ helper sender [] ⟨total, below, inside⟩
 · exact kept.2
 · rintro old new earlier transmission ⟨total, below, inside⟩ may round
   refine ⟨?_, ?_, ?_⟩
   · rw [round.sendBase, round.buffer, round.nextseqno, ← total, totalLength_append,
      add_assoc]
     rfl
   · rw [round.nextseqno]
     omega
   · rw [completesSegment] at inside ⊢
     rw [round.buffer, round.sendBase]
     cases queue : old.buffer with
     | nil =>
      rw [queue, totalLength_nil, add_zero] at total
      have positive := round.positive
      exact decide_eq_false (by omega)
     | cons front rest =>
      rw [queue] at inside
      exact inside
 · rintro old new earlier ⟨total, below, inside⟩ broke
   obtain ⟨input, rfl, -, -⟩ := broke.input
   exact ⟨total, below, inside⟩

theorem completesSegment_mono {low high : ℕ} (less : low ≤ high)
 (complete : sender.completesSegment low = true) : sender.completesSegment high = true := by
 rw [completesSegment, Option.any_eq_true] at complete ⊢
 grind

theorem completesSegment_congr {old new : TCPSender} (stays : Stays old new) (ackno : ℕ) :
 new.completesSegment ackno = old.completesSegment ackno := by
 rw [completesSegment, completesSegment, stays.buffer, stays.sendBase]

section

variable (sound : self.Sound notion)
include sound

theorem Sound.input {history : History} {input : ByteStream} (holds : history.Holds)
 (sent : history.sent = self.history.sent)
 (same : history.sender = { self.sender with input := input }) :
 Sound notion { self with history := history } := by
 have unchanged : Aligned history.sent history.sender ∧
  Clocked notion history.sender self.elapsed self.expirations ∧
  self.highest ≤ history.sender.nextseqno ∧
  history.sender.completesSegment self.highest = false := by
  rw [sent, same]
  exact ⟨⟨sound.aligned.parts, sound.aligned.total⟩,
   ⟨sound.clocked.clock, sound.clocked.fresh, sound.clocked.counts, sound.clocked.rto,
    sound.clocked.idle⟩, sound.highest, sound.inside⟩
 exact ⟨holds, unchanged.1, unchanged.2.1, unchanged.2.2.1, unchanged.2.2.2⟩

theorem Sound.push (taken : self.step notion helper .push = some next) : next.Sound notion := by
 cases taken
 obtain ⟨highest, inside⟩ := push_inside helper sound.aligned.total sound.highest sound.inside
 exact ⟨sound.holds.step helper .push, sound.aligned.push helper,
  sound.clocked.keepsTime (pushLoop_keepsTime _ _), highest, inside⟩

theorem Sound.receive (allowed : self.Allowed notion (.receive msg))
 (taken : self.step notion helper (.receive msg) = some next) : next.Sound notion := by
 have holds := sound.holds.step helper (.receive msg)
 have aligned := sound.aligned.receive msg
 obtain ⟨dropped, done⟩ := self.sender.receive_spec msg
 have reach := done.nextseqno
 simp only [step, some.injEq] at taken
 split at taken
 · rename_i refused
   subst taken
   have stays := receive_refused refused
   refine ⟨holds, aligned, sound.clocked.stays stays sound.clocked.counts sound.clocked.clock,
    Nat.le_trans sound.highest (Nat.le_of_eq reach.symm), ?_⟩
   exact (completesSegment_congr stays _).trans sound.inside
 · rename_i ackno accepted
   subst taken
   obtain ⟨below, beyond, quiet, reloads⟩ := receive_accepted accepted
   have bound : max self.highest ackno ≤ (self.sender.receive msg).nextseqno :=
    Nat.le_trans (Nat.max_le.mpr ⟨sound.highest, below⟩) (Nat.le_of_eq reach.symm)
   cases complete : self.sender.completesSegment ackno with
   | false =>
    have stays := quiet complete
    have inside : self.sender.completesSegment (max self.highest ackno) = false := by
     rcases Nat.le_total self.highest ackno with less | less
     · simp_all
     · rw [Nat.max_eq_left less]
       exact sound.inside
    refine ⟨holds, aligned, ?_, bound, (completesSegment_congr stays _).trans inside⟩
    cases news : self.acknowledgesNew notion ackno with
    | false => exact sound.clocked.stays stays sound.clocked.counts sound.clocked.clock
    | true =>
     -- only an ackno that reaches into a segment is news here
     have notSegment : notion = .ackno := by
      cases notion with
      | segment => exact absurd (complete.symm.trans news) nofun
      | ackno => rfl
     subst notSegment
     have larger : self.highest < ackno := of_decide_eq_true news
     refine sound.clocked.stays stays (allowed rfl ackno accepted larger complete)
      fun _ => ⟨Nat.zero_le _, nofun⟩
   | true =>
    have larger : self.highest < ackno := by
     by_contra least
     have all := completesSegment_mono (Nat.le_of_not_lt least) complete
     rw [sound.inside] at all
     cases all
    have news : self.acknowledgesNew notion ackno = true := by
     cases notion with
     | segment => exact complete
     | ackno => exact decide_eq_true larger
    refine ⟨holds, aligned, ?_, bound, ?_⟩
    · rw [news, if_pos rfl, if_pos rfl]
      exact StartsOver.clocked (reloads complete)
    · rw [Nat.max_eq_right (Nat.le_of_lt larger)]
      exact beyond

theorem Sound.tick (allowed : self.Allowed notion (.tick ms))
 (taken : self.step notion helper (.tick ms) = some next) :
 self.Timely (.tick ms) ∧ next.Sound notion := by
 obtain ⟨read, sending⟩ := sound.holds
 have holds := sound.holds.step helper (.tick ms)
 have frame : Aligned self.history.sent (self.sender.tick ms).1 ∧
  self.highest ≤ (self.sender.tick ms).1.nextseqno ∧
  (self.sender.tick ms).1.completesSegment self.highest = false := by
  obtain ⟨⟨timer, num, after, -⟩, -⟩ := self.sender.tick_spec ms
  rw [after]
  exact ⟨⟨sound.aligned.parts, sound.aligned.total⟩, sound.highest, sound.inside⟩
 simp only [step, some.injEq] at taken
 by_cases expired : (self.sender.timer.tickToRetransTimer ms).isExpired = true
 · obtain ⟨running, due⟩ := (isExpired_iff _ _).mp expired
   obtain ⟨front, rest, (queue : self.sender.buffer = front :: rest)⟩ :=
    exists_cons_of_ne_nil (sending.timer.mp running)
   have ticked := tick_expired queue expired
   have some : (self.sender.tick ms).2 ≠ [] := by
    rw [ticked]
    exact cons_ne_nil _ _
   rw [if_neg some] at taken
   subst taken
   obtain ⟨fits, early⟩ := allowed running
   rw [mod_eq_of_lt fits] at due
   refine ⟨⟨iff_of_true some ⟨running, ?_⟩, ?_⟩, holds, frame.1, ?_, frame.2.1, frame.2.2⟩
   · cases notion with
     | segment => rwa [(sound.clocked.clock running).2 rfl]
     | ackno => exact early rfl due
   · rw [ticked]
     intro transmission member
     cases mem_singleton.mp member
     exact ⟨rfl, sound.aligned.oldest queue _⟩
   · change Clocked notion (self.sender.tick ms).1 _ _
     rw [ticked]
     exact sound.clocked.retransmits running
 · have ticked := tick_quiet expired
   have none : (self.sender.tick ms).2 = [] := by rw [ticked]
   rw [if_pos none] at taken
   subst taken
   have waits := sound.clocked.waits (fun running => (allowed running).1) expired
   refine ⟨⟨iff_of_false (fun some => some none) ?_, ?_⟩, holds, frame.1, ?_, frame.2.1, frame.2.2⟩
   · rintro ⟨running, due⟩
     obtain ⟨below, -⟩ := sound.clocked.clock running
     refine expired ((isExpired_iff _ _).mpr ⟨running, ?_⟩)
     rw [mod_eq_of_lt (allowed running).1]
     omega
   · simp_all
   · change Clocked notion (self.sender.tick ms).1 _ _
     rw [ticked]
     exact waits

theorem Sound.step {event : Event} (allowed : self.Allowed notion event)
 (taken : self.step notion helper event = some next) :
 self.Correct notion helper event ∧ next.Sound notion := by
 have both : self.Timely event ∧ next.Sound notion := by
  cases event with
  | push => exact ⟨trivial, sound.push taken⟩
  | receive msg => exact ⟨trivial, sound.receive allowed taken⟩
  | tick ms => exact sound.tick allowed taken
  | write data =>
   cases taken
   exact ⟨trivial, sound.input (sound.holds.step helper (.write data)) rfl rfl⟩
  | close =>
   cases taken
   exact ⟨trivial, sound.input (sound.holds.step helper .close) rfl rfl⟩
  | setError =>
   cases taken
   exact ⟨trivial, sound.input (sound.holds.step helper .setError) rfl rfl⟩
 refine ⟨⟨both.1, fun other taken' => ?_⟩, both.2⟩
 cases taken.symm.trans taken'
 exact both.2.backsOff

end

theorem Sound.allowed (sound : self.Sound .segment) {event : Event}
 (timely : self.Timely event) : self.Allowed .segment event := by
 cases event with
 | tick ms =>
  refine fun running => ⟨?_, nofun⟩
  by_contra wraps
  obtain ⟨iff, -⟩ := timely
  have clock := (sound.clocked.clock running).2 rfl
  have fresh := sound.clocked.fresh running
  have more := ms.toNat_lt
  have rto := self.sender.timer.rto.toNat_lt
  have quiet : ¬ (self.sender.timer.tickToRetransTimer ms).isExpired = true := by
   rw [isExpired_iff]
   rintro ⟨-, due⟩
   omega
  refine iff.mpr ⟨running, by omega⟩ ?_
  rw [tick_quiet quiet]
 | receive msg => exact nofun
 | push => trivial
 | write data => trivial
 | close => trivial
 | setError => trivial

/-- In every run whose steps are allowed, every tick retransmits the oldest segment exactly when the
timeout has passed, and the timeout has backed off; where acknowledgements count by segments, no
other run is like that. -/
theorem retransmission_timing (notion : NewData) (helper : ReadHelper) (input : ByteStream)
 (isn : Wrap32) (initialRtoMs : UInt64) (events : List Event) (final : Timing) :
 (Run (Guarded (Allowed notion) (ofFunction (step notion helper)))
  (start input isn initialRtoMs) events final →
  Run (Guarded (Correct notion helper) (ofFunction (step notion helper)))
   (start input isn initialRtoMs) events final) ∧
 (notion = .segment →
  Run (Guarded (Correct notion helper) (ofFunction (step notion helper)))
   (start input isn initialRtoMs) events final →
  Run (Guarded (Allowed notion) (ofFunction (step notion helper)))
   (start input isn initialRtoMs) events final) := by
 have initial : (start input isn initialRtoMs).Sound notion := start_sound input isn initialRtoMs
 constructor
 · exact Run.guarded_of_guarded initial fun _ _ _ sound allowed taken =>
    sound.step allowed taken
 · rintro rfl
   refine Run.guarded_of_guarded initial fun _ _ _ sound correct taken => ?_
   have allowed := sound.allowed correct.1
   exact ⟨allowed, (sound.step allowed taken).2⟩

/-- A tick that wraps the time of the timer retransmits nothing, a millisecond after the SYN. -/
theorem wrapped_tick_is_late : ¬ ∃ notion, ∀ events final,
 Run (ofFunction (step notion .peekAndPop)) (start (ByteStream.empty 4) ⟨5⟩ 1000) events final →
  Run (Guarded (Correct notion .peekAndPop) (ofFunction (step notion .peekAndPop)))
   (start (ByteStream.empty 4) ⟨5⟩ 1000) events final := by
 rintro ⟨notion, all⟩
 obtain ⟨before, final, first, last, running, rto, elapsed, silent⟩ : ∃ before final,
  replay (step notion .peekAndPop) (start (ByteStream.empty 4) ⟨5⟩ 1000) [.push, .tick 1] =
   some before ∧
  before.step notion .peekAndPop (.tick 18446744073709551615) = some final ∧
  before.sender.timer.isRunning = true ∧ before.sender.timer.rto = 1000 ∧
  before.elapsed = 1 ∧ (before.sender.tick 18446744073709551615).2 = [] := by
  cases notion
  all_goals exact ⟨_, _, rfl, rfl, rfl, rfl, rfl, rfl⟩
 have due : before.sender.timer.isRunning = true ∧
  before.sender.timer.rto.toNat ≤ before.elapsed + (18446744073709551615 : UInt64).toNat := by
  rw [rto, elapsed]
  exact ⟨running, by simp⟩
 have guarded := all _ final ((Run.of_replay_all first).snoc last)
 obtain ⟨middle, reached, correct, -⟩ := guarded.last
 rw [reached.of_guarded.unique (Run.of_replay_all first)] at correct
 exact correct.1.1.mpr due silent

end Timing

end MyNotes.Cs144.TCPSender
