/-
The first byte stream of lab 0, over a deque, beside the last one.

The deque version counts in `int`.  What both versions are to report is computed on machine
words.  The calls come from a writer and a reader; the reader's `read` peeks and pops until it has
as many bytes as it wants, or the stream is empty.
-/

import MyNotes.Cs144.ByteStream

namespace MyNotes.Cs144

open List Option BitVec Nat ByteStream

inductive StreamCall where
 | push (data : List Byte)
 | close
 | pop (len : ℕ)
 | read (len : ℕ)

structure StreamReport where
 bytesPushed : UInt64
 bytesPopped : UInt64
 bytesBuffered : UInt64
 availableCapacity : UInt64
 isClosed : Bool
 isFinished : Bool
 deriving DecidableEq

/-- A reader that peeks and pops, with `len` bytes to go; it gives up at an empty view. -/
def readLoop {Stream : Type} (bytesBuffered : Stream → UInt64) (peek : Stream → List Byte)
 (pop : Stream → ℕ → Stream) : ℕ → Stream → ℕ → Option (List Byte × Stream)
 | rounds, stream, len =>
  if bytesBuffered stream = 0 ∨ len = 0 then some ([], stream)
  else
   let view := (peek stream).take len
   match rounds, view with
   | 0, _ => none
   | _, [] => none
   | rounds + 1, _ :: _ =>
    (readLoop bytesBuffered peek pop rounds (pop stream view.length)
     (len - view.length)).map fun (later, last) => (view ++ later, last)

/-- What a list of calls delivers, and the answers of the queries after each. -/
def streamAnswers {Stream : Type} (call : Stream → StreamCall → Option (List Byte × Stream))
 (report : Stream → StreamReport) :
 Stream → List StreamCall → Option (List (List Byte × StreamReport))
 | _, [] => some []
 | stream, first :: rest =>
  (call stream first).bind fun (delivered, next) =>
   (streamAnswers call report next rest).map fun later =>
    (delivered, report next) :: later

/-! ### The two versions -/

structure DequeByteStream where
 capacity : UInt64
 closed : Bool
 buffer : List Byte
 totalPush : BitVec 32
 totalPop : BitVec 32
 fits : buffer.length ≤ capacity.toNat

namespace DequeByteStream

theorem nil_fits (capacity : UInt64) : ([] : List Byte).length ≤ capacity.toNat := zero_le _

def empty (capacity : UInt64) : DequeByteStream where
 capacity := capacity
 closed := false
 buffer := []
 totalPush := 0
 totalPop := 0
 fits := nil_fits capacity

/-- `+=` of a 64-bit count to an `int`. -/
def increase (total : BitVec 32) (count : ℕ) : BitVec 32 :=
 (total.signExtend 64 + BitVec.ofNat 64 count).setWidth 32

/-- An `int` as a `uint64_t`. -/
def widen (total : BitVec 32) : UInt64 := ⟨total.signExtend 64⟩

section

variable (self : DequeByteStream)

def availableCapacity : ℕ := self.capacity.toNat - self.buffer.length

def push (data : List Byte) : DequeByteStream :=
 if self.closed then self
 else
  let towrite := min self.availableCapacity data.length
  { self with
   buffer := self.buffer ++ data.take towrite
   totalPush := increase self.totalPush towrite
   fits := by
    have fits := self.fits
    have room : towrite ≤ self.capacity.toNat - self.buffer.length := Nat.min_le_left _ _
    grind }

def close : DequeByteStream := { self with closed := true }

def peek : List Byte := self.buffer.take 1

def pop (len : ℕ) : DequeByteStream :=
 let topop := min len self.buffer.length
 { self with
  buffer := self.buffer.drop topop
  totalPop := increase self.totalPop topop
  fits := Nat.le_trans (length_drop ▸ Nat.sub_le _ _) self.fits }

def bytesBuffered : UInt64 := .ofNat self.buffer.length

def read (len : ℕ) : Option (List Byte × DequeByteStream) :=
 readLoop bytesBuffered peek pop len self len

def report : StreamReport where
 bytesPushed := widen self.totalPush
 bytesPopped := widen self.totalPop
 bytesBuffered := self.bytesBuffered
 availableCapacity := self.capacity - self.bytesBuffered
 isClosed := self.closed
 isFinished := self.closed && self.buffer.isEmpty

def call : StreamCall → Option (List Byte × DequeByteStream)
 | .push data => some ([], self.push data)
 | .close => some ([], self.close)
 | .pop len => some ([], self.pop len)
 | .read len => self.read len

def answers (calls : List StreamCall) :
 Option (List (List Byte × StreamReport)) := streamAnswers call report self calls

end

end DequeByteStream

namespace ByteStream

section

variable (self : ByteStream)

/-- `bytes_buffered` on the 64-bit counters. -/
def bufferedWord : UInt64 :=
 .ofNat self.bytesPushed - .ofNat self.bytesPopped

def read (len : ℕ) : Option (List Byte × ByteStream) :=
 readLoop bufferedWord peek pop len self len

def report : StreamReport where
 bytesPushed := .ofNat self.bytesPushed
 bytesPopped := .ofNat self.bytesPopped
 bytesBuffered := self.bufferedWord
 availableCapacity := self.capacity - self.bufferedWord
 isClosed := self.isClosed
 isFinished := self.isClosed && self.bufferedWord == 0

def call : StreamCall → Option (List Byte × ByteStream)
 | .push data => some ([], self.push data)
 | .close => some ([], self.close)
 | .pop len => some ([], self.pop len)
 | .read len => self.read len

def answers (calls : List StreamCall) :
 Option (List (List Byte × StreamReport)) := streamAnswers call report self calls

end

end ByteStream

/-! ### A stream of bytes -/

/-- The bytes of a stream that can be read, and how many were pushed and popped. -/
structure Flow where
 capacity : UInt64
 closed : Bool
 text : List Byte
 pushed : ℕ
 popped : ℕ

namespace Flow

def empty (capacity : UInt64) : Flow := ⟨capacity, false, [], 0, 0⟩

def accepted (flow : Flow) (data : List Byte) : ℕ :=
 min (flow.capacity.toNat - flow.text.length) data.length

def push (flow : Flow) (data : List Byte) : Flow :=
 { flow with
  text := flow.text ++ data.take (flow.accepted data)
  pushed := flow.pushed + flow.accepted data }

def pop (flow : Flow) (len : ℕ) : Flow :=
 { flow with
  text := flow.text.drop len
  popped := flow.popped + min len flow.text.length }

def delivers (flow : Flow) : StreamCall → List Byte
 | .read len => flow.text.take len
 | _ => []

def after (flow : Flow) : StreamCall → Flow
 | .push data => flow.push data
 | .close => { flow with closed := true }
 | .pop len => flow.pop len
 | .read len => flow.pop len

/-- Nothing is pushed for which there is room after the stream is closed. -/
def Harmless (flow : Flow) : StreamCall → Prop
 | .push data => flow.closed = true → flow.accepted data = 0
 | _ => True

/-- A count that is the same number as an `int`. -/
def InRange (count : ℕ) : Prop :=
 count % 2 ^ 64 < 2 ^ 31 ∨ 2 ^ 64 - 2 ^ 31 ≤ count % 2 ^ 64

/-- Every push after the close is one without room or without bytes, and the counts after every
call are the same as `int`. -/
def Meets : Flow → List StreamCall → Prop
 | _, [] => True
 | flow, call :: rest => flow.Harmless call ∧
  (InRange (flow.after call).pushed ∧ InRange (flow.after call).popped) ∧
  Meets (flow.after call) rest

theorem pop_pop {flow : Flow} {first second : ℕ} (inside : first ≤ flow.text.length) :
 (flow.pop first).pop second = flow.pop (first + second) := by
 simp only [pop, drop_drop, length_drop, mk.injEq, true_and]
 omega

theorem push_none {flow : Flow} {data : List Byte} (none : flow.accepted data = 0) :
 flow.push data = flow := by
 unfold push
 simp_all

end Flow

variable {len : ℕ} {flow : Flow}

theorem readLoop_tracks {Stream : Type} {bytesBuffered : Stream → UInt64}
 {peek : Stream → List Byte} {pop : Stream → ℕ → Stream} {Tracks : Stream → Flow → Prop}
 (buffered : ∀ {stream flow}, Tracks stream flow → (bytesBuffered stream = 0 ↔ flow.text = []))
 (front : ∀ {stream flow}, Tracks stream flow → flow.text ≠ [] →
  peek stream ≠ [] ∧ peek stream <+: flow.text)
 (pops : ∀ {stream flow len}, Tracks stream flow → Tracks (pop stream len) (flow.pop len))
 {rounds : ℕ} {stream : Stream} (tracks : Tracks stream flow) (enough : len ≤ rounds) : ∃ last,
  readLoop bytesBuffered peek pop rounds stream len = some (flow.text.take len, last) ∧
   Tracks last (flow.pop len) := by
 induction rounds generalizing stream flow len with
 | zero =>
  cases Nat.le_zero.mp enough
  unfold readLoop
  rw [if_pos (.inr rfl), take_zero]
  have same : flow.pop 0 = flow := by
   simp only [Flow.pop, drop_zero, Nat.zero_min, Nat.add_zero]
  exact ⟨stream, rfl, same.symm ▸ tracks⟩
 | succ rounds ih =>
  unfold readLoop
  by_cases stops : bytesBuffered stream = 0 ∨ len = 0
  · have nothing : flow.text.take len = [] ∧ flow.pop len = flow := by
     rcases stops with none | none
     · have empty := (buffered tracks).mp none
       simp only [Flow.pop, empty, take_nil, drop_nil, length_nil,
        Nat.min_zero, Nat.add_zero, true_and]
       rw [← empty]
     · simp only [Flow.pop, none, take_zero, drop_zero, Nat.zero_min, Nat.add_zero,
        true_and]
    simp_all
  · rw [if_neg stops]
    obtain ⟨some_left, wanted⟩ := not_or.mp stops
    obtain ⟨nonempty, prefixed⟩ :=
     front tracks fun none => some_left ((buffered tracks).mpr none)
    cases view : (peek stream).take len with
    | nil =>
     rcases take_eq_nil_iff.mp view with none | none
     · exact absurd none wanted
     · exact absurd none nonempty
    | cons byte bytes =>
     have first : byte :: bytes <+: flow.text :=
      view ▸ ( take_prefix len (peek stream)).trans prefixed
     have shorter : (byte :: bytes).length ≤ len := view ▸ length_take_le _ _
     have fewer : len - (byte :: bytes).length ≤ rounds := by
      rw [length_cons]
      omega
     obtain ⟨last, reads, ends⟩ := ih (pops tracks) fewer
     refine ⟨last, ?_, ?_⟩
     · dsimp only
       rw [reads, map_some]
       have whole : byte :: bytes ++
        (flow.text.drop (byte :: bytes).length).take (len - (byte :: bytes).length) =
         flow.text.take len := by
        rw [← Nat.add_sub_cancel' shorter, take_add, Nat.add_sub_cancel_left,
         ← prefix_iff_eq_take.mp first]
       exact congrArg some (congrArg (·, last) whole)
     · rw [Flow.pop_pop first.length_le, Nat.add_sub_cancel' shorter] at ends
       exact ends

/-! ### Each version as a stream of bytes -/

theorem ofNat_eq_zero_iff {length : ℕ} {capacity : UInt64} (fits : length ≤ capacity.toNat) :
 UInt64.ofNat length = 0 ↔ length = 0 := by
 have small : length < UInt64.size := lt_of_le_of_lt fits capacity.toNat_lt
 rw [← UInt64.toNat_inj, UInt64.toNat_ofNat_of_lt' small]
 rfl

namespace DequeByteStream

structure Tracks (deque : DequeByteStream) (flow : Flow) : Prop where
 capacity : deque.capacity = flow.capacity
 closed : deque.closed = flow.closed
 text : deque.buffer = flow.text
 pushed : deque.totalPush = BitVec.ofNat 32 flow.pushed
 popped : deque.totalPop = BitVec.ofNat 32 flow.popped

variable {self : DequeByteStream} {flow : Flow} {request : StreamCall}

theorem empty_tracks (capacity : UInt64) : (empty capacity).Tracks (Flow.empty capacity) :=
 ⟨rfl, rfl, rfl, rfl, rfl⟩

theorem increase_ofNat (total count : ℕ) :
 increase (BitVec.ofNat 32 total) count = BitVec.ofNat 32 (total + count) := by
 have back : ((BitVec.ofNat 32 total).signExtend 64).setWidth 32 = BitVec.ofNat 32 total := by
  apply BitVec.eq_of_getLsbD_eq
  intro i small
  rw [getLsbD_setWidth, getLsbD_signExtend]
  simp only [small, show i < 64 by omega, decide_true, Bool.true_and, if_true]
 rw [increase, setWidth_add _ _ (by decide), back, ofNat_add,
  setWidth_ofNat_of_le (by decide)]

theorem widen_eq_iff (count : ℕ) :
 widen (BitVec.ofNat 32 count) = UInt64.ofNat count ↔ Flow.InRange count := by
 have bits : widen (BitVec.ofNat 32 count) = UInt64.ofNat count ↔
  (BitVec.ofNat 32 count).signExtend 64 = BitVec.ofNat 64 count :=
  UInt64.toBitVec_inj.symm
 rw [bits, ← toInt_inj, toInt_signExtend_of_le (by decide), toInt_ofNat',
  toInt_ofNat', Int.bmod_def, Int.bmod_def]
 unfold Flow.InRange
 omega

variable (tracks : self.Tracks flow)
include tracks

theorem Tracks.pop : (self.pop len).Tracks (flow.pop len) := by
 refine ⟨tracks.capacity, tracks.closed, ?_, tracks.pushed, ?_⟩
 · change self.buffer.drop (min len self.buffer.length) = flow.text.drop len
   rw [← drop_eq_drop_min, tracks.text]
 · change increase self.totalPop (min len self.buffer.length) = _
   rw [tracks.popped, increase_ofNat, tracks.text]
   rfl

theorem Tracks.push {data : List Byte} (harmless : flow.closed = true → flow.accepted data = 0) :
 (self.push data).Tracks (flow.push data) := by
 unfold DequeByteStream.push
 split
 · rename_i closed
   rw [Flow.push_none (harmless (tracks.closed ▸ closed))]
   exact tracks
 · have same : min self.availableCapacity data.length = flow.accepted data := by
    unfold availableCapacity Flow.accepted
    rw [tracks.capacity, tracks.text]
   refine ⟨tracks.capacity, tracks.closed, ?_, ?_, tracks.popped⟩
   · change self.buffer ++ data.take (min self.availableCapacity data.length) = _
     rw [same, tracks.text]
     rfl
   · change increase self.totalPush (min self.availableCapacity data.length) = _
     rw [same, tracks.pushed, increase_ofNat]
     rfl

theorem Tracks.call (harmless : flow.Harmless request) :
 ∃ next, self.call request = some (flow.delivers request, next) ∧
  next.Tracks (flow.after request) := by
 cases request with
 | push data => exact ⟨_, rfl, tracks.push harmless⟩
 | close =>
  exact ⟨_, rfl, tracks.capacity, rfl, tracks.text, tracks.pushed, tracks.popped⟩
 | pop len => exact ⟨_, rfl, tracks.pop⟩
 | read len =>
  refine readLoop_tracks ?_ ?_ (fun tracks => tracks.pop) tracks (le_refl len)
  · intro stream flow tracks
    rw [bytesBuffered, ofNat_eq_zero_iff stream.fits, length_eq_zero_iff, tracks.text]
  · intro stream flow tracks some_left
    rw [peek, tracks.text]
    refine ⟨fun none => ?_, take_prefix _ _⟩
    rcases take_eq_nil_iff.mp none with impossible | none
    · cases impossible
    · exact some_left none

end DequeByteStream

namespace ByteStream

structure Tracks (stream : ByteStream) (flow : Flow) : Prop where
 capacity : stream.capacity = flow.capacity
 closed : stream.closed = flow.closed
 text : stream.contents = flow.text
 pushed : stream.bytesPushed = flow.pushed
 popped : stream.bytesPopped = flow.popped
 /-- A reader finds no empty view. -/
 views : ∀ view ∈ stream.bufferView, view ≠ []

variable {self : ByteStream} {flow : Flow} {request : StreamCall}

theorem empty_tracks (capacity : UInt64) : (empty capacity).Tracks (Flow.empty capacity) :=
 ⟨rfl, rfl, rfl, rfl, rfl, fun _ member => absurd member not_mem_nil⟩

theorem bufferedWord_eq (self : ByteStream) :
 self.bufferedWord = UInt64.ofNat self.contents.length := by
 unfold bufferedWord contents
 rw [self.accounted, UInt64.ofNat_add, UInt64.add_comm, UInt64.add_sub_cancel]

theorem bufferedWord_eq_zero (self : ByteStream) : self.bufferedWord = 0 ↔ self.contents = [] := by
 rw [bufferedWord_eq]
 exact (ofNat_eq_zero_iff self.fits).trans length_eq_zero_iff

theorem popLoop_views {views : List (List Byte)} (nonempty : ∀ view ∈ views, view ≠ []) (n : ℕ) :
 ∀ view ∈ (popLoop n views).1, view ≠ [] := by
 induction views generalizing n with
 | nil => exact fun _ member => absurd member not_mem_nil
 | cons first rest ih =>
  obtain ⟨head, tail⟩ := forall_mem_cons.mp nonempty
  simp only [popLoop]
  split
  · exact nonempty
  · split
    · simp_all
    · exact ih tail _

variable (tracks : self.Tracks flow)
include tracks

theorem Tracks.pop : (self.pop len).Tracks (flow.pop len) := by
 have text : (self.pop len).contents = flow.text.drop len := by
  rw [pop_contents, tracks.text]
 refine ⟨tracks.capacity, tracks.closed, text, tracks.pushed, ?_, popLoop_views tracks.views _⟩
 have before := self.accounted
 have after := (self.pop len).accounted
 have length := congrArg List.length text
 have whole := congrArg List.length tracks.text
 have pushed : (self.pop len).bytesPushed = self.bytesPushed := rfl
 unfold contents at length whole
 rw [length_drop] at length
 have popped := tracks.popped
 simp only [Flow.pop]
 omega

theorem Tracks.push {data : List Byte} : (self.push data).Tracks (flow.push data) := by
 have same : min self.availableCapacity data.length = flow.accepted data := by
  have room := self.availableCapacity_eq
  unfold Flow.accepted
  rw [← tracks.capacity, ← tracks.text]
  omega
 refine ⟨?_, ?_, ?_, ?_, ?_, ?_⟩
 · rw [push_capacity]
   exact tracks.capacity
 · rw [push_closed]
   exact tracks.closed
 · rw [push_contents, same, tracks.text]
   rfl
 · rw [push_bytesPushed, same, tracks.pushed]
   rfl
 · rw [push_bytesPopped]
   exact tracks.popped
 · unfold ByteStream.push
   dsimp only
   split
   · exact tracks.views
   · rename_i some_written
     intro view member
     rcases mem_append.mp member with old | new
     · exact tracks.views view old
     · rw [mem_singleton.mp new]
       intro none
       rcases take_eq_nil_iff.mp none with zero | zero
       · exact some_written zero
       · grind

theorem Tracks.call :
 ∃ next, self.call request = some (flow.delivers request, next) ∧
  next.Tracks (flow.after request) := by
 cases request with
 | push data => exact ⟨_, rfl, tracks.push⟩
 | close =>
  exact ⟨_, rfl, tracks.capacity, rfl, tracks.text, tracks.pushed, tracks.popped,
   tracks.views⟩
 | pop len => exact ⟨_, rfl, tracks.pop⟩
 | read len =>
  refine readLoop_tracks ?_ ?_ (fun tracks => tracks.pop) tracks (le_refl len)
  · intro stream flow tracks
    rw [bufferedWord_eq_zero, tracks.text]
  · intro stream flow tracks some_left
    rw [← tracks.text] at some_left ⊢
    unfold peek contents at *
    have views := tracks.views
    cases list : stream.bufferView with
    | nil =>
     simp_all
    | cons view rest =>
     simp_all

end ByteStream

/-! ### Both together -/

variable {deque : DequeByteStream} {stream : ByteStream}

theorem report_eq_iff (left : deque.Tracks flow) (right : stream.Tracks flow) :
 deque.report = stream.report ↔ Flow.InRange flow.pushed ∧ Flow.InRange flow.popped := by
 have buffered : deque.bytesBuffered = stream.bufferedWord := by
  rw [bufferedWord_eq, DequeByteStream.bytesBuffered, left.text, right.text]
 have finished : deque.buffer.isEmpty = (stream.bufferedWord == 0) := by
  rw [left.text, ← right.text, Bool.eq_iff_iff, List.isEmpty_iff, beq_iff_eq,
   bufferedWord_eq_zero]
 simp only [DequeByteStream.report, report, StreamReport.mk.injEq, buffered, finished,
  left.capacity, right.capacity, left.closed, isClosed, right.closed, and_true,
  left.pushed, right.pushed, left.popped, right.popped, DequeByteStream.widen_eq_iff]

theorem report_ne {data : List Byte} (left : deque.Tracks flow) (right : stream.Tracks flow)
 (closed : flow.closed = true) (some_room : flow.accepted data ≠ 0) :
 (deque.push data).report ≠ (stream.push data).report := by
 intro same
 have still : deque.push data = deque := by
  unfold DequeByteStream.push
  rw [if_pos (left.closed.trans closed)]
 have words : (deque.push data).bytesBuffered = (stream.push data).bufferedWord :=
  congrArg StreamReport.bytesBuffered same
 have more := (stream.push data).fits
 have pushed : (stream.push data).contents = (flow.push data).text := right.push.text
 rw [still, DequeByteStream.bytesBuffered, bufferedWord_eq, left.text, pushed] at words
 have lengths := congrArg UInt64.toNat words
 have longer : (flow.push data).text.length = flow.text.length + flow.accepted data := by
  simp only [Flow.push, length_append, length_take]
  have bound : flow.accepted data ≤ data.length := min_le_right _ _
  omega
 have small : (stream.push data).capacity.toNat < UInt64.size :=
  (stream.push data).capacity.toNat_lt
 unfold contents at pushed
 rw [pushed] at more
 rw [longer] at more lengths
 rw [UInt64.toNat_ofNat_of_lt' (by omega), UInt64.toNat_ofNat_of_lt' (by omega)] at lengths
 omega

theorem streamAnswers_cons_iff {First Second : Type}
 {call : First → StreamCall → Option (List Byte × First)} {report : First → StreamReport}
 {call' : Second → StreamCall → Option (List Byte × Second)} {report' : Second → StreamReport}
 {first next : First} {second next' : Second} {request : StreamCall} {rest : List StreamCall}
 {bytes : List Byte} {later : List (List Byte × StreamReport)}
 (left : call first request = some (bytes, next))
 (right : call' second request = some (bytes, next'))
 (answered : streamAnswers call' report' next' rest = some later) :
 streamAnswers call report first (request :: rest) =
  streamAnswers call' report' second (request :: rest) ↔
  report next = report' next' ∧
   streamAnswers call report next rest = streamAnswers call' report' next' rest := by
 simp only [streamAnswers, left, right, answered, bind_some, map_some,
  map_eq_some_iff]
 constructor
 · simp_all
 · rintro ⟨head, tail⟩
   exact ⟨later, tail, by rw [head]⟩

theorem ByteStream.Tracks.answers (tracks : stream.Tracks flow) (calls : List StreamCall) :
 ∃ list, stream.answers calls = some list := by
 induction calls generalizing stream flow with
 | nil => exact ⟨[], rfl⟩
 | cons request rest ih =>
  obtain ⟨next, called, next_tracks⟩ : ∃ next,
   stream.call request = some (flow.delivers request, next) ∧
    next.Tracks (flow.after request) := tracks.call
  obtain ⟨list, later⟩ := ih next_tracks
  refine ⟨(flow.delivers request, next.report) :: list, ?_⟩
  unfold answers at later ⊢
  simp only [streamAnswers, called, bind_some, later, map_some]

theorem answers_iff (left : deque.Tracks flow) (right : stream.Tracks flow)
 (calls : List StreamCall) : deque.answers calls = stream.answers calls ↔ flow.Meets calls := by
 induction calls generalizing deque stream flow with
 | nil => exact iff_of_true rfl trivial
 | cons request rest ih =>
  obtain ⟨next', called', tracks'⟩ := right.call
  obtain ⟨later, answered⟩ := tracks'.answers rest
  by_cases harmless : flow.Harmless request
  · obtain ⟨next, called, tracks⟩ := left.call harmless
    refine (streamAnswers_cons_iff called called' answered).trans ?_
    rw [report_eq_iff tracks tracks']
    exact (and_congr_right fun _ => ih tracks tracks').trans
     (and_iff_right harmless).symm
  · refine iff_of_false (fun same => ?_) fun meets => harmless meets.1
    cases request with
    | push data =>
     obtain ⟨closed, some_room⟩ := Classical.not_imp.mp harmless
     obtain rfl : stream.push data = next' := (Prod.mk.inj (Option.some.inj called')).2
     have called : deque.call (.push data) = some ([], deque.push data) := rfl
     exact report_ne left right closed some_room
      ((streamAnswers_cons_iff called called' answered).mp same).1
    | close => exact harmless trivial
    | pop len => exact harmless trivial
    | read len => exact harmless trivial

/-- The deque version and the queue version answer alike if and only if no push after the close
finds room, and all counts are the same number as an `int`. -/
theorem deque_answers_eq_iff (capacity : UInt64) (calls : List StreamCall) :
 (DequeByteStream.empty capacity).answers calls = (ByteStream.empty capacity).answers calls ↔
  (Flow.empty capacity).Meets calls :=
 answers_iff (DequeByteStream.empty_tracks capacity) (ByteStream.empty_tracks capacity) calls

theorem answers_ne_of_length {data : List Byte} (long : data.length = 2 ^ 31) :
 (DequeByteStream.empty (.ofNat (2 ^ 31))).answers [.push data] ≠
  (empty (.ofNat (2 ^ 31))).answers [.push data] := by
 intro same
 obtain ⟨-, ⟨in_range, -⟩, -⟩ := (answers_iff (DequeByteStream.empty_tracks _)
  (empty_tracks _) _).mp same
 have room : (UInt64.ofNat (2 ^ 31)).toNat = 2 ^ 31 := by decide
 simp only [Flow.after, Flow.push, Flow.accepted, Flow.empty, long, room, length_nil,
  Flow.InRange] at in_range
 omega

/-- A byte pushed after the close is kept by the queue version only; and the count of 2³¹ bytes
is another number as an `int`. -/
theorem deque_answers_differ :
 (DequeByteStream.empty 1).answers [.close, .push [97]] ≠
  (ByteStream.empty 1).answers [.close, .push [97]] ∧
  (DequeByteStream.empty (.ofNat (2 ^ 31))).answers [.push (List.replicate (2 ^ 31) 97)] ≠
   (ByteStream.empty (.ofNat (2 ^ 31))).answers [.push (List.replicate (2 ^ 31) 97)] :=
 ⟨by decide, answers_ne_of_length length_replicate⟩

end MyNotes.Cs144
