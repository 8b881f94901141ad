/-
The byte streams of lab 0 over a queue of strings.

A pushed string moves into `buffer_data`, and the reader is given views of the strings there.  The
earlier version has one view, of the string in front; the last one has a queue of views beside the
queue of strings.  A view is read through its address, and `front()` and `pop()` of an empty queue
are faults, as in both cases the behaviour is undefined.
-/

import MyNotes.Library.Transition
import MyNotes.Library.TextView
import MyNotes.Cs144.ByteStream

namespace MyNotes.Cs144

open Library.Transition Library.TextView List UInt64

/-- The members of the class; the versions differ in the type of `buffer_view`. -/
structure StringStream (Views : Type) where
 capacity : UInt64
 error : Bool
 closed : Bool
 bufferData : List (Stored Byte)
 bufferView : Views
 bytesPushed : UInt64
 bytesPopped : UInt64
 /-- Where the next string is going to be. -/
 nextAddress : ℕ

namespace StringStream

inductive Fault where
 | frontOfEmpty
 | popOfEmpty
 | outOfRounds

def front {α : Type} : List α → Except Fault α
 | [] => .error .frontOfEmpty
 | first :: _ => .ok first

def popFront {α : Type} : List α → Except Fault (List α)
 | [] => .error .popOfEmpty
 | _ :: rest => .ok rest

theorem front_of_cons {α : Type} {queue rest : List α} {first : α} (cons : queue = first :: rest) :
 front queue = .ok first := cons ▸ rfl

theorem popFront_of_cons {α : Type} {queue rest : List α} {first : α}
 (cons : queue = first :: rest) : popFront queue = .ok rest := cons ▸ rfl

variable {Views : Type} (self : StringStream Views)

def setError : StringStream Views := { self with error := true }

def close : StringStream Views := { self with closed := true }

def bytesBuffered : UInt64 := self.bytesPushed - self.bytesPopped

def availableCapacity : UInt64 := self.capacity - self.bytesBuffered

/-- `towrite`. -/
def room (data : List Byte) : ℕ := min self.availableCapacity.toNat data.length

/-- `Writer::push`; a version says what the views are when the string is in `buffer_data`. -/
def pushWith (refresh : StringStream Views → List (Stored Byte) → ℕ → Views) (data : List Byte) :
 StringStream Views :=
 let towrite := self.room data
 if towrite = 0 then self
 else
  let data := if towrite < data.length then data.take towrite else data
  let bufferData := self.bufferData ++ [⟨self.nextAddress, data⟩]
  { self with
   bufferData := bufferData
   bufferView := refresh self bufferData towrite
   bytesPushed := self.bytesPushed + UInt64.ofNat towrite
   nextAddress := self.nextAddress + 1 }

theorem length_written (data : List Byte) :
 (data.take (self.room data)).length = self.room data := by
 rw [length_take]
 exact Nat.min_eq_left (Nat.min_le_right _ _)

/-- What a version does with the views, and which views the reader is going to be given. -/
structure Version (Views : Type) where
 push : StringStream Views → List Byte → StringStream Views
 pop : ℕ → StringStream Views → UInt64 → Except Fault (StringStream Views)
 views : StringStream Views → List View

inductive Call where
 | push (data : List Byte)
 | pop (len : UInt64)
 | close
 | setError

/-- A stream, with the bytes that it has accepted and the bytes that have been popped. -/
structure Session (Views : Type) where
 stream : StringStream Views
 accepted : List Byte
 popped : List Byte

def contents (version : Version Views) : Option (List Byte) :=
 readAll self.bufferData (version.views self)

/-- A push has accepted as many bytes of the string as it has counted. -/
def Session.push (session : Session Views) (stream : StringStream Views) (data : List Byte) :
 Session Views :=
 { session with
  stream := stream
  accepted := session.accepted ++
   data.take (stream.bytesPushed - session.stream.bytesPushed).toNat }

/-- A pop has dropped as many of the readable bytes as it has counted. -/
def Session.pop (session : Session Views) (version : Version Views)
 (stream : StringStream Views) : Session Views :=
 { session with
  stream := stream
  popped := session.popped ++ ((session.stream.contents version).getD []).take
   (stream.bytesPopped - session.stream.bytesPopped).toNat }

/-- One call; the loop of `pop` may take any number of rounds. -/
def Step (version : Version Views) (session : Session Views) : Call → Session Views → Prop
 | .push data, next => next = session.push (version.push session.stream data) data
 | .pop len, next => ∃ rounds stream, version.pop rounds session.stream len = .ok stream ∧
  next = session.pop version stream
 | .close, next => next = { session with stream := session.stream.close }
 | .setError, next => next = { session with stream := session.stream.setError }

/-! ### What every version keeps -/

variable {self} {version : Version Views} {next : StringStream Views}

def unread (version : Version Views) (self : StringStream Views) : List Byte :=
 remaining self.bufferData (version.views self)

structure Sound (version : Version Views) (stream : StringStream Views) : Prop where
 aligned : Aligned stream.bufferData (version.views stream)
 older : ∀ stored ∈ stream.bufferData, stored.address < stream.nextAddress
 buffered : stream.bytesBuffered.toNat = (stream.unread version).length
 fits : (stream.unread version).length ≤ stream.capacity.toNat

section

variable (sound : self.Sound version)
include sound

theorem Sound.contents :
 self.contents version = some (self.unread version) := sound.aligned.readAll

theorem Sound.room_eq (data : List Byte) :
 self.room data = min (self.capacity.toNat - (self.unread version).length) data.length := by
 have less : self.bytesBuffered ≤ self.capacity := by
  rw [le_iff_toNat_le, sound.buffered]
  exact sound.fits
 rw [room, availableCapacity, UInt64.toNat_sub_of_le _ _ less, sound.buffered]

theorem Sound.room_lt (data : List Byte) :
 (self.unread version).length + self.room data ≤ self.capacity.toNat := by
 have fits := sound.fits
 have room := sound.room_eq data
 omega

/-- The string that a push appends, if there is room for some of it. -/
structure Appends (version : Version Views) (stream next : StringStream Views) (data : List Byte) :
 Prop where
 bufferData : next.bufferData = stream.bufferData ++ [⟨stream.nextAddress, data⟩]
 views : version.views next =
  version.views stream ++ [Stored.whole (⟨stream.nextAddress, data⟩ : Stored Byte)]
 bytesPushed : next.bytesPushed = stream.bytesPushed + UInt64.ofNat data.length
 bytesPopped : next.bytesPopped = stream.bytesPopped
 capacity : next.capacity = stream.capacity
 nextAddress : stream.nextAddress < next.nextAddress

theorem Sound.append {data : List Byte} (appends : Appends version self next data)
 (nonempty : data ≠ []) (fits : (self.unread version).length + data.length ≤ self.capacity.toNat) :
 next.Sound version ∧ next.unread version = self.unread version ++ data := by
 have unread : next.unread version = self.unread version ++ data := by
  rw [unread, appends.bufferData, appends.views]
  exact remaining_push sound.aligned.suffixes
 have small : self.capacity.toNat < size := self.capacity.toNat_lt
 refine ⟨⟨?_, fun stored member => ?_, ?_, ?_⟩, unread⟩
 · rw [appends.bufferData, appends.views]
   exact sound.aligned.push nonempty fun other member => Nat.ne_of_lt (sound.older other member)
 · rw [appends.bufferData] at member
   rcases mem_append.mp member with old | new
   · exact Nat.lt_trans (sound.older stored old) appends.nextAddress
   · rw [mem_singleton.mp new]
     exact appends.nextAddress
 · have buffered := sound.buffered
   have sum : next.bytesBuffered = self.bytesBuffered + ofNat data.length := by
    unfold bytesBuffered
    rw [appends.bytesPushed, appends.bytesPopped]
    grind
   rw [sum, UInt64.toNat_add, UInt64.toNat_ofNat_of_lt' (by omega), buffered, unread,
    length_append]
   grind
 · rw [unread, length_append, appends.capacity]
   exact fits

end

/-- What the loop of a pop may change: it takes bytes off the front. -/
structure Drained (version : Version Views) (stream next : StringStream Views) (count : ℕ) :
 Prop where
 aligned : Aligned next.bufferData (version.views next)
 bufferData : next.bufferData <:+ stream.bufferData
 unread : next.unread version = (stream.unread version).drop count
 bytesPushed : next.bytesPushed = stream.bytesPushed
 capacity : next.capacity = stream.capacity
 nextAddress : next.nextAddress = stream.nextAddress

theorem Drained.refl (aligned : Aligned self.bufferData (version.views self)) :
 Drained version self self 0 :=
 ⟨aligned, suffix_rfl, rfl, rfl, rfl, rfl⟩

theorem Drained.trans {last : StringStream Views} {one two : ℕ}
 (first : Drained version self next one) (second : Drained version next last two) :
 Drained version self last (one + two) := by
 refine ⟨second.aligned, second.bufferData.trans first.bufferData, ?_,
  second.bytesPushed.trans first.bytesPushed, second.capacity.trans first.capacity,
  second.nextAddress.trans first.nextAddress⟩
 rw [second.unread, first.unread, drop_drop]

section Rounds

variable {stored : Stored Byte} {store : List (Stored Byte)} {view : View} {views : List View}
 {count : ℕ}

theorem Drained.part (data : self.bufferData = stored :: store)
 (list : version.views self = view :: views)
 (aligned : Aligned self.bufferData (version.views self)) (less : count < view.size)
 (kept : next.bufferData = self.bufferData)
 (after : version.views next = view.removePrefix count :: views)
 (bytesPushed : next.bytesPushed = self.bytesPushed) (capacity : next.capacity = self.capacity)
 (nextAddress : next.nextAddress = self.nextAddress) : Drained version self next count := by
 rw [data, list] at aligned
 obtain ⟨suffix, -⟩ := forall₂_cons.mp aligned.suffixes
 have length := suffix.length_drop
 refine ⟨?_, kept ▸ suffix_rfl, ?_, bytesPushed, capacity, nextAddress⟩
 · rw [kept, data, after]
   exact aligned.removePrefix less
 · rw [StringStream.unread, StringStream.unread, kept, data, after, list, remaining_cons,
    remaining_cons, View.removePrefix, drop_append_of_le_length (by omega), drop_drop]

theorem Drained.front (data : self.bufferData = stored :: store)
 (list : version.views self = view :: views)
 (aligned : Aligned self.bufferData (version.views self))
 (rest : next.bufferData = store) (after : version.views next = views)
 (bytesPushed : next.bytesPushed = self.bytesPushed) (capacity : next.capacity = self.capacity)
 (nextAddress : next.nextAddress = self.nextAddress) : Drained version self next view.size := by
 rw [data, list] at aligned
 obtain ⟨suffix, -⟩ := forall₂_cons.mp aligned.suffixes
 refine ⟨?_, ?_, ?_, bytesPushed, capacity, nextAddress⟩
 · rw [rest, after]
   exact aligned.pop
 · rw [rest, data]
   exact suffix_cons _ _
 · rw [StringStream.unread, StringStream.unread, rest, data, after, list, remaining_cons,
    ← suffix.length_drop, drop_left]

end Rounds

theorem Sound.drain {count : ℕ} (sound : self.Sound version)
 (drained : Drained version self next count) (less : count ≤ (self.unread version).length)
 (popped : next.bytesPopped = self.bytesPopped + ofNat count) : next.Sound version := by
 have small : self.capacity.toNat < size := self.capacity.toNat_lt
 have fits := sound.fits
 have left : (next.unread version).length = (self.unread version).length - count := by
  rw [drained.unread, length_drop]
 refine ⟨drained.aligned, fun stored member => ?_, ?_, ?_⟩
 · rw [drained.nextAddress]
   exact sound.older stored (drained.bufferData.subset member)
 · have buffered := sound.buffered
   have difference : next.bytesBuffered = self.bytesBuffered - ofNat count := by
    unfold bytesBuffered
    rw [drained.bytesPushed, popped]
    grind
   have counted : (ofNat count).toNat = count := UInt64.toNat_ofNat_of_lt' (by omega)
   have inside : ofNat count ≤ self.bytesBuffered := by
    rw [le_iff_toNat_le, counted, buffered]
    exact less
   rw [difference, UInt64.toNat_sub_of_le _ _ inside, counted, buffered, left]
 · rw [left, drained.capacity]
   omega

theorem resized (towrite : ℕ) (data : List Byte) :
 (if towrite < data.length then data.take towrite else data) = data.take towrite := by
 split
 · rfl
 · simp_all

/-- A version's push appends as much of the string as there is room for. -/
def Version.Pushes (version : Version Views) : Prop :=
 ∀ stream data, stream.room data = 0 ∧ version.push stream data = stream ∨
  stream.room data ≠ 0 ∧
   Appends version stream (version.push stream data) (data.take (stream.room data))

theorem pushes_of_views {refresh : StringStream Views → List (Stored Byte) → ℕ → Views}
 (push : version.push = fun stream => stream.pushWith refresh)
 (views : ∀ (stream next : StringStream Views) data,
  next.bufferData = stream.bufferData ++ [⟨stream.nextAddress, data⟩] →
  next.bufferView = refresh stream next.bufferData data.length →
  version.views next =
   version.views stream ++ [Stored.whole (⟨stream.nextAddress, data⟩ : Stored Byte)]) :
 version.Pushes := by
 intro stream data
 rw [push]
 dsimp only
 by_cases none : stream.room data = 0
 · exact .inl ⟨none, if_pos none⟩
 · have pushed := pushWith.eq_def stream refresh data
   rw [if_neg none, resized] at pushed
   rw [pushed]
   refine .inr ⟨none, rfl, ?_, ?_, rfl, rfl, Nat.lt_succ_self _⟩
   · exact views _ _ _ rfl (by rw [length_written])
   · rw [length_written]

theorem pushWith_keeps (self : StringStream Views)
 (refresh : StringStream Views → List (Stored Byte) → ℕ → Views) (data : List Byte) :
 (self.pushWith refresh data).capacity = self.capacity ∧
  (self.pushWith refresh data).error = self.error ∧
  (self.pushWith refresh data).closed = self.closed := by
 rw [pushWith]
 split
 · exact ⟨rfl, rfl, rfl⟩
 · exact ⟨rfl, rfl, rfl⟩

structure Session.Sound (session : Session Views) (version : Version Views) : Prop where
 stream : session.stream.Sound version
 conserved : session.popped ++ session.stream.unread version = session.accepted

variable {session : Session Views}

theorem Session.Sound.push (sound : session.Sound version) (pushes : version.Pushes)
 (data : List Byte) :
 (session.push (version.push session.stream data) data).Sound version := by
 obtain ⟨none, same⟩ | ⟨some, appends⟩ := pushes session.stream data
 · rw [same]
   refine ⟨sound.stream, ?_⟩
   unfold Session.push
   rw [UInt64.sub_self, UInt64.toNat_zero, take_zero, append_nil]
   exact sound.conserved
 · have length : (data.take (session.stream.room data)).length = session.stream.room data :=
    session.stream.length_written data
   have fits := sound.stream.room_lt data
   have small : session.stream.capacity.toNat < size :=
    session.stream.capacity.toNat_lt
   have nonempty : data.take (session.stream.room data) ≠ [] := by
    intro nil
    rw [nil] at length
    exact some length.symm
   obtain ⟨stream, unread⟩ := sound.stream.append appends nonempty (length.symm ▸ fits)
   have counted : ((version.push session.stream data).bytesPushed -
    session.stream.bytesPushed).toNat = session.stream.room data := by
    rw [appends.bytesPushed, length, UInt64.add_comm, UInt64.add_sub_cancel,
     UInt64.toNat_ofNat_of_lt' (by omega)]
   refine ⟨stream, ?_⟩
   unfold Session.push
   rw [unread, counted, ← append_assoc, sound.conserved]

theorem Session.Sound.pop {count : ℕ} (sound : session.Sound version)
 (drained : Drained version session.stream next count)
 (less : count ≤ (session.stream.unread version).length)
 (popped : next.bytesPopped = session.stream.bytesPopped + ofNat count) :
 (session.pop version next).Sound version := by
 have fits := sound.stream.fits
 have small : session.stream.capacity.toNat < size := session.stream.capacity.toNat_lt
 have counted : (next.bytesPopped - session.stream.bytesPopped).toNat = count := by
  rw [popped, UInt64.add_comm, UInt64.add_sub_cancel, UInt64.toNat_ofNat_of_lt' (by omega)]
 refine ⟨sound.stream.drain drained less popped, ?_⟩
 unfold Session.pop
 rw [counted, sound.stream.contents, Option.getD_some, drained.unread, append_assoc,
  take_append_drop]
 exact sound.conserved

end StringStream

/-! ### The queue of views -/

abbrev QueueByteStream := StringStream (List View)

namespace QueueByteStream

open StringStream

/-- `ByteStream::ByteStream`. -/
def empty (capacity : UInt64) : QueueByteStream :=
 ⟨capacity, false, false, [], [], 0, 0, 1⟩

/-- `buffer_view.push({buffer_data.back().c_str(), towrite})`. -/
def refresh (self : QueueByteStream) (_bufferData : List (Stored Byte)) (towrite : ℕ) : List View :=
 self.bufferView ++ [⟨self.nextAddress, 0, towrite⟩]

/-- `Writer::push`. -/
def push (self : QueueByteStream) (data : List Byte) : QueueByteStream :=
 self.pushWith refresh data

/-- `Reader::peek`. -/
def peek (self : QueueByteStream) : Option (List Byte) :=
 match self.bufferView with
 | [] => some []
 | view :: _ => view.read self.bufferData

/-- The loop of `Reader::pop`. -/
def popLoop : ℕ → QueueByteStream → ℕ → Except Fault QueueByteStream
 | 0, self, n => if n = 0 then .ok self else .error .outOfRounds
 | rounds + 1, self, n =>
  if n = 0 then .ok self
  else
   (front self.bufferView).bind fun view =>
   let sz := view.size
   if n < sz then .ok { self with
    bufferView := view.removePrefix n :: self.bufferView.tail
    bytesPopped := self.bytesPopped + UInt64.ofNat n }
   else
    (popFront self.bufferData).bind fun data =>
    (popFront self.bufferView).bind fun views =>
    popLoop rounds { self with
     bufferData := data
     bufferView := views
     bytesPopped := self.bytesPopped + UInt64.ofNat sz } (n - sz)

/-- `Reader::pop`. -/
def pop (rounds : ℕ) (self : QueueByteStream) (len : UInt64) : Except Fault QueueByteStream :=
 popLoop rounds self (min len self.bytesBuffered).toNat

def version : Version (List View) := ⟨push, pop, StringStream.bufferView⟩

def start (capacity : UInt64) : Session (List View) := ⟨empty capacity, [], []⟩

theorem version_pushes : version.Pushes :=
 pushes_of_views (show version.push = fun stream => stream.pushWith refresh from rfl)
  fun _ _ _ _ view => view

variable {self : QueueByteStream} {n : ℕ}

def viewed (self : QueueByteStream) : List (List Byte) := texts self.bufferData self.bufferView

/-- What the loop has done; to the texts it does what the loop over texts does. -/
structure Popped (stream next : QueueByteStream) (count : ℕ) : Prop where
 drained : Drained version stream next count
 counted : next.bytesPopped = stream.bytesPopped + UInt64.ofNat count
 left : viewed next = (ByteStream.popLoop count (viewed stream)).1
 error : next.error = stream.error
 closed : next.closed = stream.closed

theorem Popped.refl (aligned : Aligned self.bufferData self.bufferView) : Popped self self 0 := by
 refine ⟨.refl aligned, (add_zero _).symm, ?_, rfl, rfl⟩
 cases viewed self with
 | nil => rfl
 | cons _ _ => rfl

theorem popped_part {stored : Stored Byte} {store : List (Stored Byte)} {view : View}
 {views : List View} (data : self.bufferData = stored :: store)
 (queue : self.bufferView = view :: views) (some : n ≠ 0)
 (aligned : Aligned self.bufferData self.bufferView) (part : n < view.size) :
 Popped self { self with
  bufferView := view.removePrefix n :: views
  bytesPopped := self.bytesPopped + ofNat n } n := by
 refine ⟨.part data queue aligned part rfl rfl rfl rfl rfl, rfl, ?_, rfl, rfl⟩
 rw [data, queue] at aligned
 obtain ⟨suffix, -⟩ := forall₂_cons.mp aligned.suffixes
 change texts self.bufferData (view.removePrefix n :: views) =
  (ByteStream.popLoop n (texts self.bufferData self.bufferView)).1
 rw [data, queue, texts, texts, ByteStream.popLoop, if_neg some,
  if_pos (suffix.length_drop.symm ▸ part), View.removePrefix, drop_drop]

theorem Popped.front {stored : Stored Byte} {store : List (Stored Byte)} {view : View}
 {views : List View} {next : QueueByteStream} (data : self.bufferData = stored :: store)
 (queue : self.bufferView = view :: views) (some : n ≠ 0)
 (aligned : Aligned self.bufferData self.bufferView) (whole : view.size ≤ n)
 (later : Popped { self with
  bufferData := store
  bufferView := views
  bytesPopped := self.bytesPopped + ofNat view.size } next (n - view.size)) :
 Popped self next n := by
 have drained : Drained version self { self with
  bufferData := store
  bufferView := views
  bytesPopped := self.bytesPopped + ofNat view.size } view.size :=
  .front data queue aligned rfl rfl rfl rfl rfl
 have parts : view.size + (n - view.size) = n := Nat.add_sub_of_le whole
 refine ⟨parts ▸ drained.trans later.drained, ?_, ?_, later.error, later.closed⟩
 · rw [later.counted, add_assoc, ← ofNat_add, parts]
 · rw [data, queue] at aligned
   obtain ⟨suffix, -⟩ := forall₂_cons.mp aligned.suffixes
   rw [later.left]
   change (ByteStream.popLoop _ (texts store views)).1 =
    (ByteStream.popLoop n (texts self.bufferData self.bufferView)).1
   rw [data, queue, texts, ByteStream.popLoop, if_neg some, suffix.length_drop,
    if_neg (Nat.not_lt.mpr whole)]

theorem popLoop_spec (rounds : ℕ) (aligned : Aligned self.bufferData self.bufferView)
 (enough : n ≤ (self.unread version).length) :
 (rounds < self.bufferView.length ∧ popLoop rounds self n = .error .outOfRounds) ∨
  ∃ next, popLoop rounds self n = .ok next ∧ Popped self next n := by
 induction rounds generalizing self n with
 | zero =>
  rw [popLoop]
  split
  · rename_i zero
    subst zero
    exact .inr ⟨self, rfl, .refl aligned⟩
  · rename_i more
    obtain ⟨-, -, view, views, -, queue, -⟩ := aligned.exists_cons
     (Nat.lt_of_lt_of_le (Nat.pos_of_ne_zero more) enough)
    exact .inl ⟨queue ▸ Nat.succ_pos _, rfl⟩
 | succ rounds ih =>
  rw [popLoop]
  split
  · rename_i zero
    subst zero
    exact .inr ⟨self, rfl, .refl aligned⟩
  · rename_i more
    obtain ⟨stored, store, view, views, data, queue, suffix, later⟩ := aligned.exists_cons
     (Nat.lt_of_lt_of_le (Nat.pos_of_ne_zero more) enough)
    rw [front_of_cons queue, popFront_of_cons data, popFront_of_cons queue, Except.bind,
     queue, tail_cons]
    dsimp only [Except.bind]
    split
    · rename_i part
      exact .inr ⟨_, rfl, popped_part data queue more aligned part⟩
    · rename_i whole
      have left : n - view.size ≤ (remaining store views).length := by
       change n ≤ (remaining self.bufferData self.bufferView).length at enough
       rw [data, queue, remaining_cons, length_append, suffix.length_drop] at enough
       omega
      rcases @ih { self with
       bufferData := store
       bufferView := views
       bytesPopped := self.bytesPopped + ofNat view.size } _ later left with
       ⟨less, short⟩ | ⟨next, done, popped⟩
      · exact .inl ⟨Nat.succ_lt_succ less, short⟩
      · exact .inr ⟨next, done, popped.front data queue more aligned (Nat.not_lt.mp whole)⟩

theorem pop_spec (sound : self.Sound version) (rounds : ℕ) (len : UInt64) :
 (rounds < self.bufferView.length ∧ pop rounds self len = .error .outOfRounds) ∨
  ∃ next, pop rounds self len = .ok next ∧
   Popped self next (min len.toNat (self.unread version).length) := by
 rw [pop, toNat_min, sound.buffered]
 exact popLoop_spec rounds sound.aligned (Nat.min_le_right _ _)

/-! ### Every run -/

/-- What holds of the queues, the counts and the bytes. -/
structure Invariant (capacity : UInt64) (session : Session (List View)) : Prop where
 lengths : session.stream.bufferData.length = session.stream.bufferView.length
 suffixes : List.Forall₂ View.SuffixOf session.stream.bufferView session.stream.bufferData
 whole : ∀ view ∈ session.stream.bufferView.tail, view.start = 0
 buffered : (session.stream.bytesPushed - session.stream.bytesPopped).toNat =
  (session.stream.bufferView.map View.size).sum
 limit : session.stream.capacity = capacity
 fits : (session.stream.bufferView.map View.size).sum ≤ capacity.toNat
 ordered : ∃ texts,
  session.stream.bufferView.mapM (View.read session.stream.bufferData) = some texts ∧
   session.popped ++ texts.flatten = session.accepted

/-- The loop ends, within as many rounds as there are views, and takes nothing from an empty
queue. -/
structure PopsSafely (stream : QueueByteStream) (len : UInt64) : Prop where
 ends : ∀ rounds, stream.bufferView.length ≤ rounds → ∃ next, pop rounds stream len = .ok next
 front : ∀ rounds, pop rounds stream len ≠ .error .frontOfEmpty
 popFront : ∀ rounds, pop rounds stream len ≠ .error .popOfEmpty

variable {capacity : UInt64} {session next : Session (List View)} {calls : List Call}

structure Kept (capacity : UInt64) (session : Session (List View)) : Prop where
 sound : session.Sound version
 limit : session.stream.capacity = capacity

theorem Kept.invariant (kept : Kept capacity session) : Invariant capacity session := by
 obtain ⟨sound, same⟩ := kept
 have aligned : Aligned session.stream.bufferData session.stream.bufferView :=
  sound.stream.aligned
 have total : (session.stream.unread version).length =
  (session.stream.bufferView.map View.size).sum := length_remaining aligned.suffixes
 refine ⟨aligned.suffixes.length_eq.symm, aligned.suffixes, aligned.whole, ?_, same, ?_,
  _, aligned.mapM_read, sound.conserved⟩
 · rw [← total]
   exact sound.stream.buffered
 · rw [← total, ← same]
   exact sound.stream.fits

theorem PopsSafely.of_sound (sound : self.Sound version) (len : UInt64) : PopsSafely self len := by
 refine ⟨fun rounds enough => ?_, fun rounds faulty => ?_, fun rounds faulty => ?_⟩
 all_goals rcases pop_spec sound rounds len with ⟨less, short⟩ | ⟨next, done, -⟩
 · exact absurd less (Nat.not_lt.mpr enough)
 · exact ⟨next, done⟩
 · cases short.symm.trans faulty
 · cases done.symm.trans faulty
 · cases short.symm.trans faulty
 · cases done.symm.trans faulty

theorem start_kept (capacity : UInt64) : Kept capacity (start capacity) := by
 refine ⟨⟨⟨.nil, fun _ member => absurd member not_mem_nil, ?_, Nat.zero_le _⟩, rfl⟩, rfl⟩
 change ((0 : UInt64) - 0).toNat = 0
 decide

theorem Kept.step {call : Call} (kept : Kept capacity session)
 (taken : Step version session call next) : Kept capacity next := by
 obtain ⟨sound, same⟩ := kept
 cases call with
 | push data =>
  cases taken
  exact ⟨sound.push version_pushes data,
   (pushWith_keeps session.stream refresh data).1.trans same⟩
 | pop len =>
  obtain ⟨rounds, stream, popped, result⟩ := taken
  subst result
  rcases pop_spec sound.stream rounds len with
   ⟨-, short⟩ | ⟨other, done, result⟩
  · cases short.symm.trans popped
  · cases done.symm.trans popped
    exact ⟨sound.pop result.drained (Nat.min_le_right _ _) result.counted,
     result.drained.capacity.trans same⟩
 | close =>
  cases taken
  obtain ⟨aligned, older, buffered, fits⟩ := sound.stream
  exact ⟨⟨⟨aligned, older, buffered, fits⟩, sound.conserved⟩, same⟩
 | setError =>
  cases taken
  obtain ⟨aligned, older, buffered, fits⟩ := sound.stream
  exact ⟨⟨⟨aligned, older, buffered, fits⟩, sound.conserved⟩, same⟩

/-- In every state of every run the queues are in step and hold the bytes that have been accepted
and not popped, and no pop takes anything from an empty queue. -/
theorem queue_invariant (run : Run (Step version) (start capacity) calls session) :
 Invariant capacity session ∧ ∀ len, PopsSafely session.stream len := by
 have kept : Kept capacity session :=
  run.invariant (start_kept capacity) fun _ _ _ kept taken => kept.step taken
 exact ⟨kept.invariant, PopsSafely.of_sound kept.sound.stream⟩

theorem queue_invariant_truncated : ∃ session,
 Run (Step version) (start 3) [.push [97, 98], .push [99, 100], .pop 1] session ∧
  session.accepted = [97, 98, 99] ∧ session.popped = [97] ∧
  Invariant 3 session ∧ ∀ len, PopsSafely session.stream len := by
 have run : Run (Step version) (start 3) [.push [97, 98], .push [99, 100], .pop 1] _ :=
  .snoc (.snoc (.snoc .nil rfl) rfl) ⟨1, _, rfl, rfl⟩
 exact ⟨_, run, rfl, rfl, queue_invariant run⟩

end QueueByteStream

end MyNotes.Cs144
