/-
The flow-controlled byte stream of lab 0 (the queue-of-views version).

Byte counters are natural numbers: the notes treat a 64-bit stream index as one
that never overflows.  The capacity is an arbitrary 64-bit value chosen by the
caller, so it stays a machine word.  The two facts that make the subtractions of
the source exact are fields of the stream and are kept by every operation.
-/

import Mathlib.Data.UInt

namespace MyNotes.Cs144

open List

abbrev Byte := UInt8

/-- `bufferView` is the queue of string views; a popped view also drops the
string that backs it. -/
structure ByteStream where
 capacity : UInt64
 error : Bool
 closed : Bool
 bufferView : List (List Byte)
 bytesPushed : ℕ
 bytesPopped : ℕ
 accounted : bytesPushed = bytesPopped + bufferView.flatten.length
 fits : bufferView.flatten.length ≤ capacity.toNat

namespace ByteStream

/-- `ByteStream::ByteStream`. -/
def empty (capacity : UInt64) : ByteStream :=
 { capacity := capacity
   error := false
   closed := false
   bufferView := []
   bytesPushed := 0
   bytesPopped := 0
   accounted := rfl
   fits := Nat.zero_le _ }

section

variable (self : ByteStream)

def setError : ByteStream := { self with error := true }

def hasError : Bool := self.error

def contents : List Byte := self.bufferView.flatten

def bytesBuffered : ℕ := self.bytesPushed - self.bytesPopped

end

/-! ### Writer -/

section

variable (self : ByteStream)

def isClosed : Bool := self.closed

def close : ByteStream := { self with closed := true }

def availableCapacity : ℕ :=
 self.capacity.toNat - self.bytesBuffered

theorem bytesBuffered_eq :
 self.bytesBuffered = self.contents.length := by
 have accounted := self.accounted
 unfold bytesBuffered contents
 omega

theorem availableCapacity_eq :
 self.availableCapacity + self.contents.length = self.capacity.toNat := by
 have fits := self.fits
 unfold availableCapacity
 rw [bytesBuffered_eq]
 unfold contents
 omega

/-- `Writer::push`.  The closed flag is not consulted. -/
def push (data : List Byte) : ByteStream :=
 let towrite := min self.availableCapacity data.length
 if towrite = 0 then self
 else
  { self with
   bufferView := self.bufferView ++ [data.take towrite]
   bytesPushed := self.bytesPushed + towrite
   accounted := by
    have accounted := self.accounted
    grind
   fits := by
    have room := self.availableCapacity_eq
    unfold contents at room
    grind }

end

/-! ### Reader -/

def isFinished (self : ByteStream) : Bool := self.closed && self.bytesBuffered == 0

def peek (self : ByteStream) : List Byte := self.bufferView.headD []

/-- The loop of `Reader::pop` with `n` bytes left to drop; the second component
counts the bytes dropped. -/
def popLoop : ℕ → List (List Byte) → List (List Byte) × ℕ
 | _, [] => ([], 0)
 | n, view :: rest =>
  if n = 0 then (view :: rest, 0)
  else if n < view.length then (view.drop n :: rest, n)
  else
   let later := popLoop (n - view.length) rest
   (later.1, later.2 + view.length)

theorem popLoop_spec (views : List (List Byte)) (n : ℕ)
 (enough : n ≤ views.flatten.length) :
 (popLoop n views).1.flatten = views.flatten.drop n ∧ (popLoop n views).2 = n := by
 induction views generalizing n with
 | nil =>
  have none_left : n = 0 := by simpa using enough
  subst n
  exact ⟨rfl, rfl⟩
 | cons view rest ih =>
  rw [flatten_cons, length_append] at enough
  simp only [popLoop]
  by_cases stop : n = 0
  · rw [if_pos stop]
    exact ⟨by rw [stop, drop_zero], stop.symm⟩
  · rw [if_neg stop]
    by_cases partly : n < view.length
    · rw [if_pos partly]
      refine ⟨?_, rfl⟩
      rw [flatten_cons, flatten_cons,
       drop_append_of_le_length (by omega)]
    · rw [if_neg partly]
      obtain ⟨kept, count⟩ := ih (n - view.length) (by omega)
      refine ⟨?_, by dsimp only; omega⟩
      rw [flatten_cons, drop_append, drop_eq_nil_of_le (by omega),
       nil_append]
      exact kept

/-- `Reader::pop`. -/
def pop (self : ByteStream) (len : ℕ) : ByteStream :=
 let n := min len self.bytesBuffered
 { self with
  bufferView := (popLoop n self.bufferView).1
  bytesPopped := self.bytesPopped + (popLoop n self.bufferView).2
  accounted := by
   have accounted := self.accounted
   have buffered := self.bytesBuffered_eq
   unfold contents at buffered
   obtain ⟨kept, count⟩ := popLoop_spec self.bufferView
    (min len self.bytesBuffered) (by omega)
   rw [kept, count, length_drop]
   omega
  fits := by
   have fits := self.fits
   have buffered := self.bytesBuffered_eq
   unfold contents at buffered
   obtain ⟨kept, -⟩ := popLoop_spec self.bufferView
    (min len self.bytesBuffered) (by omega)
   rw [kept, length_drop]
   omega }

/-! ### What the operations do to the readable bytes -/

section

variable (self : ByteStream)

section

variable (data : List Byte)

theorem push_contents :
 (self.push data).contents =
  self.contents ++ data.take (min self.availableCapacity data.length) := by
 simp only [push]
 split
 · simp_all
 · simp only [contents, flatten_append, flatten_cons, flatten_nil,
    append_nil]

theorem push_bytesPushed :
 (self.push data).bytesPushed =
  self.bytesPushed + min self.availableCapacity data.length := by
 simp only [push]
 split
 · omega
 · rfl

@[simp] theorem push_capacity : (self.push data).capacity = self.capacity := by
 simp only [push]
 split <;> rfl

@[simp] theorem push_closed : (self.push data).closed = self.closed := by
 simp only [push]
 split <;> rfl

@[simp] theorem push_bytesPopped : (self.push data).bytesPopped = self.bytesPopped := by
 simp only [push]
 split <;> rfl

@[simp] theorem push_error : (self.push data).error = self.error := by
 simp only [push]
 split <;> rfl

theorem push_contents_of_fits (room : data.length ≤ self.availableCapacity) :
 (self.push data).contents = self.contents ++ data := by
 rw [push_contents, Nat.min_eq_right room, take_length]

end

theorem pop_contents (len : ℕ) : (self.pop len).contents = self.contents.drop len := by
 have buffered := self.bytesBuffered_eq
 have spec := (popLoop_spec self.bufferView (min len self.bytesBuffered)
  (by unfold contents at buffered; omega)).1
 change (popLoop _ _).1.flatten = _
 rw [spec]
 by_cases small : len ≤ self.bytesBuffered
 · rw [Nat.min_eq_left small]
   rfl
 · have emptied : self.contents.drop len = [] := drop_eq_nil_of_le (by omega)
   rw [Nat.min_eq_right (by omega), emptied]
   exact drop_eq_nil_of_le (by unfold contents at buffered; omega)

@[simp] theorem pop_capacity (len : ℕ) :
 (self.pop len).capacity = self.capacity := rfl

@[simp] theorem pop_closed (len : ℕ) :
 (self.pop len).closed = self.closed := rfl

@[simp] theorem pop_bytesPushed (len : ℕ) :
 (self.pop len).bytesPushed = self.bytesPushed := rfl

@[simp] theorem pop_error (len : ℕ) :
 (self.pop len).error = self.error := rfl

theorem pop_availableCapacity (len : ℕ) :
 (self.pop len).availableCapacity =
  self.availableCapacity + min len self.contents.length := by
 have before := self.availableCapacity_eq
 have after := (self.pop len).availableCapacity_eq
 rw [pop_contents, length_drop, pop_capacity] at after
 omega

theorem isFinished_iff : self.isFinished = true ↔ self.closed = true ∧ self.contents = [] := by
 rw [isFinished, bytesBuffered_eq, Bool.and_eq_true, beq_iff_eq, length_eq_zero_iff]

end

/-- `new` is `old` with `bytes` written behind it; it may have been closed too. -/
structure Appended (old new : ByteStream) (bytes : List Byte) : Prop where
 contents : new.contents = old.contents ++ bytes
 capacity : new.capacity = old.capacity
 bytesPopped : new.bytesPopped = old.bytesPopped
 error : new.error = old.error

theorem Appended.refl (self : ByteStream) : Appended self self [] :=
 ⟨(append_nil _).symm, rfl, rfl, rfl⟩

theorem Appended.trans {first second third : ByteStream} {left right : List Byte}
 (one : Appended first second left) (two : Appended second third right) :
 Appended first third (left ++ right) :=
 ⟨by rw [two.contents, one.contents, append_assoc],
  two.capacity.trans one.capacity, two.bytesPopped.trans one.bytesPopped,
  two.error.trans one.error⟩

variable {old new : ByteStream} {bytes : List Byte}

theorem Appended.close (appended : Appended old new bytes) : Appended old new.close bytes :=
 ⟨appended.contents, appended.capacity, appended.bytesPopped, appended.error⟩

theorem push_appended (self : ByteStream) (data : List Byte)
 (room : data.length ≤ self.availableCapacity) : Appended self (self.push data) data :=
 ⟨self.push_contents_of_fits data room, self.push_capacity data,
  self.push_bytesPopped data, self.push_error data⟩

theorem Appended.bytesPushed (appended : Appended old new bytes) :
 new.bytesPushed = old.bytesPushed + bytes.length := by
 have before := old.accounted
 have after := new.accounted
 have length := congrArg List.length appended.contents
 rw [length_append] at length
 unfold ByteStream.contents at length
 rw [after, appended.bytesPopped, length, before]
 omega

theorem Appended.availableCapacity (appended : Appended old new bytes) :
 new.availableCapacity + bytes.length = old.availableCapacity := by
 have before := old.availableCapacity_eq
 have after := new.availableCapacity_eq
 rw [appended.contents, appended.capacity, length_append] at after
 omega

end ByteStream

end MyNotes.Cs144
