/-
The reassembler of lab 1, in both versions of the notes.

The two versions share the trimming of a substring to the accepted window, the
interval merge `buffer_push` and the drain loop `buffer_pop`; they differ only in
what `insert` does with a trimmed substring.

Stream indices are natural numbers.  The right edge of the window is not an index
of a byte: it moves with the capacity, an arbitrary 64-bit value, so the sum
`next_index_ + available_capacity()` is taken modulo 2^64 as in the source.
-/

import MyNotes.Cs144.ByteStream
import MyNotes.Library.Segment

namespace MyNotes.Cs144

open Library.Segment

/-- A tuple of `buffer_`: the bytes of the closed index range `[first, last]`. -/
structure Block where
 first : ℕ
 last : ℕ
 data : List Byte
deriving DecidableEq

structure Reassembler where
 hadLast : Bool
 bufferSize : ℕ
 nextIndex : ℕ
 buffer : List Block
 output : ByteStream

namespace Reassembler

/-- `Reassembler::Reassembler`. -/
def new (output : ByteStream) : Reassembler :=
 { hadLast := false
   bufferSize := 0
   nextIndex := 0
   buffer := []
   output := output }

section

variable (self : Reassembler)

def bytesPending : ℕ := self.bufferSize

def pushToOutput (data : List Byte) : Reassembler :=
 { self with
  nextIndex := self.nextIndex + data.length
  output := self.output.push data }

def closeOutput : Reassembler :=
 { self with output := self.output.close }

/-- The part of `buffer_push` after the two binary searches: `before` ends at the
iterator `lef`, `inside` is `[lef, rig)` and `fromRig` starts at `rig`. -/
def mergeCut (before inside fromRig : List Block)
 (firstIndex endIndex : ℕ) (data : List Byte) : Reassembler :=
 let lef := (inside ++ fromRig).head?
 let l := lef.elim firstIndex (fun lef => min firstIndex lef.first)
 let r := (before ++ inside).getLast?.elim endIndex (fun prev => max endIndex prev.last)
 if lef.any (fun lef => lef.first = l ∧ lef.last = r) then
  self
 else if data.length = r + 1 - l ∧ inside = [] then
  { self with
   bufferSize := self.bufferSize + (r + 1 - l)
   buffer := before ++ ⟨l, r, data⟩ :: fromRig }
 else
  let copied := inside.foldl
   (fun s block => copyAt s (block.first - l) block.data)
   (List.replicate (r + 1 - l) 0)
  { self with
   bufferSize := inside.foldl (fun size block => size - block.data.length)
    (self.bufferSize + (r + 1 - l))
   buffer := before ++ ⟨l, r, copyAt copied (firstIndex - l) data⟩ :: fromRig }

/-- `buffer_push` of the bytes of `[firstIndex, endIndex]`: `lower_bound` skips the
blocks that end before the range, `upper_bound` stops at the first block that
starts behind it. -/
def bufferPush (firstIndex endIndex : ℕ) (data : List Byte) : Reassembler :=
 let endsBefore : Block → Bool := fun block => block.last < firstIndex
 let notBehind : Block → Bool := fun block => !decide (endIndex < block.first)
 let fromLef := self.buffer.dropWhile endsBefore
 self.mergeCut (self.buffer.takeWhile endsBefore) (fromLef.takeWhile notBehind)
  (fromLef.dropWhile notBehind) firstIndex endIndex data

theorem bufferPush_frame (firstIndex endIndex : ℕ)
 (data : List Byte) :
 (self.bufferPush firstIndex endIndex data).hadLast = self.hadLast ∧
  (self.bufferPush firstIndex endIndex data).nextIndex = self.nextIndex ∧
  (self.bufferPush firstIndex endIndex data).output = self.output := by
 unfold bufferPush mergeCut
 dsimp only
 split
 · exact ⟨rfl, rfl, rfl⟩
 · split <;> exact ⟨rfl, rfl, rfl⟩

end

/-- The loop of `buffer_pop`, run over the blocks still in the buffer. -/
def bufferPopLoop : List Block → Reassembler → Reassembler
 | [], self => { self with buffer := [] }
 | front :: rest, self =>
  if front.first = self.nextIndex then
   bufferPopLoop rest
    (pushToOutput { self with bufferSize := self.bufferSize - front.data.length }
     front.data)
  else { self with buffer := front :: rest }

def bufferPop (self : Reassembler) : Reassembler :=
 let drained := bufferPopLoop self.buffer self
 if drained.hadLast && drained.buffer.isEmpty then drained.closeOutput else drained

/-- `std::string::substr`; a start past the end throws `std::out_of_range`. -/
def substr (data : List Byte) (pos : ℕ) : Option (List Byte) :=
 if data.length < pos then none else some (data.drop pos)

/-- What the window leaves of a non-empty substring. -/
inductive Trim
 | ignored
 | outOfRange
 | accepted (firstIndex endIndex : ℕ) (data : List Byte) (isLastSubstring : Bool)

section

variable (self : Reassembler)

/-- `last_index`, the right edge of the window as the source computes it. -/
def lastIndex : ℕ :=
 (self.nextIndex + self.output.availableCapacity) % 2 ^ 64

def trim (firstIndex : ℕ) (data : List Byte) (isLastSubstring : Bool) : Trim :=
 let endIndex := firstIndex + data.length
 if endIndex ≤ self.nextIndex ∨ self.lastIndex ≤ firstIndex then .ignored
 else
  let (data, endIndex, isLastSubstring) :=
   if self.lastIndex < endIndex then
    (data.take (self.lastIndex - firstIndex), self.lastIndex, false)
   else (data, endIndex, isLastSubstring)
  if firstIndex < self.nextIndex then
   match substr data (self.nextIndex - firstIndex) with
   | none => .outOfRange
   | some tail => .accepted self.nextIndex endIndex tail isLastSubstring
  else .accepted firstIndex endIndex data isLastSubstring

/-- The end of both versions of `insert`: `had_last_ |= …; buffer_pop();`. -/
def finishInsert (isLastSubstring : Bool) : Reassembler :=
 bufferPop { self with hadLast := self.hadLast || isLastSubstring }

/-- `insert` of the first version; `none` is the exception of `substr`. -/
def insert (firstIndex : ℕ) (data : List Byte) (isLastSubstring : Bool) : Option Reassembler :=
 if data = [] then
  some (if isLastSubstring then self.closeOutput else self)
 else
  match self.trim firstIndex data isLastSubstring with
  | .ignored => some self
  | .outOfRange => none
  | .accepted firstIndex endIndex data isLastSubstring =>
   some ((self.bufferPush firstIndex (endIndex - 1) data).finishInsert
    isLastSubstring)

/-- The test of the second version for pushing a substring without buffering it. -/
def goesDirect (firstIndex endIndex : ℕ) : Bool :=
 firstIndex == self.nextIndex &&
  match self.buffer with
  | [] => true
  | front :: _ => endIndex ≤ front.last + 1

/-- The part of a direct substring that the first block does not hold. -/
def directData (firstIndex endIndex : ℕ) (data : List Byte) : List Byte :=
 match self.buffer with
 | [] => data
 | front :: _ => data.take (min endIndex front.first - firstIndex)

/-- `insert` of the second version. -/
def insertDirect (firstIndex : ℕ) (data : List Byte)
 (isLastSubstring : Bool) : Option Reassembler :=
 if data = [] then
  some (if isLastSubstring then self.closeOutput else self)
 else
  match self.trim firstIndex data isLastSubstring with
  | .ignored => some self
  | .outOfRange => none
  | .accepted firstIndex endIndex data isLastSubstring =>
   if self.goesDirect firstIndex endIndex then
    some ((self.pushToOutput
     (self.directData firstIndex endIndex data)).finishInsert isLastSubstring)
   else
    some ((self.bufferPush firstIndex (endIndex - 1) data).finishInsert
     isLastSubstring)

end

end Reassembler

end MyNotes.Cs144
