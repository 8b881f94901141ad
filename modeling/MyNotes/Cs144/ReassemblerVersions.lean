/-
The two versions of the reassembler agree.

Their blocks differ, so the states are related through what both know: the set of
known indices fixes the next index, the bytes pending and whether the buffer is
empty, and both versions add the same range to it.
-/

import Mathlib.Order.Interval.Finset.Nat
import MyNotes.Cs144.ReassemblerRuns

namespace MyNotes.Cs144.Reassembler

open Library.Segment Finset Reassembler
open Library.Transition

/-! ### The bytes pending are the indices covered -/

def coveredIndices : List Block → Finset ℕ
 | [] => ∅
 | block :: rest => Finset.Icc block.first block.last ∪ coveredIndices rest

theorem mem_coveredIndices (buffer : List Block) (index : ℕ) :
 index ∈ coveredIndices buffer ↔ Covers buffer index := by
 induction buffer with
 | nil => simp [coveredIndices]
 | cons block rest ih =>
  rw [coveredIndices, mem_union, mem_Icc, ih, covers_cons]

variable {stream : ℕ → Byte}

theorem card_coveredIndices {buffer : List Block} (blocks : SortedBlocks stream buffer) :
 (coveredIndices buffer).card = totalSize buffer := by
 induction buffer with
 | nil => rfl
 | cons block rest ih =>
  obtain ⟨holds, restBlocks, before⟩ := SortedBlocks.cons_iff.mp blocks
  have apart : Disjoint (Finset.Icc block.first block.last) (coveredIndices rest) := by
   rw [disjoint_left]
   intro index inBlock inRest
   rw [mem_Icc] at inBlock
   obtain ⟨other, member, range⟩ := (mem_coveredIndices rest index).mp inRest
   have later := before other member
   omega
  rw [coveredIndices, card_union_of_disjoint apart, ih restBlocks, Nat.card_Icc,
   totalSize_cons, holds.size]

/-! ### The relation between the two versions -/

structure View where
 delivered : List Byte
 readable : List Byte
 pending : ℕ
 closed : Bool

def Client.view (client : Client) : View :=
 { delivered := client.delivered
   readable := client.reassembler.output.contents
   pending := client.reassembler.bytesPending
   closed := client.reassembler.output.closed }

/-- Two reassemblers of one stream that know the same. -/
structure Twins (stream : ℕ → Byte) (left right : Reassembler) : Prop where
 leftSound : left.Sound stream
 rightSound : right.Sound stream
 known : ∀ index, left.Known index ↔ right.Known index
 contents : left.output.contents = right.output.contents
 capacity : left.output.capacity = right.output.capacity
 hadLast : left.hadLast = right.hadLast
 closed : left.output.closed = right.output.closed

namespace Twins

variable {stream : ℕ → Byte} {left right : Reassembler}

variable (twins : Twins stream left right)
include twins

theorem nextIndex : left.nextIndex = right.nextIndex :=
 twins.leftSound.nextIndex_unique twins.rightSound twins.known

theorem availableCapacity : left.output.availableCapacity = right.output.availableCapacity := by
 have leftRoom := left.output.availableCapacity_eq
 have rightRoom := right.output.availableCapacity_eq
 rw [twins.contents, twins.capacity] at leftRoom
 omega

theorem lastIndex : left.lastIndex = right.lastIndex := by
 unfold Reassembler.lastIndex
 rw [twins.nextIndex, twins.availableCapacity]

theorem covers (index : ℕ) : Covers left.buffer index ↔ Covers right.buffer index := by
 rw [twins.leftSound.covers_iff, twins.rightSound.covers_iff, twins.known, twins.nextIndex]

theorem bytesPending : left.bytesPending = right.bytesPending := by
 have same : coveredIndices left.buffer = coveredIndices right.buffer := by
  ext index
  rw [mem_coveredIndices, mem_coveredIndices, twins.covers]
 calc
  left.bytesPending = (coveredIndices left.buffer).card :=
   twins.leftSound.size.trans (card_coveredIndices twins.leftSound.blocks).symm
  _ = (coveredIndices right.buffer).card := by rw [same]
  _ = right.bytesPending :=
   (card_coveredIndices twins.rightSound.blocks).trans twins.rightSound.size.symm

theorem closeOutput : Twins stream left.closeOutput right.closeOutput :=
 ⟨closeOutput_sound twins.leftSound, closeOutput_sound twins.rightSound, twins.known,
  twins.contents, twins.capacity, twins.hadLast, rfl⟩

theorem pop (len : ℕ) : Twins stream (left.pop len) (right.pop len) where
 leftSound := twins.leftSound.pop len
 rightSound := twins.rightSound.pop len
 known := twins.known
 contents := by
  change (left.output.pop len).contents = (right.output.pop len).contents
  rw [ByteStream.pop_contents, ByteStream.pop_contents, twins.contents]
 capacity := twins.capacity
 hadLast := twins.hadLast
 closed := twins.closed

theorem absorb {left' right' : Reassembler} {first stop : ℕ} {isLastSubstring : Bool}
 (leftAbsorbs : Absorbs stream left left' first stop isLastSubstring)
 (rightAbsorbs : Absorbs stream right right' first stop isLastSubstring) :
 Twins stream left' right' := by
 have known : ∀ index, left'.Known index ↔ right'.Known index := by
  intro index
  rw [leftAbsorbs.known, rightAbsorbs.known, twins.known]
 have next := leftAbsorbs.sound.nextIndex_unique rightAbsorbs.sound known
 have hadLast : left'.hadLast = right'.hadLast := by
  rw [leftAbsorbs.hadLast, rightAbsorbs.hadLast, twins.hadLast]
 have drained : left'.buffer.isEmpty = right'.buffer.isEmpty := by
  rw [Bool.eq_iff_iff, List.isEmpty_iff, List.isEmpty_iff,
   leftAbsorbs.sound.buffer_eq_nil_iff, rightAbsorbs.sound.buffer_eq_nil_iff, next]
  exact forall_congr' fun index => imp_congr_left (known index)
 refine ⟨leftAbsorbs.sound, rightAbsorbs.sound, known, ?_, ?_, hadLast, ?_⟩
 · rw [leftAbsorbs.output.contents, rightAbsorbs.output.contents, twins.contents,
    twins.nextIndex, next]
 · rw [leftAbsorbs.output.capacity, rightAbsorbs.output.capacity, twins.capacity]
 · rw [leftAbsorbs.closed, rightAbsorbs.closed, twins.closed, hadLast, drained]

theorem inserted {first length : ℕ} {isLastSubstring : Bool} {left' right' : Option Reassembler}
 (leftInserted : Inserted stream left first length isLastSubstring left')
 (rightInserted : Inserted stream right first length isLastSubstring right') :
 Option.Rel (Twins stream) left' right' := by
 have next := twins.nextIndex
 have room := twins.availableCapacity
 have edge := twins.lastIndex
 have reaches : left.Reaches first length ↔ right.Reaches first length := by
  unfold Reaches
  rw [next, edge]
 cases leftInserted with
 | ignored outside =>
  cases rightInserted with
  | ignored _ => exact .some twins
  | thrown inside _ => exact absurd (reaches.mpr inside) outside
  | taken inside _ _ => exact absurd (reaches.mpr inside) outside
 | thrown inside wrapped =>
  cases rightInserted with
  | ignored outside => exact absurd (reaches.mp inside) outside
  | thrown _ _ => exact .none
  | taken _ exact_edge _ => omega
 | taken inside exact_edge leftAbsorbs =>
  cases rightInserted with
  | ignored outside => exact absurd (reaches.mp inside) outside
  | thrown _ wrapped => omega
  | taken _ _ rightAbsorbs =>
   rw [next, room] at leftAbsorbs
   exact .some (twins.absorb leftAbsorbs rightAbsorbs)

theorem insert {first : ℕ} {data : List Byte} (isLastSubstring : Bool)
 (content : data = segment stream first data.length) :
 Option.Rel (Twins stream) (left.insert first data isLastSubstring)
  (right.insertDirect first data isLastSubstring) := by
 by_cases empty : data = []
 · rw [Reassembler.insert, insertDirect, if_pos empty, if_pos empty]
   cases isLastSubstring with
   | false => exact .some twins
   | true => exact .some twins.closeOutput
 · exact twins.inserted (insert_spec isLastSubstring twins.leftSound empty content)
    (insertDirect_spec isLastSubstring twins.rightSound empty content)

end Twins

/-! ### The two versions, call by call -/

/-- Twin reassemblers whose readers have got the same bytes. -/
structure TwinClients (stream : ℕ → Byte) (left right : Client) : Prop where
 twins : Twins stream left.reassembler right.reassembler
 delivered : left.delivered = right.delivered

theorem TwinClients.view {left right : Client} (related : TwinClients stream left right) :
 left.view = right.view := by
 unfold Client.view
 rw [related.delivered, related.twins.contents, related.twins.bytesPending,
  related.twins.closed]

theorem TwinClients.call {left right : Client} (related : TwinClients stream left right)
 {event : Call} (agrees : event.Agrees stream) :
 Option.Rel (TwinClients stream) (left.call insert event)
  (right.call insertDirect event) := by
 cases event with
 | insert first data isLastSubstring =>
  have both := related.twins.insert isLastSubstring agrees
  simp only [Client.call]
  generalize left.reassembler.insert first data isLastSubstring = left' at both ⊢
  generalize right.reassembler.insertDirect first data isLastSubstring = right' at both ⊢
  cases both with
  | none => exact .none
  | some twins => exact .some ⟨twins, related.delivered⟩
 | pop len =>
  refine .some ⟨related.twins.pop len, ?_⟩
  rw [related.delivered, related.twins.contents]

/-- After every sequence of calls both versions show the same, or both have thrown. -/
theorem versions_agree (stream : ℕ → Byte) (capacity : UInt64) (calls : List Call)
 (agree : ∀ call ∈ calls, call.Agrees stream) :
 (replay (Client.call Reassembler.insert) (Client.new capacity) calls).map Client.view =
  (replay (Client.call Reassembler.insertDirect) (Client.new capacity) calls).map
   Client.view := by
 have start : TwinClients stream (Client.new capacity) (Client.new capacity) :=
  ⟨⟨new_sound stream _ rfl, new_sound stream _ rfl, fun _ => Iff.rfl, rfl, rfl, rfl, rfl⟩,
   rfl⟩
 have preserved : ∀ left right, TwinClients stream left right → ∀ event ∈ calls,
  Option.Rel (TwinClients stream) (left.call Reassembler.insert event)
   (right.call Reassembler.insertDirect event) :=
  fun _ _ both event member => both.call (agree event member)
 have related := replay_related calls preserved start
 generalize replay (Client.call Reassembler.insert) (Client.new capacity) calls = left
  at related ⊢
 generalize replay (Client.call Reassembler.insertDirect) (Client.new capacity) calls = right
  at related ⊢
 cases related with
 | none => rfl
 | some both => exact congrArg some both.view

theorem versions_agree_overlapping :
 (replay (Client.call Reassembler.insert) (Client.new 6)
  [.insert 2 [2, 3] false, .insert 0 [0, 1, 2, 3, 4] true]).map Client.view =
  (replay (Client.call Reassembler.insertDirect) (Client.new 6)
   [.insert 2 [2, 3] false, .insert 0 [0, 1, 2, 3, 4] true]).map Client.view :=
 versions_agree (fun index => UInt8.ofNat index) 6 _ (by decide)

end MyNotes.Cs144.Reassembler
