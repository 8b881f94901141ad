/-
What one `insert` does to a sound reassembler.

A client knows the reassembler by the indices it has accepted so far.  The next
index is the first one missing, the output holds everything below it, and the
buffer holds the rest.  Both versions of `insert` add the accepted part of the
substring to that set and do nothing else, which is what `Absorbs` says.
-/

import MyNotes.Cs144.ReassemblerBuffer

namespace MyNotes.Cs144.Reassembler

open Library.Segment List Nat

/-- The byte at `index` has been pushed or is held in a block. -/
def Known (self : Reassembler) (index : ℕ) : Prop :=
 index < self.nextIndex ∨ Covers self.buffer index

/-- The blocks are those of the stream and lie in the window, from `low` on. -/
structure Ready (stream : ℕ → Byte) (state : Reassembler) (low : ℕ) : Prop where
 next_eq : state.nextIndex = state.output.bytesPushed
 blocks : SortedBlocks stream state.buffer
 above : ∀ block ∈ state.buffer, low ≤ block.first
 below : ∀ block ∈ state.buffer,
  block.last < state.nextIndex + state.output.availableCapacity
 size : state.bufferSize = totalSize state.buffer

/-- Between two calls every block starts behind the next index. -/
def Sound (stream : ℕ → Byte) (self : Reassembler) : Prop :=
 self.Ready stream (self.nextIndex + 1)

/-- `new` is `old` after the range `[first, stop)` has been taken in. -/
structure Absorbs (stream : ℕ → Byte) (old new : Reassembler)
 (first stop : ℕ) (isLastSubstring : Bool) : Prop where
 sound : new.Sound stream
 known : ∀ index, new.Known index ↔
  old.Known index ∨ (first ≤ index ∧ index < stop)
 advance : old.nextIndex ≤ new.nextIndex
 output : ByteStream.Appended old.output new.output
  (segment stream old.nextIndex (new.nextIndex - old.nextIndex))
 hadLast : new.hadLast = (old.hadLast || isLastSubstring)
 closed : new.output.closed =
  (old.output.closed || (new.hadLast && new.buffer.isEmpty))

theorem new_sound (stream : ℕ → Byte) (output : ByteStream)
 (fresh : output.bytesPushed = 0) : (new output).Sound stream where
 next_eq := fresh.symm
 blocks := .nil
 above := by intro block member; cases member
 below := by intro block member; cases member
 size := rfl

variable {stream : ℕ → Byte} {self : Reassembler}

/-! ### The known indices fix the visible state -/

section

variable (sound : self.Sound stream)
include sound

theorem Sound.next_not_known : ¬ self.Known self.nextIndex := by
 rintro (below | ⟨block, member, range⟩)
 · omega
 · have above := sound.above block member
   omega

theorem Sound.nextIndex_unique {other : Reassembler} (otherSound : other.Sound stream)
 (same : ∀ index, self.Known index ↔ other.Known index) : self.nextIndex = other.nextIndex := by
 rcases lt_trichotomy self.nextIndex other.nextIndex with less | equal | more
 · exact absurd ((same _).mpr (.inl less)) sound.next_not_known
 · exact equal
 · exact absurd ((same _).mp (.inl more)) otherSound.next_not_known

theorem Sound.covers_iff (index : ℕ) :
 Covers self.buffer index ↔ self.Known index ∧ self.nextIndex ≤ index := by
 constructor
 · intro covered
   obtain ⟨block, member, range⟩ := covered
   have above := sound.above block member
   exact ⟨.inr ⟨block, member, range⟩, by omega⟩
 · rintro ⟨below | covered, high⟩
   · omega
   · exact covered

theorem Sound.buffer_eq_nil_iff :
 self.buffer = [] ↔ ∀ index, self.Known index → index < self.nextIndex := by
 constructor
 · intro empty index known
   rcases known with below | covered
   · exact below
   · simp_all
 · intro complete
   refine eq_nil_iff_forall_not_mem.mpr fun block member => ?_
   have covered := sound.blocks.covers_first member
   have above := sound.above block member
   have below := complete _ (.inr covered)
   omega

theorem Sound.buffer_eq_nil_of_full (full : self.output.availableCapacity = 0) :
 self.buffer = [] := by
 refine eq_nil_iff_forall_not_mem.mpr fun block member => ?_
 have above := sound.above block member
 have below := sound.below block member
 have ordered := (sound.blocks.holds block member).nonempty
 omega

end

/-! ### The drain loop -/

/-- What the drain loop guarantees from a buffer whose blocks may start at the
next index. -/
structure Drained (stream : ℕ → Byte) (old : Reassembler) (buffer : List Block)
 (new : Reassembler) : Prop where
 sound : new.Sound stream
 known : ∀ index, new.Known index ↔
  index < old.nextIndex ∨ Covers buffer index
 advance : old.nextIndex ≤ new.nextIndex
 output : ByteStream.Appended old.output new.output
  (segment stream old.nextIndex (new.nextIndex - old.nextIndex))
 hadLast : new.hadLast = old.hadLast
 closed : new.output.closed = old.output.closed

theorem bufferPopLoop_spec (self : Reassembler) (buffer : List Block)
 (ready : Ready stream { self with buffer := buffer } self.nextIndex) :
 Drained stream self buffer (bufferPopLoop buffer self) := by
 induction buffer generalizing self with
 | nil =>
  refine ⟨⟨ready.next_eq, .nil, ?_, ?_, ready.size⟩, fun index => Iff.rfl,
   le_refl _, ?_, rfl, rfl⟩
  · intro block member; cases member
  · intro block member; cases member
  · change ByteStream.Appended _ _
     (segment stream self.nextIndex (self.nextIndex - self.nextIndex))
    rw [Nat.sub_self]
    exact .refl _
 | cons front rest ih =>
  obtain ⟨frontHolds, restBlocks, frontFirst⟩ :=
   SortedBlocks.cons_iff.mp ready.blocks
  have frontAbove : self.nextIndex ≤ front.first :=
   ready.above front mem_cons_self
  have frontBelow : front.last < self.nextIndex + self.output.availableCapacity :=
   ready.below front mem_cons_self
  have frontOrdered := frontHolds.nonempty
  have frontSize := frontHolds.size
  simp only [bufferPopLoop]
  by_cases atFront : front.first = self.nextIndex
  · rw [if_pos atFront]
    have room : front.data.length ≤ self.output.availableCapacity := by omega
    have pushed := self.output.push_appended front.data room
    have pushedRoom := pushed.availableCapacity
    have size := ready.size
    have next_eq := ready.next_eq
    dsimp only at size next_eq
    rw [totalSize_cons] at size
    -- The state after one round of the loop, ready for the remaining blocks.
    have drained := ih (pushToOutput
     { self with bufferSize := self.bufferSize - front.data.length } front.data)
     { next_eq := by
        change self.nextIndex + front.data.length =
         (self.output.push front.data).bytesPushed
        rw [pushed.bytesPushed, next_eq]
       blocks := restBlocks
       above := by
        intro block member
        have later := frontFirst block member
        change self.nextIndex + front.data.length ≤ block.first
        omega
       below := by
        intro block member
        have below := ready.below block (mem_cons_of_mem _ member)
        change block.last < self.nextIndex + front.data.length +
         (self.output.push front.data).availableCapacity
        dsimp only at below
        omega
       size := by
        change self.bufferSize - front.data.length = totalSize rest
        omega }
    have advance : self.nextIndex + front.data.length ≤ _ := drained.advance
    refine ⟨drained.sound, ?_, by omega, ?_, drained.hadLast, ?_⟩
    · intro index
      rw [drained.known index, covers_cons]
      change index < self.nextIndex + front.data.length ∨ _ ↔ _
      constructor
      · rintro (below | covered)
        · by_cases old : index < self.nextIndex
          · exact .inl old
          · exact .inr (.inl ⟨by omega, by omega⟩)
        · exact .inr (.inr covered)
      · rintro (below | inFront | covered)
        · exact .inl (by omega)
        · exact .inl (by omega)
        · exact .inr covered
    · have content := frontHolds.content
      rw [← frontSize, atFront] at content
      have both := pushed.trans drained.output
      change ByteStream.Appended _ _ (front.data ++
       segment stream (self.nextIndex + front.data.length)
        (_ - (self.nextIndex + front.data.length))) at both
      rw [append_segment content advance] at both
      exact both
    · rw [drained.closed]
      exact self.output.push_closed _
  · rw [if_neg atFront]
    refine ⟨⟨ready.next_eq, ready.blocks, ?_, ready.below, ready.size⟩,
     fun index => Iff.rfl, le_refl _, ?_, rfl, rfl⟩
    · intro block member
      have above : front.first ≤ block.first := by
       rcases mem_cons.mp member with same | later
       · rw [same]
       · have before := frontFirst block later
         omega
      grind
    · rw [Nat.sub_self]
      exact .refl _

theorem finishInsert_absorbs (ready : Ready stream self self.nextIndex)
 (isLastSubstring : Bool) :
 Absorbs stream self (self.finishInsert isLastSubstring) 0 0 isLastSubstring := by
 have drained := bufferPopLoop_spec
  { self with hadLast := self.hadLast || isLastSubstring }
  self.buffer ⟨ready.next_eq, ready.blocks, ready.above, ready.below, ready.size⟩
 unfold finishInsert bufferPop
 generalize bufferPopLoop self.buffer _ = popped at drained ⊢
 have sound := drained.sound
 by_cases closing : (popped.hadLast && popped.buffer.isEmpty) = true
 · rw [if_pos closing]
   refine ⟨⟨sound.next_eq, sound.blocks, sound.above, sound.below, sound.size⟩,
    ?_, drained.advance, drained.output.close, drained.hadLast, ?_⟩
   · intro index
     rw [show (popped.closeOutput.Known index ↔ popped.Known index) from Iff.rfl,
      drained.known index]
     simp [Known]
   · change true = (self.output.closed || (popped.hadLast && popped.buffer.isEmpty))
     rw [closing, Bool.or_true]
 · rw [if_neg closing]
   refine ⟨sound, ?_, drained.advance, drained.output, drained.hadLast, ?_⟩
   · intro index
     rw [drained.known index]
     simp [Known]
   · rw [drained.closed, Bool.eq_false_of_not_eq_true closing, Bool.or_false]

/-! ### The trimming -/

/-- What an accepted substring has become: the part in the window. -/
structure Trimmed (stream : ℕ → Byte) (state : Reassembler) (first length : ℕ)
 (isLastSubstring : Bool) (first' stop' : ℕ) (data' : List Byte)
 (isLast' : Bool) : Prop where
 edge : state.lastIndex = state.nextIndex + state.output.availableCapacity
 first_eq : first' = max first state.nextIndex
 stop_eq : stop' = min (first + length) (state.nextIndex + state.output.availableCapacity)
 ordered : first' ≤ stop'
 content : data' = segment stream first' (stop' - first')
 isLast_eq : isLast' = (isLastSubstring &&
  decide (first + length ≤ state.nextIndex + state.output.availableCapacity))
 empty_only_full : first' = stop' →
  first' = state.nextIndex ∧ 0 < state.nextIndex ∧ state.output.availableCapacity = 0

theorem lastIndex_cases (self : Reassembler) :
 self.lastIndex = self.nextIndex + self.output.availableCapacity ∨
  self.lastIndex < self.nextIndex := by
 have room : self.output.availableCapacity < 2 ^ 64 := by
  have total := self.output.availableCapacity_eq
  have word := self.output.capacity.toNat_lt
  omega
 unfold lastIndex
 omega

theorem lastIndex_eq_of_lt
 (room : self.nextIndex + self.output.availableCapacity < 2 ^ 64) :
 self.lastIndex = self.nextIndex + self.output.availableCapacity :=
 mod_eq_of_lt room

variable {isLastSubstring : Bool} {data : List Byte} {first : ℕ}

theorem trim_eq (reaches : self.nextIndex < first + data.length) (starts : first < self.lastIndex) :
 self.trim first data isLastSubstring =
  if min (first + data.length) self.lastIndex < self.nextIndex then .outOfRange
  else .accepted (max first self.nextIndex)
   (min (first + data.length) self.lastIndex)
   ((data.take (self.lastIndex - first)).drop (self.nextIndex - first))
   (isLastSubstring && decide (first + data.length ≤ self.lastIndex)) := by
 unfold trim
 rw [if_neg (by omega)]
 by_cases cut : self.lastIndex < first + data.length
 · simp only [if_pos cut, Nat.min_eq_right (le_of_lt cut), decide_eq_false (not_le_of_gt cut),
    Bool.and_false]
   have length : (data.take (self.lastIndex - first)).length = self.lastIndex - first := by
    rw [length_take]
    omega
   by_cases early : first < self.nextIndex
   · rw [if_pos early, substr, length, Nat.max_eq_right (le_of_lt early)]
     by_cases past : self.lastIndex < self.nextIndex
     · rw [if_pos (by omega), if_pos past]
     · rw [if_neg (by omega), if_neg past]
   · have late := not_lt.mp early
     rw [if_neg early, if_neg (by omega), Nat.max_eq_left late,
      Nat.sub_eq_zero_of_le late, drop_zero]
 · have whole : data.take (self.lastIndex - first) = data :=
    take_of_length_le (by omega)
   simp only [if_neg cut, Nat.min_eq_left (not_lt.mp cut), decide_eq_true (not_lt.mp cut),
    Bool.and_true, whole]
   rw [if_neg (by omega : ¬ first + data.length < self.nextIndex)]
   by_cases early : first < self.nextIndex
   · rw [if_pos early, substr, if_neg (by omega), Nat.max_eq_right (le_of_lt early)]
   · have late := not_lt.mp early
     simp_all

theorem trim_accepted {data' : List Byte} {isLast' : Bool} {first' stop' : ℕ} (nonempty : data ≠ [])
 (content : data = segment stream first data.length)
 (accepted : self.trim first data isLastSubstring =
  .accepted first' stop' data' isLast') :
 Trimmed stream self first data.length isLastSubstring first' stop' data' isLast' := by
 by_cases ignored : first + data.length ≤ self.nextIndex ∨ self.lastIndex ≤ first
 · rw [trim, if_pos ignored] at accepted
   cases accepted
 · rw [not_or, not_le, not_le] at ignored
   rw [trim_eq ignored.1 ignored.2] at accepted
   split at accepted
   · cases accepted
   · rename_i within
     injection accepted with firstEq stopEq dataEq lastEq
     have edge : self.lastIndex = self.nextIndex + self.output.availableCapacity := by
      rcases self.lastIndex_cases with exact_edge | wrapped
      · exact exact_edge
      · omega
     rw [edge] at ignored within stopEq dataEq lastEq
     refine ⟨edge, firstEq.symm, stopEq.symm, by omega, ?_, lastEq.symm, ?_⟩
     · rw [← dataEq, content, segment_take, segment_drop]
       congr 1 <;> omega
     · intro emptied
       have positive := length_pos_iff.mpr nonempty
       omega

theorem trim_ignored (ignored : self.trim first data isLastSubstring = .ignored) :
 first + data.length ≤ self.nextIndex ∨ self.lastIndex ≤ first := by
 by_contra inside
 rw [not_or, not_le, not_le] at inside
 rw [trim_eq inside.1 inside.2] at ignored
 split at ignored <;> cases ignored

theorem trim_ne_outOfRange
 (edge : self.lastIndex = self.nextIndex + self.output.availableCapacity) :
 self.trim first data isLastSubstring ≠ .outOfRange := by
 intro thrown
 by_cases ignored : first + data.length ≤ self.nextIndex ∨ self.lastIndex ≤ first
 · rw [trim, if_pos ignored] at thrown
   cases thrown
 · rw [not_or, not_le, not_le] at ignored
   rw [trim_eq ignored.1 ignored.2, if_neg (by omega)] at thrown
   cases thrown

/-! ### The two ways to take in a substring -/

variable {stop : ℕ}

theorem absorbs_of_ready {middle : Reassembler} (bytes : List Byte)
 (ready : Ready stream middle middle.nextIndex) (known : ∀ index, middle.Known index ↔
  self.Known index ∨ (first ≤ index ∧ index < stop))
 (content : bytes = segment stream self.nextIndex bytes.length)
 (next : middle.nextIndex = self.nextIndex + bytes.length)
 (output : ByteStream.Appended self.output middle.output bytes)
 (hadLast : middle.hadLast = self.hadLast) (closed : middle.output.closed = self.output.closed) :
 Absorbs stream self (middle.finishInsert isLastSubstring) first stop
  isLastSubstring := by
 have finished := finishInsert_absorbs ready isLastSubstring
 have advance := finished.advance
 have both := output.trans finished.output
 rw [next] at both advance
 rw [append_segment content advance] at both
 refine ⟨finished.sound, ?_, by omega, both, ?_, ?_⟩
 · intro index
   rw [finished.known index, known index]
   simp
 · rw [finished.hadLast, hadLast]
 · rw [finished.closed, closed]

theorem bufferPush_absorbs (sound : self.Sound stream) (isLastSubstring : Bool)
 (nonempty : first < stop) (above : self.nextIndex ≤ first)
 (below : stop ≤ self.nextIndex + self.output.availableCapacity)
 (content : data = segment stream first (stop - first)) :
 Absorbs stream self
  ((self.bufferPush first (stop - 1) data).finishInsert isLastSubstring)
  first stop isLastSubstring := by
 have pushed := bufferPush_spec sound.blocks sound.size nonempty content
 obtain ⟨hadLast, next, output⟩ := self.bufferPush_frame first (stop - 1) data
 have next_eq := sound.next_eq
 have bounds : ∀ block ∈ (self.bufferPush first (stop - 1) data).buffer,
  self.nextIndex ≤ block.first ∧
   block.last < self.nextIndex + self.output.availableCapacity := by
  intro block member
  constructor
  · rcases (pushed.covers _).mp (pushed.blocks.covers_first member) with
     ⟨old, oldMember, range⟩ | new
    · have oldAbove := sound.above old oldMember
      omega
    · omega
  · rcases (pushed.covers _).mp (pushed.blocks.covers_last member) with
     ⟨old, oldMember, range⟩ | new
    · have oldBelow := sound.below old oldMember
      omega
    · omega
 refine absorbs_of_ready [] ⟨?_, pushed.blocks, ?_, ?_, pushed.size⟩ ?_ rfl
  next ?_ hadLast (by rw [output])
 · rw [next, output, next_eq]
 · simp_all
 · simp_all
 · intro index
   unfold Known
   rw [next, pushed.covers]
   grind
 · rw [output]
   exact .refl _

theorem bufferPush_empty_absorbs (sound : self.Sound stream)
 (full : self.output.availableCapacity = 0) (positive : 0 < self.nextIndex)
 (isLastSubstring : Bool) :
 Absorbs stream self
  ((self.bufferPush self.nextIndex (self.nextIndex - 1) []).finishInsert
   isLastSubstring)
  self.nextIndex self.nextIndex isLastSubstring := by
 have empty := sound.buffer_eq_nil_of_full full
 have emplaced : self.bufferPush self.nextIndex (self.nextIndex - 1) [] =
  { self with buffer := [⟨self.nextIndex, self.nextIndex - 1, []⟩] } := by
  have width : self.nextIndex - 1 + 1 - self.nextIndex = 0 := by omega
  simp [bufferPush, mergeCut, empty, width]
 have drained : bufferPopLoop
  [(⟨self.nextIndex, self.nextIndex - 1, []⟩ : Block)]
  { self with
   buffer := [⟨self.nextIndex, self.nextIndex - 1, []⟩]
   hadLast := self.hadLast || isLastSubstring } =
  bufferPopLoop [] { self with hadLast := self.hadLast || isLastSubstring } := by
  simp [bufferPopLoop, pushToOutput, ByteStream.push]
 have same : (self.bufferPush self.nextIndex (self.nextIndex - 1) []).finishInsert
  isLastSubstring = self.finishInsert isLastSubstring := by
  unfold finishInsert bufferPop
  rw [emplaced]
  rw [drained, empty]
 rw [same]
 refine absorbs_of_ready [] ⟨sound.next_eq, sound.blocks, ?_, sound.below,
  sound.size⟩ ?_ rfl rfl (.refl _) rfl rfl
 · intro block member
   have above := sound.above block member
   omega
 · intro index
   constructor
   · exact .inl
   · rintro (old | none)
     · exact old
     · omega

theorem direct_absorbs (sound : self.Sound stream) (isLastSubstring : Bool)
 (direct : self.goesDirect first stop = true) (ordered : first ≤ stop)
 (below : stop ≤ self.nextIndex + self.output.availableCapacity)
 (content : data = segment stream first (stop - first)) :
 Absorbs stream self
  ((self.pushToOutput (self.directData first stop data)).finishInsert isLastSubstring)
  first stop isLastSubstring := by
 rw [goesDirect, Bool.and_eq_true, beq_iff_eq] at direct
 obtain ⟨start, fitting⟩ := direct
 subst start
 obtain ⟨length, bytes, inWindow, apart, rest⟩ : ∃ length,
  self.directData self.nextIndex stop data = segment stream self.nextIndex length ∧
  self.nextIndex + length ≤ stop ∧
  (∀ block ∈ self.buffer, self.nextIndex + length ≤ block.first) ∧
  (∀ index, self.nextIndex + length ≤ index → index < stop →
   Covers self.buffer index) := by
  cases shape : self.buffer with
  | nil =>
   refine ⟨stop - self.nextIndex, ?_, by omega, by simp, ?_⟩
   · simp only [directData, shape, content]
   · intro index low high
     omega
  | cons front tail =>
   simp only [shape, decide_eq_true_eq] at fitting
   have blocks := sound.blocks
   rw [shape] at blocks
   have frontAbove := sound.above front (by rw [shape]; exact mem_cons_self)
   refine ⟨min stop front.first - self.nextIndex, ?_, by omega, ?_, ?_⟩
   · simp only [directData, shape, content, segment_take]
     congr 1
     omega
   · intro block member
     have later := first_le_of_mem blocks member
     omega
   · intro index low high
     exact ⟨front, mem_cons_self, by omega, by omega⟩
 have next_eq := sound.next_eq
 have pushed := self.output.push_appended
  (segment stream self.nextIndex length) (by rw [segment_length]; omega)
 have room := pushed.availableCapacity
 rw [segment_length] at room
 have count := pushed.bytesPushed
 rw [segment_length] at count
 rw [bytes]
 refine absorbs_of_ready (segment stream self.nextIndex length)
  ⟨?_, sound.blocks, ?_, ?_, sound.size⟩ ?_ (by rw [segment_length]) rfl pushed rfl
  (self.output.push_closed _)
 · change self.nextIndex + (segment stream self.nextIndex length).length = _
   rw [segment_length, next_eq]
   rw [next_eq] at count
   exact count.symm
 · intro block member
   change self.nextIndex + (segment stream self.nextIndex length).length ≤ _
   rw [segment_length]
   exact apart block member
 · intro block member
   have inside := sound.below block member
   change _ < self.nextIndex + (segment stream self.nextIndex length).length +
    (self.output.push _).availableCapacity
   rw [segment_length]
   omega
 · intro index
   change (index < self.nextIndex + (segment stream self.nextIndex length).length ∨
    Covers self.buffer index) ↔ _
   rw [segment_length]
   constructor
   · rintro (old | covered)
     · by_cases early : index < self.nextIndex
       · exact .inl (.inl early)
       · exact .inr ⟨by omega, by omega⟩
     · exact .inl (.inr covered)
   · rintro ((old | covered) | new)
     · exact .inl (by omega)
     · exact .inr covered
     · by_cases early : index < self.nextIndex + length
       · exact .inl early
       · exact .inr (rest index (by omega) new.2)

/-! ### The two versions of `insert` -/

/-- The substring reaches past the next index and starts before the window's edge. -/
def Reaches (self : Reassembler) (first length : ℕ) : Prop :=
 self.nextIndex < first + length ∧ first < self.lastIndex

/-- What both versions do with a non-empty substring of the stream. -/
inductive Inserted (stream : ℕ → Byte) (state : Reassembler) (first length : ℕ)
 (isLastSubstring : Bool) : Option Reassembler → Prop
 | ignored (outside : ¬ state.Reaches first length) :
  Inserted stream state first length isLastSubstring (some state)
 | thrown (reaches : state.Reaches first length)
  (wrapped : state.lastIndex < state.nextIndex) :
  Inserted stream state first length isLastSubstring none
 | taken {result : Reassembler} (reaches : state.Reaches first length)
  (edge : state.lastIndex = state.nextIndex + state.output.availableCapacity)
  (absorbs : Absorbs stream state result (max first state.nextIndex)
   (min (first + length) (state.nextIndex + state.output.availableCapacity))
   (isLastSubstring && decide
    (first + length ≤ state.nextIndex + state.output.availableCapacity))) :
  Inserted stream state first length isLastSubstring (some result)

variable {first first' stop' : ℕ} {data data' : List Byte} {isLastSubstring isLast' : Bool}

theorem not_reaches_of_ignored
 (ignored : self.trim first data isLastSubstring = .ignored) :
 ¬ self.Reaches first data.length := by
 rintro ⟨reaches, starts⟩
 rcases trim_ignored ignored with old | late <;> omega

theorem reaches_of_ne_ignored
 (kept : self.trim first data isLastSubstring ≠ .ignored) :
 self.Reaches first data.length := by
 by_contra outside
 refine kept (if_pos ?_)
 unfold Reaches at outside
 omega

theorem wrapped_of_outOfRange
 (thrown : self.trim first data isLastSubstring = .outOfRange) :
 self.lastIndex < self.nextIndex :=
 self.lastIndex_cases.resolve_left fun edge => trim_ne_outOfRange edge thrown

theorem Trimmed.push_absorbs (sound : self.Sound stream)
 (trimmed : Trimmed stream self first data.length isLastSubstring first' stop' data'
  isLast') :
 Absorbs stream self ((self.bufferPush first' (stop' - 1) data').finishInsert isLast')
  first' stop' isLast' := by
 have content := trimmed.content
 have ordered := trimmed.ordered
 have firstEq := trimmed.first_eq
 have stopEq := trimmed.stop_eq
 by_cases empty : first' = stop'
 · obtain ⟨atNext, positive, full⟩ := trimmed.empty_only_full empty
   subst empty
   rw [Nat.sub_self, segment_zero] at content
   rw [content, atNext]
   exact bufferPush_empty_absorbs sound full positive isLast'
 · exact bufferPush_absorbs sound isLast' (by omega) (by omega) (by omega) content

variable {result : Reassembler}

theorem Trimmed.inserted
 (trimmed : Trimmed stream self first data.length isLastSubstring first' stop' data' isLast')
 (kept : self.trim first data isLastSubstring ≠ .ignored)
 (absorbs : Absorbs stream self result first' stop' isLast') :
 Inserted stream self first data.length isLastSubstring (some result) := by
 rw [trimmed.first_eq, trimmed.stop_eq, trimmed.isLast_eq] at absorbs
 exact .taken (reaches_of_ne_ignored kept) trimmed.edge absorbs

theorem insert_spec (isLastSubstring : Bool) (sound : self.Sound stream) (nonempty : data ≠ [])
 (content : data = segment stream first data.length) :
 Inserted stream self first data.length isLastSubstring
  (self.insert first data isLastSubstring) := by
 unfold insert
 rw [if_neg nonempty]
 cases outcome : self.trim first data isLastSubstring with
 | ignored => exact .ignored (not_reaches_of_ignored outcome)
 | outOfRange =>
  exact .thrown (reaches_of_ne_ignored (by rw [outcome]; nofun))
   (wrapped_of_outOfRange outcome)
 | accepted first' stop' data' isLast' =>
  have trimmed := trim_accepted nonempty content outcome
  exact trimmed.inserted (by rw [outcome]; nofun) (trimmed.push_absorbs sound)

theorem insertDirect_spec (isLastSubstring : Bool) (sound : self.Sound stream)
 (nonempty : data ≠ []) (content : data = segment stream first data.length) :
 Inserted stream self first data.length isLastSubstring
  (self.insertDirect first data isLastSubstring) := by
 unfold insertDirect
 rw [if_neg nonempty]
 cases outcome : self.trim first data isLastSubstring with
 | ignored => exact .ignored (not_reaches_of_ignored outcome)
 | outOfRange =>
  exact .thrown (reaches_of_ne_ignored (by rw [outcome]; nofun))
   (wrapped_of_outOfRange outcome)
 | accepted first' stop' data' isLast' =>
  have trimmed := trim_accepted nonempty content outcome
  have kept : self.trim first data isLastSubstring ≠ .ignored := by rw [outcome]; nofun
  have stopEq := trimmed.stop_eq
  dsimp only
  by_cases direct : self.goesDirect first' stop' = true
  · rw [if_pos direct]
    exact trimmed.inserted kept
     (direct_absorbs sound isLast' direct trimmed.ordered (by omega) trimmed.content)
  · rw [if_neg direct]
    exact trimmed.inserted kept (trimmed.push_absorbs sound)

/-- What holds after a call of `insert` that returned, empty substrings included. -/
structure Grown (stream : ℕ → Byte) (old new : Reassembler) (first length : ℕ) :
 Prop where
 sound : new.Sound stream
 advance : old.nextIndex ≤ new.nextIndex
 output : ByteStream.Appended old.output new.output
  (segment stream old.nextIndex (new.nextIndex - old.nextIndex))
 keeps : ∀ index, old.Known index → new.Known index
 known : ∀ index, new.Known index → old.Known index ∨
  (first ≤ index ∧ index < first + length)
 gains : old.nextIndex + old.output.availableCapacity < 2 ^ 64 →
  ∀ index, first ≤ index → index < first + length →
   index < old.nextIndex + old.output.availableCapacity → new.Known index

theorem Grown.same_bytes (self : Reassembler) {new : Reassembler}
 (newSound : new.Sound stream) (next : new.nextIndex = self.nextIndex)
 (buffer : new.buffer = self.buffer)
 (output : ByteStream.Appended self.output new.output []) {length : ℕ}
 (nothing : self.nextIndex + self.output.availableCapacity < 2 ^ 64 →
  ∀ index, first ≤ index → index < first + length →
   index < self.nextIndex + self.output.availableCapacity → self.Known index) :
 Grown stream self new first length := by
 have same : ∀ index, new.Known index ↔ self.Known index := by
  intro index
  unfold Known
  rw [next, buffer]
 refine ⟨newSound, le_of_eq next.symm, ?_, fun index => (same index).mpr,
  fun index known => .inl ((same index).mp known), ?_⟩
 · rw [next, Nat.sub_self]
   exact output
 · simp_all

variable (sound : self.Sound stream)
include sound

theorem Inserted.grown {length : ℕ}
 (inserted : Inserted stream self first length isLastSubstring (some result)) :
 Grown stream self result first length := by
 cases inserted with
 | ignored outside =>
  refine .same_bytes self sound rfl rfl (.refl _) ?_
  intro room index low high inWindow
  unfold Reaches at outside
  rw [lastIndex_eq_of_lt room] at outside
  exact .inl (by omega)
 | taken reaches edge absorbs =>
  refine ⟨absorbs.sound, absorbs.advance, absorbs.output, ?_, ?_, ?_⟩
  · intro index known
    exact (absorbs.known index).mpr (.inl known)
  · intro index known
    rcases (absorbs.known index).mp known with old | new
    · exact .inl old
    · exact .inr ⟨by omega, by omega⟩
  · intro room index low high inWindow
    refine (absorbs.known index).mpr ?_
    by_cases pushed : index < self.nextIndex
    · exact .inl (.inl pushed)
    · exact .inr ⟨by omega, by omega⟩

theorem closeOutput_sound : self.closeOutput.Sound stream :=
 ⟨sound.next_eq, sound.blocks, sound.above, sound.below, sound.size⟩

theorem insert_grown (content : data = segment stream first data.length)
 (returned : self.insert first data isLastSubstring = some result) :
 Grown stream self result first data.length := by
 by_cases empty : data = []
 · have outcome : (if isLastSubstring then self.closeOutput else self) = result := by
    rw [insert, if_pos empty] at returned
    exact Option.some.inj returned
   have nothing : self.nextIndex + self.output.availableCapacity < 2 ^ 64 →
    ∀ index, first ≤ index → index < first + data.length →
     index < self.nextIndex + self.output.availableCapacity →
     self.Known index := by
    intro _ index low high _
    rw [empty, length_nil] at high
    omega
   rw [← outcome]
   split
   · exact .same_bytes self (closeOutput_sound sound) rfl rfl
      (ByteStream.Appended.refl self.output).close nothing
   · exact .same_bytes self sound rfl rfl (.refl _) nothing
 · have inserted := insert_spec isLastSubstring sound empty content
   rw [returned] at inserted
   exact inserted.grown sound

end MyNotes.Cs144.Reassembler
